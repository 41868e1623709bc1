import Covenant.Script.Basic

/-!
# Induction on expressions, and the traversals

The traversals of expressions keep a list of pending nodes and a bound on the number of rounds.
Here they are shown to follow the tree: the nodes of an expression are the expression itself and
the nodes of its parts, and its depth is one more than that of its deepest part.

## Main definitions

* `Expr.Everywhere` : every node of an expression has a property.

## Main results

* `Expr.ind`, `Expr.childrenInd` : induction on expressions, by construct and by parts.
* `Expr.walk_eq`, `Expr.everywhere_iff` : the nodes of an expression.
* `Expr.depth_le_succ_iff` : the depth of an expression.
* `Script.depth_le_iff` : the depth of a script.
-/

namespace Covenant

namespace Expr

/-- Induction on expressions. Lists of parts give a hypothesis for each member. -/
@[induction_eliminator]
theorem ind {motive : Expr → Prop}
    (literal : ∀ value, motive (literal value))
    (ref : ∀ name, motive (ref name))
    (binary : ∀ left op right, motive left → motive right → motive (binary left op right))
    (unary : ∀ op operand, motive operand → motive (unary op operand))
    (call : ∀ name args, (∀ e ∈ args, motive e) → motive (call name args))
    (block : ∀ items, (∀ e ∈ items, motive e) → motive (block items))
    (cond : ∀ test yes no, motive test → motive yes → (∀ e ∈ no, motive e) →
      motive (cond test yes no))
    (loop : ∀ test body, (∀ e ∈ test, motive e) → motive body → motive (loop test body))
    (assign : ∀ target value, motive value → motive (assign target value))
    (declare : ∀ name value, motive value → motive (declare name value))
    (object : ∀ entries, (∀ entry ∈ entries, motive entry.2) → motive (object entries))
    (array : ∀ items, (∀ e ∈ items, motive e) → motive (array items))
    (property : ∀ target name, motive target → motive (property target name))
    (index : ∀ target position, motive target → motive position →
      motive (index target position))
    (jump : ∀ j, motive (jump j)) (e : Expr) : motive e :=
  @Expr.rec motive (fun es => ∀ e ∈ es, motive e) (fun e? => ∀ e ∈ e?, motive e)
    (fun entries => ∀ entry ∈ entries, motive entry.2) (fun entry => motive entry.2)
    literal ref binary unary call block cond loop assign declare object array property index jump
    (fun _ h => nomatch h)
    (fun _ _ ihHead ihTail _ h => by
      rcases List.mem_cons.mp h with rfl | h
      · exact ihHead
      · exact ihTail _ h)
    (fun _ h => nomatch h)
    (fun _ ih _ h => Option.some.inj h ▸ ih)
    (fun _ h => nomatch h)
    (fun _ _ ihHead ihTail _ h => by
      rcases List.mem_cons.mp h with rfl | h
      · exact ihHead
      · exact ihTail _ h)
    (fun _ _ ih => ih) e

/-- Induction on expressions by their parts, whatever the construct. -/
theorem childrenInd {motive : Expr → Prop}
    (node : ∀ e, (∀ part ∈ e.children, motive part) → motive e) (e : Expr) : motive e := by
  induction e with
  | literal | ref | jump => exact node _ (by simp [children])
  | binary left op right ihLeft ihRight => exact node _ (by simp [children, ihLeft, ihRight])
  | call name args ih => exact node _ ih
  | block items ih => exact node _ ih
  | cond test yes no ihTest ihYes ihNo =>
    refine node _ ?_
    simp only [children, List.mem_cons, Option.mem_toList]
    rintro part (rfl | rfl | hpart)
    · exact ihTest
    · exact ihYes
    · exact ihNo part hpart
  | loop test body ihTest ihBody =>
    refine node _ ?_
    simp only [children, List.mem_append, Option.mem_toList, List.mem_singleton]
    rintro part (hpart | rfl)
    · exact ihTest part hpart
    · exact ihBody
  | object entries ih =>
    refine node _ ?_
    simp only [children, List.forall_mem_map]
    exact ih
  | array items ih => exact node _ ih
  | index target position ihTarget ihPosition =>
    exact node _ (by simp [children, ihTarget, ihPosition])
  | unary _ _ ih | assign _ _ ih | declare _ _ ih | property _ _ ih =>
    exact node _ (by simp [children, ih])

/-! ### Sizes -/

theorem sizeAll_append (es fs : List Expr) : sizeAll (es ++ fs) = sizeAll es + sizeAll fs := by
  induction es with
  | nil => simp [sizeAll]
  | cons e es ih => simp only [List.cons_append, sizeAll, ih]; omega

theorem sizeEntries_eq (entries : List (String × Expr)) :
    sizeEntries entries = sizeAll (entries.map Prod.snd) := by
  induction entries with
  | nil => simp [sizeEntries, sizeAll]
  | cons entry entries ih => simp only [sizeEntries, List.map_cons, sizeAll, ih]

/-- The nodes of an expression are itself and those of its parts. -/
theorem size_eq (e : Expr) : e.size = sizeAll e.children + 1 := by
  cases e with
  | cond test yes no =>
    cases no with
    | none => simp [size, children, sizeAll]
    | some no =>
      simp only [size, children, sizeAll, Option.toList]
      omega
  | loop test body => cases test <;> simp [size, children, sizeAll]
  | object entries => simp only [size, children, sizeEntries_eq]
  | _ => simp [size, children, sizeAll]

/-! ### Nodes -/

/-- With enough rounds, a traversal adds the nodes of every pending tree. -/
private theorem walkFrom_eq (n : Nat) : ∀ (pending visited : List Expr) (rounds : Nat),
    sizeAll pending ≤ n → sizeAll pending ≤ rounds →
    walkFrom rounds pending visited = visited.reverse ++ pending.flatMap walk := by
  induction n with
  | zero =>
    intro pending visited rounds hn _
    cases pending with
    | nil => simp [walkFrom]
    | cons e rest => simp only [sizeAll, size_eq] at hn; omega
  | succ n ih =>
    intro pending visited rounds hn hr
    cases pending with
    | nil => simp [walkFrom]
    | cons e rest =>
      simp only [sizeAll, size_eq] at hn hr
      obtain ⟨rounds, rfl⟩ : ∃ r, rounds = r + 1 := ⟨rounds - 1, by omega⟩
      have hrest : walkFrom rounds (e.children ++ rest) (e :: visited) =
          (e :: visited).reverse ++ (e.children ++ rest).flatMap walk :=
        ih _ _ _ (by rw [sizeAll_append]; omega) (by rw [sizeAll_append]; omega)
      have hwalk : e.walk = e :: e.children.flatMap walk := by
        rw [walk, size_eq, walkFrom, List.append_nil, ih _ _ _ (by omega) (by omega)]
        rfl
      rw [walkFrom, hrest, List.flatMap_cons, hwalk]
      simp

/-- The nodes of an expression are the expression itself and the nodes of its parts in order. -/
theorem walk_eq (e : Expr) : e.walk = e :: e.children.flatMap walk := by
  rw [walk, size_eq, walkFrom, List.append_nil, walkFrom_eq _ _ _ _ (Nat.le_refl _) (Nat.le_refl _)]
  rfl

theorem mem_walk_self (e : Expr) : e ∈ e.walk := by
  rw [walk_eq]
  exact List.mem_cons_self

theorem mem_walk_of_mem_children {e part node : Expr} (hpart : part ∈ e.children)
    (hnode : node ∈ part.walk) : node ∈ e.walk := by
  rw [walk_eq]
  exact List.mem_cons_of_mem _ (List.mem_flatMap.mpr ⟨part, hpart, hnode⟩)

theorem mem_walk_trans {e part node : Expr} (hpart : part ∈ e.walk) (hnode : node ∈ part.walk) :
    node ∈ e.walk := by
  induction e using childrenInd with
  | node e ih =>
    rw [walk_eq, List.mem_cons, List.mem_flatMap] at hpart
    obtain rfl | ⟨child, hchild, hpart⟩ := hpart
    · exact hnode
    · exact mem_walk_of_mem_children hchild (ih child hchild hpart)

/-- Every node of an expression has a property. -/
def Everywhere (P : Expr → Prop) (e : Expr) : Prop :=
  ∀ node ∈ e.walk, P node

theorem everywhere_iff {P : Expr → Prop} {e : Expr} :
    e.Everywhere P ↔ P e ∧ ∀ part ∈ e.children, part.Everywhere P := by
  rw [Everywhere, walk_eq, List.forall_mem_cons, List.forall_mem_flatMap]
  rfl

/-! ### Depth -/

/-- With enough rounds, a traversal finds the deepest node of every pending tree. -/
private theorem depthFrom_le_iff (n : Nat) : ∀ (pending : List (Expr × Nat)) (deepest rounds : Nat),
    sizeAll (pending.map Prod.fst) ≤ n → sizeAll (pending.map Prod.fst) ≤ rounds → ∀ bound,
    (depthFrom rounds pending deepest ≤ bound ↔
      deepest ≤ bound ∧ ∀ p ∈ pending, p.2 + p.1.depth ≤ bound + 1) := by
  induction n with
  | zero =>
    intro pending deepest rounds hn _ bound
    cases pending with
    | nil => simp [depthFrom]
    | cons p rest => simp only [List.map_cons, sizeAll, size_eq] at hn; omega
  | succ n ih =>
    intro pending deepest rounds hn hr bound
    cases pending with
    | nil => simp [depthFrom]
    | cons p rest =>
      obtain ⟨e, level⟩ := p
      have hfst (l : Nat) : (e.children.map (·, l)).map Prod.fst = e.children := by
        simp [Function.comp_def]
      simp only [List.map_cons, sizeAll, size_eq] at hn hr
      obtain ⟨rounds, rfl⟩ : ∃ r, rounds = r + 1 := ⟨rounds - 1, by omega⟩
      have hdepth (m : Nat) : e.depth ≤ m ↔ 1 ≤ m ∧ ∀ c ∈ e.children, c.depth + 1 ≤ m := by
        rw [depth, size_eq, depthFrom, List.append_nil,
          ih _ _ _ (by simp only [hfst]; omega) (Nat.le_of_eq (by rw [hfst]))]
        simp only [List.forall_mem_map]
        grind
      have hhead : level + e.depth ≤ bound + 1 ↔
          level ≤ bound ∧ ∀ c ∈ e.children, level + 1 + c.depth ≤ bound + 1 := by
        have hzero := hdepth 0
        have hbound := hdepth (bound + 1 - level)
        grind
      rw [depthFrom, ih _ _ _ (by rw [List.map_append, hfst, sizeAll_append]; omega)
        (by rw [List.map_append, hfst, sizeAll_append]; omega)]
      simp only [List.forall_mem_append, List.forall_mem_map, List.forall_mem_cons, hhead]
      grind

/-- The depth of an expression is one more than that of its deepest part. -/
theorem depth_le_succ_iff (e : Expr) (n : Nat) :
    e.depth ≤ n + 1 ↔ ∀ part ∈ e.children, part.depth ≤ n := by
  have hfst : (e.children.map (·, 2)).map Prod.fst = e.children := by simp [Function.comp_def]
  rw [depth, size_eq, depthFrom, List.append_nil,
    depthFrom_le_iff _ _ _ _ (Nat.le_refl _) (Nat.le_of_eq (by rw [hfst]))]
  simp only [List.forall_mem_map]
  grind

theorem depth_pos (e : Expr) : 0 < e.depth := by
  have hfst : (e.children.map (·, 2)).map Prod.fst = e.children := by simp [Function.comp_def]
  refine Nat.pos_of_ne_zero fun h => ?_
  have hle := Nat.le_of_eq h
  rw [depth, size_eq, depthFrom, List.append_nil,
    depthFrom_le_iff _ _ _ _ (Nat.le_refl _) (Nat.le_of_eq (by rw [hfst]))] at hle
  exact absurd hle.1 (by decide)

/-- Every part is less deep than the whole. -/
theorem depth_lt_of_mem_children {e part : Expr} (h : part ∈ e.children) :
    part.depth < e.depth := by
  obtain ⟨n, hn⟩ : ∃ n, e.depth = n + 1 := ⟨e.depth - 1, by have := e.depth_pos; omega⟩
  have := (e.depth_le_succ_iff n).mp (Nat.le_of_eq hn) part h
  omega

end Expr

/-- The greatest of several numbers is bounded by what bounds all of them. -/
theorem foldl_max_le_iff {α : Type} {f : α → Nat} {l : List α} {start n : Nat} :
    l.foldl (fun greatest a => max greatest (f a)) start ≤ n ↔ start ≤ n ∧ ∀ a ∈ l, f a ≤ n := by
  induction l generalizing start with
  | nil => simp
  | cons a l ih => rw [List.foldl_cons, ih, Nat.max_le, List.forall_mem_cons, and_assoc]

/-- A script is as deep as its deepest statement. -/
theorem Script.depth_le_iff (script : Script) (n : Nat) :
    script.depth ≤ n ↔ ∀ s ∈ script.statements, s.expression.depth ≤ n := by
  rw [Script.depth, foldl_max_le_iff]
  simp

end Covenant
