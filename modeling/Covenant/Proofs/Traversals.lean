import Covenant.Proofs.Capacity
import Covenant.Proofs.EvaluationOrder
import Mathlib.Data.List.Basic

/-!
# What the traversals compute

A traversal keeps a stack of pending entries. Each round takes the last one and makes others
pending, until there are none. Such a loop has no bound of its own. It ends if the entries that a
round makes pending are smaller, together, than the one it took, and its result can be said entry by
entry (`traverses_iff`). So the traversals of a tree end, with what `Expr.walk` and `Expr.depth`
give.

Which nodes a tree has and in which order is said by paths: a path names a part of each node on its
way by the place of the part. Paths are compared as words, so that a node comes before its parts and
before everything in later parts. That the parts themselves are in order is said by evaluation,
which comes to them in that order.

## Main definitions

* `Traverses` : a loop over a stack of pending entries ends with a result.
* `Expr.node?`, `Script.node?` : the node at the end of a path.
* `Enumerates` : a list has everything that is found at the ends of paths, in the order of paths.

## Main results

* `traverses_iff` : how such a loop ends.
* `Expr.walk_enumerates` : the nodes of an expression.
* `Expr.depth_eq` : the depth of an expression.
* `Script.calls_enumerates` : the calls of a script.
* `traversals_exact` : the traversals of all expressions and scripts.
-/

namespace Covenant

variable {α β γ : Type}

/-! ### Loops over a stack -/

/-- A loop over a stack of pending entries ends with a result. A round takes the last entry, visits
it, and puts others on the stack; the loop ends when nothing is pending. -/
inductive Traverses (visit : β → α → β) (next : α → List α) : List α → β → β → Prop
  | done (result : β) : Traverses visit next [] result result
  | round {pending : List α} {entry : α} {sofar result : β} :
      Traverses visit next (pending ++ next entry) (visit sofar entry) result →
      Traverses visit next (pending ++ [entry]) sofar result

section Stack

variable {visit : β → α → β} {next : α → List α} {whole : β → α → β} {size : α → Nat}

/-- What a loop ends with, given what becomes of a result by an entry together with all that the
entry makes pending. -/
theorem Traverses.result_eq
    (hwhole : ∀ sofar entry,
      whole sofar entry = (next entry).reverse.foldl whole (visit sofar entry))
    {pending : List α} {sofar result : β} (h : Traverses visit next pending sofar result) :
    result = pending.reverse.foldl whole sofar := by
  induction h with
  | done result => rfl
  | round _ ih =>
    rw [ih, List.reverse_append, List.foldl_append, ← hwhole]
    simp

/-- A loop ends if entries make only smaller ones pending. -/
theorem exists_traverses (hsize : ∀ entry, ((next entry).map size).sum < size entry)
    (pending : List α) (sofar : β) : ∃ result, Traverses visit next pending sofar result := by
  induction hn : (pending.map size).sum using Nat.strong_induction_on
    generalizing pending sofar with
  | _ n ih =>
    obtain rfl | ⟨pending, entry, rfl⟩ := List.eq_nil_or_concat pending
    · exact ⟨sofar, .done sofar⟩
    · rw [List.concat_eq_append] at hn ⊢
      have hless : ((pending ++ next entry).map size).sum < n := by
        have hentry := hsize entry
        simp only [List.map_append, List.sum_append, List.map_cons, List.map_nil, List.sum_cons,
          List.sum_nil] at hn ⊢
        omega
      obtain ⟨result, hresult⟩ := ih _ hless _ (visit sofar entry) rfl
      exact ⟨result, .round hresult⟩

theorem traverses_iff
    (hwhole : ∀ sofar entry,
      whole sofar entry = (next entry).reverse.foldl whole (visit sofar entry))
    (hsize : ∀ entry, ((next entry).map size).sum < size entry)
    {pending : List α} {sofar result : β} :
    Traverses visit next pending sofar result ↔ result = pending.reverse.foldl whole sofar := by
  refine ⟨fun h => h.result_eq hwhole, ?_⟩
  rintro rfl
  obtain ⟨result, h⟩ : ∃ result, Traverses visit next pending sofar result :=
    exists_traverses hsize pending sofar
  rwa [← h.result_eq hwhole]

end Stack

/-! ### Lists in the order of paths -/

/-- The list has everything that is found at the ends of paths, each path once, in the order of the
paths. -/
def Enumerates (find : List Nat → Option α) (found : List α) : Prop :=
  ∃ paths : List (List Nat), paths.Pairwise (· < ·) ∧
    (∀ path, path ∈ paths ↔ (find path).isSome) ∧ paths.map find = found.map some

/-- What is found inside of items: the first step of a path is the place of the item. -/
def findIn (find : β → List Nat → Option α) (items : List β) : List Nat → Option α
  | [] => none
  | i :: path => items[i]?.bind fun item => find item path

section Inside

variable {find : β → List Nat → Option α} {items : List β} {last : β} {i : Nat}
  {path : List Nat}

theorem findIn_append_left (h : i < items.length) :
    findIn find (items ++ [last]) (i :: path) = findIn find items (i :: path) := by
  simp only [findIn, List.getElem?_append_left h]

theorem findIn_append_last :
    findIn find (items ++ [last]) (items.length :: path) = find last path := by
  simp [findIn]

theorem exists_cons_of_findIn (h : (findIn find items path).isSome) :
    ∃ i rest, path = i :: rest ∧ i < items.length := by
  cases path with
  | nil => cases h
  | cons i rest =>
    obtain ⟨_, hfound⟩ := Option.isSome_iff_exists.mp h
    obtain ⟨_, hitem, -⟩ := Option.bind_eq_some_iff.mp hfound
    exact ⟨i, rest, rfl, (List.getElem?_eq_some_iff.mp hitem).1⟩

end Inside

namespace Enumerates

/-- What is in the items of a list comes item by item. -/
theorem flatMap {find : β → List Nat → Option α} {list : β → List α} {items : List β}
    (h : ∀ item ∈ items, Enumerates (find item) (list item)) :
    Enumerates (findIn find items) (items.flatMap list) := by
  induction items using List.reverseRecOn with
  | nil => exact ⟨[], .nil, by rintro (_ | ⟨i, path⟩) <;> simp [findIn], rfl⟩
  | append_singleton items last ih =>
    obtain ⟨paths, hascending, hmem, hfound⟩ :=
      ih fun item hitem => h item (List.mem_append_left _ hitem)
    obtain ⟨paths', hascending', hmem', hfound'⟩ :=
      h last (List.mem_append_right _ (List.mem_singleton.mpr rfl))
    have hfirst (path : List Nat) (hpath : path ∈ paths) :
        ∃ i rest, path = i :: rest ∧ i < items.length :=
      exists_cons_of_findIn ((hmem path).mp hpath)
    refine ⟨paths ++ paths'.map (items.length :: ·), ?_, fun path => ?_, ?_⟩
    · rw [List.pairwise_append, List.pairwise_map]
      refine ⟨hascending, hascending'.imp fun h => List.cons_lt_cons_iff.mpr (.inr ⟨rfl, h⟩), ?_⟩
      intro path hpath
      rw [List.forall_mem_map]
      intro path' _
      obtain ⟨i, rest, rfl, hi⟩ := hfirst path hpath
      exact List.cons_lt_cons_iff.mpr (.inl hi)
    · rw [List.mem_append, List.mem_map]
      constructor
      · rintro (hpath | ⟨rest, hrest, rfl⟩)
        · obtain ⟨i, rest, rfl, hi⟩ := hfirst path hpath
          rw [findIn_append_left hi]
          exact (hmem _).mp hpath
        · rw [findIn_append_last]
          exact (hmem' rest).mp hrest
      · intro hpath
        obtain ⟨i, rest, rfl, hi⟩ := exists_cons_of_findIn hpath
        rw [List.length_append, List.length_singleton, Nat.lt_succ_iff] at hi
        obtain hi | rfl := Nat.lt_or_eq_of_le hi
        · rw [findIn_append_left hi] at hpath
          exact .inl ((hmem _).mpr hpath)
        · rw [findIn_append_last] at hpath
          exact .inr ⟨rest, (hmem' rest).mpr hpath, rfl⟩
    · have hleft : paths.map (findIn find (items ++ [last])) = paths.map (findIn find items) := by
        refine List.map_congr_left fun path hpath => ?_
        obtain ⟨i, rest, rfl, hi⟩ := hfirst path hpath
        exact findIn_append_left hi
      rw [List.map_append, hleft, hfound, List.map_map, List.flatMap_append, List.map_append,
        List.flatMap_singleton, ← hfound']
      congr 1
      exact List.map_congr_left fun path _ => findIn_append_last

/-- The root comes before everything inside. -/
theorem root {find : List Nat → Option α} {inner : β → List Nat → Option α} {items : List β}
    {a : α} {found : List α} (hroot : find [] = some a)
    (hinside : ∀ i path, find (i :: path) = findIn inner items (i :: path))
    (h : Enumerates (findIn inner items) found) : Enumerates find (a :: found) := by
  obtain ⟨paths, hascending, hmem, hfound⟩ := h
  have hbelow (path : List Nat) (hpath : path ∈ paths) :
      [] < path ∧ find path = findIn inner items path := by
    obtain ⟨i, rest, rfl, -⟩ := exists_cons_of_findIn ((hmem path).mp hpath)
    exact ⟨List.nil_lt_cons i rest, hinside i rest⟩
  refine ⟨[] :: paths, .cons (fun path hpath => (hbelow path hpath).1) hascending, ?_, ?_⟩
  · rintro (_ | ⟨i, path⟩)
    · simp [hroot]
    · rw [hinside, ← hmem]
      simp
  · rw [List.map_cons, hroot, List.map_cons, ← hfound]
    exact congrArg _ (List.map_congr_left fun path hpath => (hbelow path hpath).2)

/-- Some of what is found. -/
theorem filterMap {find : List Nat → Option α} {found : List α} (select : α → Option γ)
    (h : Enumerates find found) :
    Enumerates (fun path => (find path).bind select) (found.filterMap select) := by
  obtain ⟨paths, hascending, hmem, hfound⟩ := h
  refine ⟨paths.filter fun path => ((find path).bind select).isSome, hascending.filter _,
    fun path => ?_, ?_⟩
  · rw [List.mem_filter, hmem, and_iff_right_iff_imp]
    cases find path with
    | none => exact fun h => h
    | some a => exact fun _ => rfl
  · clear hascending hmem
    induction paths generalizing found with
    | nil =>
      obtain rfl : found = [] := by simpa using hfound.symm
      rfl
    | cons path paths ih =>
      cases found with
      | nil => cases hfound
      | cons a found =>
        obtain ⟨ha, hfound⟩ := List.cons.inj hfound
        have hselected : (find path).bind select = select a := by rw [ha, Option.bind_some]
        rw [List.filter_cons, List.filterMap_cons, hselected]
        cases hc : select a with
        | none => exact ih hfound
        | some c =>
          rw [Option.isSome_some, if_pos rfl, List.map_cons, hselected, hc, ih hfound]
          rfl

end Enumerates

namespace Expr

/-- The node at the end of a path. -/
def node? : Expr → List Nat → Option Expr
  | e, [] => some e
  | e, i :: path => e.children[i]?.bind fun part => part.node? path

/-- The nodes of an expression, each once, each before its parts and the parts in order. -/
theorem walk_enumerates (e : Expr) : Enumerates e.node? e.walk := by
  induction e using childrenInd with
  | node e ih =>
    rw [walk_eq]
    exact .root rfl (fun _ _ => rfl) (.flatMap ih)

/-- The call comes before its argument, and both before the branches. -/
example :
    (cond (call "f" [ref "a"]) (ref "b") (some (ref "c"))).walk.tail =
      [call "f" [ref "a"], ref "a", ref "b", ref "c"] := by
  rfl

theorem sizeAll_eq (es : List Expr) : sizeAll es = (es.map size).sum := by
  induction es with
  | nil => rfl
  | cons e rest ih => rw [sizeAll, List.map_cons, List.sum_cons, ih]

/-- There are as many nodes as the constructs say. -/
theorem length_walk (e : Expr) : e.walk.length = e.size := by
  induction e using childrenInd with
  | node e ih =>
    rw [walk_eq, List.length_cons, List.length_flatMap, List.map_congr_left ih, size_eq, sizeAll_eq]

/-- The traversal of a tree ends, and hands its nodes to the visitor in order. -/
theorem walk_traverses (visit : β → Expr → β) (e : Expr) (start result : β) :
    Traverses visit (fun node => node.children.reverse) [e] start result ↔
      result = e.walk.foldl visit start := by
  have hwhole (sofar : β) (node : Expr) :
      node.walk.foldl visit sofar =
        node.children.reverse.reverse.foldl (fun sofar part => part.walk.foldl visit sofar)
          (visit sofar node) := by
    rw [walk_eq, List.foldl_cons, List.reverse_reverse, List.foldl_flatMap]
  have hsize (node : Expr) : (node.children.reverse.map size).sum < node.size := by
    rw [List.map_reverse, List.sum_reverse, ← sizeAll_eq, node.size_eq]
    exact Nat.lt_succ_self _
  exact traverses_iff hwhole hsize

/-- The depth of an expression is one more than the greatest depth of its parts. -/
theorem depth_eq (e : Expr) : e.depth = 1 + (e.children.map depth).foldl max 0 := by
  rw [List.foldl_map, Nat.add_comm]
  have hbound (n : Nat) : e.children.foldl (fun deepest part => max deepest part.depth) 0 ≤ n ↔
      e.depth ≤ n + 1 := by
    rw [foldl_max_le_iff, depth_le_succ_iff]
    simp
  obtain ⟨n, hn⟩ := Nat.exists_eq_succ_of_ne_zero (Nat.ne_of_gt e.depth_pos)
  refine Nat.le_antisymm ((hbound _).mp (Nat.le_refl _)) ?_
  rw [hn]
  exact Nat.succ_le_succ ((hbound n).mpr (Nat.le_of_eq hn))

/-- The traversal that counts levels ends with the depth of the tree. -/
theorem depth_traverses (e : Expr) (result : Nat) :
    Traverses (fun deepest entry => max deepest entry.2)
        (fun entry => entry.1.children.map (·, entry.2 + 1)) [(e, 1)] 0 result ↔
      result = e.depth := by
  -- A tree whose root is on some level reaches down by its depth, the root included.
  let whole (deepest : Nat) (entry : Expr × Nat) : Nat :=
    max deepest (entry.2 + entry.1.depth - 1)
  have hwhole (deepest : Nat) (entry : Expr × Nat) :
      whole deepest entry =
        (entry.1.children.map (·, entry.2 + 1)).reverse.foldl whole (max deepest entry.2) := by
    obtain ⟨node, level⟩ := entry
    refine eq_of_forall_ge_iff fun n => ?_
    rw [← List.map_reverse, List.foldl_map, foldl_max_le_iff]
    have hpos := node.depth_pos
    have hparts := node.depth_le_succ_iff (n - level)
    simp only [whole, List.mem_reverse, Nat.max_le]
    constructor
    · rintro ⟨hdeepest, hnode⟩
      refine ⟨⟨hdeepest, by omega⟩, fun part hpart => ?_⟩
      have hpart := hparts.mp (by omega) part hpart
      omega
    · rintro ⟨⟨hdeepest, hlevel⟩, hnode⟩
      have hnode := hparts.mpr fun part hpart => by
        have hpart := hnode part hpart
        omega
      exact ⟨hdeepest, by omega⟩
  have hsize (entry : Expr × Nat) :
      ((entry.1.children.map (·, entry.2 + 1)).map fun entry => entry.1.size).sum <
        entry.1.size := by
    rw [List.map_map, Function.comp_def, ← sizeAll_eq, entry.1.size_eq]
    exact Nat.lt_succ_self _
  rw [traverses_iff hwhole hsize]
  have hpos := e.depth_pos
  simp only [whole, List.reverse_singleton, List.foldl_cons, List.foldl_nil]
  omega

/-- The name and arguments of a call. -/
def call? : Expr → Option (String × List Expr)
  | call name args => some (name, args)
  | _ => none

end Expr

/-- The node at the end of a path whose first step is the place of a statement. -/
def Script.node? (script : Script) : List Nat → Option Expr :=
  findIn (fun s => s.expression.node?) script.statements

/-- The call at the end of a path. -/
def Script.call? (script : Script) (path : List Nat) : Option (String × List Expr) :=
  (script.node? path).bind Expr.call?

/-- The calls of a script, each once, in the order of the text. -/
theorem Script.calls_enumerates (script : Script) : Enumerates script.call? script.calls := by
  have hnodes : Enumerates script.node? (script.statements.flatMap fun s => s.expression.walk) :=
    .flatMap fun s _ => s.expression.walk_enumerates
  have hcalls : script.calls =
      (script.statements.flatMap fun s => s.expression.walk).filterMap Expr.call? := by
    rw [List.filterMap_flatMap]
    rfl
  rw [hcalls]
  exact hnodes.filterMap Expr.call?

/-- **The traversals compute what they are named for.** For every expression, the traversal that
hands nodes to a visitor ends, and has then handed over every node once: each before its parts, and
the parts in the order in which evaluation comes to them. The traversal that counts levels ends with
the depth, which is one more than the greatest depth of the parts. The calls of a script are the
nodes of its statements that are calls, in that order. -/
theorem traversals_exact :
    (∀ e : Expr,
      (∀ {β : Type} (visit : β → Expr → β) (start result : β),
        Traverses visit (fun node => node.children.reverse) [e] start result ↔
          result = e.walk.foldl visit start) ∧
      Enumerates e.node? e.walk ∧
      e.walk.length = e.size ∧
      (∀ node : Expr, node.Occurs e ↔ node ∈ e.walk) ∧
      (∀ {ι σ : Type} (setting : Setting ι σ) (allowance depth : Nat),
        Notes (e.turns allowance) (eval setting allowance depth e)
          (evalNoting setting allowance depth e)) ∧
      (∀ result : Nat,
        Traverses (fun deepest entry => max deepest entry.2)
            (fun entry => entry.1.children.map (·, entry.2 + 1)) [(e, 1)] 0 result ↔
          result = e.depth) ∧
      e.depth = 1 + (e.children.map Expr.depth).foldl max 0) ∧
    ∀ script : Script, Enumerates script.call? script.calls := by
  refine ⟨fun e => ⟨?_, e.walk_enumerates, e.length_walk, fun _ => Expr.occurs_iff_mem_walk, ?_,
    e.depth_traverses, e.depth_eq⟩, Script.calls_enumerates⟩
  · exact fun visit start result => e.walk_traverses visit start result
  · exact fun setting allowance depth => eval_notes setting allowance depth e

end Covenant
