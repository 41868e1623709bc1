import Covenant.Program.Emit
import Covenant.Proofs.Code
import Covenant.Proofs.Computation
import Covenant.Proofs.Expression
import Covenant.Proofs.Values

/-!
# Emission produces code

What is emitted for an expression is its code, wherever it is put: in every program that has the
emitted instructions at the offset they were emitted for and the constants pooled by then. Emission
only ever adds to the pool, so the constants of the finished program will do for every part.

## Main definitions

* `Program.HasCode` : instructions stand in a program from an offset on.
* `Extends` : a pool has all the constants of another.
* `Emit.Renders` : the result of an emission is the code of an expression.

## Main results

* `Emit.emitted` : what is emitted for an expression is its code.
* `Emit.emitScript_eq_ok` : what is emitted for a script is the code of its statements.
-/

namespace Covenant

variable (program : Program)

/-! ### Code at an offset -/

/-- The instructions stand in the program from an offset on. -/
def Program.HasCode (base : Nat) (code : Array Op) : Prop :=
  ∀ i op, code[i]? = some op → program.At (base + i) op

variable {program}

namespace Program

theorem HasCode.left {base : Nat} {first second : Array Op}
    (h : program.HasCode base (first ++ second)) : program.HasCode base first := by
  intro i op hop
  have hi : i < first.size := (Array.getElem?_eq_some_iff.mp hop).1
  exact h i op (by rw [Array.getElem?_append_left hi, hop])

theorem HasCode.right {base : Nat} {first second : Array Op}
    (h : program.HasCode base (first ++ second)) :
    program.HasCode (base + first.size) second := by
  intro i op hop
  have hat := h (first.size + i) op (by
    rw [Array.getElem?_append_right (Nat.le_add_right _ _), Nat.add_sub_cancel_left, hop])
  rwa [← Nat.add_assoc] at hat

theorem HasCode.head {base : Nat} {op : Op} {code : Array Op}
    (h : program.HasCode base (#[op] ++ code)) : program.At base op :=
  h.left 0 op rfl

theorem HasCode.init {base : Nat} {code : Array Op} {op : Op}
    (h : program.HasCode base (code.push op)) : program.HasCode base code := by
  rw [Array.push_eq_append] at h
  exact h.left

theorem HasCode.last {base : Nat} {code : Array Op} {op : Op}
    (h : program.HasCode base (code.push op)) : program.At (base + code.size) op :=
  h code.size op (by simp)

end Program

/-- The second pool has every constant of the first at its place. -/
def Extends (pool pool' : Array Value) : Prop :=
  ∀ (i : Nat) (value : Value), pool[i]? = some value → pool'[i]? = some value

theorem Extends.refl (pool : Array Value) : Extends pool pool := fun _ _ h => h

theorem Extends.trans {p q r : Array Value} (hpq : Extends p q) (hqr : Extends q r) :
    Extends p r :=
  fun i value h => hqr i value (hpq i value h)

/-! ### What emission does to the layout -/

namespace Emit

variable {α β : Type} {L L' : Layout}

theorem bind_eq_ok {x : EmitM α} {f : α → EmitM β} {r : β × Layout} :
    (x >>= f) L = .ok r ↔ ∃ a L₁, x L = .ok (a, L₁) ∧ f a L₁ = .ok r := by
  change (x L >>= fun p => f p.1 p.2) = _ ↔ _
  rw [bind_eq_ok_iff]
  exact ⟨fun ⟨p, hp, h⟩ => ⟨p.1, p.2, hp, h⟩, fun ⟨a, L₁, hx, h⟩ => ⟨(a, L₁), hx, h⟩⟩

theorem get_bind_eq_ok {f : Layout → EmitM β} {r : β × Layout} :
    (get >>= f) L = .ok r ↔ f L L = .ok r := Iff.rfl

/-- A number that fits is the target itself. -/
theorem target_eq_ok {n : Nat} {t : UInt32} (h : target n L = .ok (t, L')) :
    t.toNat = n ∧ L' = L := by
  unfold target at h
  split at h
  · rename_i hn
    cases h
    exact ⟨UInt32.toNat_ofNat_of_lt' hn, rfl⟩
  · cases h

theorem count_eq_ok {n : Nat} {fault : CompileFault} {t : UInt32}
    (h : count n fault L = .ok (t, L')) : t.toNat = n ∧ L' = L := by
  unfold count at h
  split at h
  · rename_i hn
    cases h
    exact ⟨UInt32.toNat_ofNat_of_lt' hn, rfl⟩
  · cases h

theorem shortCount_eq_ok {n : Nat} {fault : CompileFault} {t : UInt16}
    (h : shortCount n fault L = .ok (t, L')) : t.toNat = n ∧ L' = L := by
  unfold shortCount at h
  split at h
  · rename_i hn
    cases h
    exact ⟨UInt16.toNat_ofNat_of_lt' hn, rfl⟩
  · cases h

/-- A pooled value is in the pool at its index, and the pool keeps what it has. -/
theorem pooled_eq_ok {value : Value} {i : UInt32} (h : pooled value L = .ok (i, L')) :
    L'.scopes = L.scopes ∧ Extends L.pool L'.pool ∧ L'.pool[i.toNat]? = some value := by
  rw [pooled, get_bind_eq_ok] at h
  cases hfind : L.pool.findIdx? (·.identical value) with
  | some k =>
    rw [hfind] at h
    obtain ⟨hi, rfl⟩ := count_eq_ok h
    obtain ⟨hk, hidentical, -⟩ := Array.findIdx?_eq_some_iff_getElem.mp hfind
    rw [hi, Array.getElem?_eq_getElem hk, Value.eq_of_identical _ _ hidentical]
    exact ⟨rfl, .refl _, rfl⟩
  | none =>
    rw [hfind] at h
    obtain ⟨_, L₁, hset, hcount⟩ := bind_eq_ok.mp h
    cases hset
    obtain ⟨hi, rfl⟩ := count_eq_ok hcount
    refine ⟨rfl, fun j w hj => ?_, ?_⟩
    · have hlt := (Array.getElem?_eq_some_iff.mp hj).1
      simp only [Array.getElem?_push, Nat.ne_of_lt hlt, if_false, hj]
    · rw [hi]
      simp

theorem resolve_eq_ok {name : String} {found : Option (UInt16 × UInt16)}
    (h : resolve name L = .ok (found, L')) :
    L' = L ∧ L.scopes.lookup? name = found.map fun (depth, slot) => (depth.toNat, slot) := by
  rw [resolve, get_bind_eq_ok] at h
  cases hlookup : L.scopes.lookup? name with
  | none =>
    rw [hlookup] at h
    cases h
    exact ⟨rfl, rfl⟩
  | some found' =>
    obtain ⟨hops, slot⟩ := found'
    rw [hlookup] at h
    obtain ⟨depth, L₁, hdepth, hpure⟩ := bind_eq_ok.mp h
    obtain ⟨hhops, rfl⟩ := shortCount_eq_ok hdepth
    cases hpure
    exact ⟨rfl, by simp [hhops]⟩

theorem emitRef_eq_ok {name : String} {op : Op} (h : emitRef name L = .ok (op, L')) :
    L'.scopes = L.scopes ∧ Extends L.pool L'.pool ∧
      ∀ program : Program, Extends L'.pool program.constants →
        Loads program L.scopes name op := by
  obtain ⟨found, L₁, hresolve, h⟩ := bind_eq_ok.mp h
  obtain ⟨rfl, hlookup⟩ := resolve_eq_ok hresolve
  cases found with
  | none =>
    obtain ⟨i, L₂, hname, hpure⟩ := bind_eq_ok.mp h
    obtain ⟨hscopes, hpool, hi⟩ := pooled_eq_ok hname
    cases hpure
    exact ⟨hscopes, hpool, fun program hextends => .global hlookup (hextends _ _ hi)⟩
  | some found =>
    cases h
    exact ⟨rfl, .refl _, fun _ _ => .slot hlookup⟩

theorem emitAssign_eq_ok {name : String} {op : Op} (h : emitAssign name L = .ok (op, L')) :
    L'.scopes = L.scopes ∧ Extends L.pool L'.pool ∧
      ∀ program : Program, Extends L'.pool program.constants →
        Assigns program L.scopes name op := by
  obtain ⟨found, L₁, hresolve, h⟩ := bind_eq_ok.mp h
  obtain ⟨rfl, hlookup⟩ := resolve_eq_ok hresolve
  cases found with
  | none =>
    obtain ⟨i, L₂, hname, h⟩ := bind_eq_ok.mp h
    obtain ⟨hscopes, hpool, hi⟩ := pooled_eq_ok hname
    rw [get_bind_eq_ok, hscopes] at h
    cases hglobal : L₁.scopes.isGlobal with
    | true =>
      rw [hglobal] at h
      cases h
      exact ⟨hscopes, hpool, fun program hextends =>
        .global hlookup hglobal (hextends _ _ hi)⟩
    | false =>
      rw [hglobal] at h
      cases h
      exact ⟨hscopes, hpool, fun program hextends =>
        .bound hlookup hglobal (hextends _ _ hi)⟩
  | some found =>
    cases h
    exact ⟨rfl, .refl _, fun _ _ => .slot hlookup⟩

theorem emitDeclare_eq_ok {name : String} {op : Op} (h : emitDeclare name L = .ok (op, L')) :
    Extends L.pool L'.pool ∧
      ∀ program : Program, Extends L'.pool program.constants →
        Declares program L.scopes name op L'.scopes := by
  rw [emitDeclare, get_bind_eq_ok] at h
  cases hglobal : L.scopes.isGlobal with
  | true =>
    rw [hglobal] at h
    obtain ⟨i, L₁, hname, hpure⟩ := bind_eq_ok.mp h
    obtain ⟨hscopes, hpool, hi⟩ := pooled_eq_ok hname
    cases hpure
    refine ⟨hpool, fun program hextends => ?_⟩
    rw [hscopes]
    exact .global hglobal (hextends _ _ hi)
  | false =>
    rw [hglobal] at h
    obtain ⟨slot, L₁, hslot, hpure⟩ := bind_eq_ok.mp h
    cases hpure
    rw [slotFor, get_bind_eq_ok] at hslot
    cases hbound : L.scopes.innermost[name]? with
    | some slot' =>
      rw [hbound] at hslot
      cases hslot
      exact ⟨.refl _, fun _ _ => .again hglobal hbound⟩
    | none =>
      rw [hbound] at hslot
      obtain ⟨slot', L₂, hcount, hslot⟩ := bind_eq_ok.mp hslot
      obtain ⟨hcount, rfl⟩ := shortCount_eq_ok hcount
      obtain ⟨_, L₃, hset, hpure⟩ := bind_eq_ok.mp hslot
      cases hset
      cases hpure
      exact ⟨.refl _, fun _ _ => .fresh hglobal hbound hcount⟩

/-! ### What is emitted is the code -/

/-- What an emission at an offset gives is the code of an expression there, in every program that
has it and the constants pooled so far. -/
structure Renders (base : Nat) (e : Expr) (L : Layout) (code : Array Op) (L' : Layout) :
    Prop where
  nonempty : 0 < code.size
  pool : Extends L.pool L'.pool
  code (program : Program) : program.HasCode base code → Extends L'.pool program.constants →
    CodeOf program L.scopes base e (base + code.size) L'.scopes

theorem emitAll_eq_ok {es : List Expr}
    (hes : ∀ e ∈ es, ∀ base L code L', emit base e L = .ok (code, L') →
      Renders base e L code L') {base : Nat} {before code : Array Op}
    (h : emitAll base before es L = .ok (code, L')) :
    ∃ more, code = before ++ more ∧ Extends L.pool L'.pool ∧
      ∀ program : Program, program.HasCode (base + before.size) more →
        Extends L'.pool program.constants →
        CodeOfAll program L.scopes (base + before.size) es (base + code.size) L'.scopes := by
  induction es generalizing before L with
  | nil =>
    cases h
    exact ⟨#[], by simp, .refl _, fun _ _ _ => .nil⟩
  | cons e rest ih =>
    obtain ⟨first, L₁, hfirst, hrest⟩ := bind_eq_ok.mp h
    have hrender := hes e List.mem_cons_self _ _ _ _ hfirst
    obtain ⟨more, rfl, hpool, hcode⟩ :=
      ih (fun e he => hes e (List.mem_cons_of_mem _ he)) hrest
    refine ⟨first ++ more, Array.append_assoc, hrender.pool.trans hpool, ?_⟩
    intro program hprogram hextends
    have hhead := hrender.code program hprogram.left (hpool.trans hextends)
    have htail := hcode program (by
      rw [Array.size_append, ← Nat.add_assoc]
      exact hprogram.right) hextends
    rw [Array.size_append, ← Nat.add_assoc] at htail
    exact .cons hhead htail

theorem push_append_append (before : Array Op) (op : Op) (first more : Array Op) :
    before.push op ++ first ++ more = before ++ (#[op] ++ (first ++ more)) := by
  rw [Array.push_eq_append]
  simp only [Array.append_assoc]

theorem emitItems_eq_ok {es : List Expr}
    (hes : ∀ e ∈ es, ∀ base L code L', emit base e L = .ok (code, L') →
      Renders base e L code L') {base : Nat} {before code : Array Op}
    (h : emitItems base before es L = .ok (code, L')) :
    ∃ more, code = before ++ more ∧ Extends L.pool L'.pool ∧
      ∀ program : Program, program.HasCode (base + before.size) more →
        Extends L'.pool program.constants →
        CodeOfRest program L.scopes (base + before.size) es (base + code.size) L'.scopes := by
  induction es generalizing before L with
  | nil =>
    cases h
    exact ⟨#[], by simp, .refl _, fun _ _ _ => .nil⟩
  | cons e rest ih =>
    obtain ⟨first, L₁, hfirst, hrest⟩ := bind_eq_ok.mp h
    have hrender := hes e List.mem_cons_self _ _ _ _ hfirst
    obtain ⟨more, rfl, hpool, hcode⟩ :=
      ih (fun e he => hes e (List.mem_cons_of_mem _ he)) hrest
    have hsize : base + (before.push .pop ++ first).size = base + before.size + 1 + first.size := by
      simp only [Array.size_append, Array.size_push]
      omega
    refine ⟨#[Op.pop] ++ (first ++ more), push_append_append before .pop first more,
      hrender.pool.trans hpool, ?_⟩
    intro program hprogram hextends
    have hhead := hrender.code program hprogram.right.left (hpool.trans hextends)
    have htail := hcode program (by rw [hsize]; exact hprogram.right.right) hextends
    rw [hsize] at htail
    exact .cons hprogram.head hhead htail

theorem emitEntries_eq_ok {entries : List (String × Expr)}
    (hentries : ∀ entry ∈ entries, ∀ base L code L', emit base entry.2 L = .ok (code, L') →
      Renders base entry.2 L code L') {base : Nat} {before code : Array Op}
    (h : emitEntries base before entries L = .ok (code, L')) :
    ∃ more, code = before ++ more ∧ Extends L.pool L'.pool ∧
      ∀ program : Program, program.HasCode (base + before.size) more →
        Extends L'.pool program.constants →
        CodeOfEntries program L.scopes (base + before.size) entries (base + code.size)
          L'.scopes := by
  induction entries generalizing before L with
  | nil =>
    cases h
    exact ⟨#[], by simp, .refl _, fun _ _ _ => .nil⟩
  | cons entry rest ih =>
    obtain ⟨key, e⟩ := entry
    obtain ⟨i, L₁, hkey, h⟩ := bind_eq_ok.mp h
    obtain ⟨hscopes, hkeyPool, hi⟩ := pooled_eq_ok hkey
    obtain ⟨first, L₂, hfirst, hrest⟩ := bind_eq_ok.mp h
    have hrender := hentries (key, e) List.mem_cons_self _ _ _ _ hfirst
    obtain ⟨more, rfl, hpool, hcode⟩ :=
      ih (fun e he => hentries e (List.mem_cons_of_mem _ he)) hrest
    have hsize : base + (before.push (.constant i) ++ first).size =
        base + before.size + 1 + first.size := by
      simp only [Array.size_append, Array.size_push]
      omega
    refine ⟨#[Op.constant i] ++ (first ++ more), push_append_append before (.constant i) first more,
      hkeyPool.trans (hrender.pool.trans hpool), ?_⟩
    intro program hprogram hextends
    rw [Array.size_push, ← Nat.add_assoc] at hrender
    have hhead := hrender.code program hprogram.right.left (hpool.trans hextends)
    rw [hscopes] at hhead
    have htail := hcode program (by rw [hsize]; exact hprogram.right.right) hextends
    rw [hsize] at htail
    exact .cons hprogram.head ((hrender.pool.trans (hpool.trans hextends)) _ _ hi) hhead htail

theorem Renders.of_eq {base : Nat} {e : Expr} {code : Array Op} (last : Nat)
    (hlast : base + code.size = last) (hlt : base < last) (hpool : Extends L.pool L'.pool)
    (hcode : ∀ program : Program, program.HasCode base code → Extends L'.pool program.constants →
      CodeOf program L.scopes base e last L'.scopes) : Renders base e L code L' := by
  subst hlast
  exact ⟨by omega, hpool, hcode⟩

theorem size_push (base : Nat) (code : Array Op) (op : Op) :
    base + (code.push op).size = base + code.size + 1 := by
  rw [Array.size_push, Nat.add_assoc]

/-- An instruction behind the code of the parts makes it the code of the whole. -/
theorem Renders.push {base : Nat} {e : Expr} {code : Array Op} {op : Op}
    (hpool : Extends L.pool L'.pool)
    (hcode : ∀ program : Program, program.HasCode base code → program.At (base + code.size) op →
      Extends L'.pool program.constants →
      CodeOf program L.scopes base e (base + code.size + 1) L'.scopes) :
    Renders base e L (code.push op) L' :=
  .of_eq _ (size_push base code op) (by omega) hpool fun program hprogram =>
    hcode program hprogram.init hprogram.last

/-- The code of one part and behind it the code of another, in a program that has both. -/
theorem Renders.append {base : Nat} {e e' : Expr} {first second : Array Op} {L₁ L₂ : Layout}
    (hfirst : Renders base e L first L₁) (hsecond : Renders (base + first.size) e' L₁ second L₂)
    {program : Program} (hprogram : program.HasCode base (first ++ second))
    (hextends : Extends L₂.pool program.constants) :
    CodeOf program L.scopes base e (base + first.size) L₁.scopes ∧
      CodeOf program L₁.scopes (base + first.size) e' (base + (first ++ second).size)
        L₂.scopes := by
  refine ⟨hfirst.code program hprogram.left (hsecond.pool.trans hextends), ?_⟩
  rw [Array.size_append, ← Nat.add_assoc]
  exact hsecond.code program hprogram.right hextends

/-- What emission of an expression gives is its code, wherever and however it is emitted. -/
def Emitted (e : Expr) : Prop :=
  ∀ (base : Nat) (L : Layout) (code : Array Op) (L' : Layout),
    emit base e L = .ok (code, L') → Renders base e L code L'

theorem emitted_binary {left right : Expr} {op : BinaryOp} (ihLeft : Emitted left)
    (ihRight : Emitted right) : Emitted (.binary left op right) := by
  intro base L code L' h
  rw [emit] at h
  obtain ⟨first, L₁, hfirst, h⟩ := bind_eq_ok.mp h
  have hleft := ihLeft _ _ _ _ hfirst
  cases hlogical : op.isLogical with
  | true =>
    simp only [hlogical, if_true] at h
    obtain ⟨second, L₂, hsecond, h⟩ := bind_eq_ok.mp h
    have hright := ihRight _ _ _ _ hsecond
    obtain ⟨done, L₃, hdone, hpure⟩ := bind_eq_ok.mp h
    obtain ⟨hdone, rfl⟩ := target_eq_ok hdone
    cases hpure
    refine .of_eq (base + first.size + 1 + second.size + 1) ?_ (by omega)
      (hleft.pool.trans hright.pool) fun program hprogram hextends => ?_
    · simp only [Array.size_push, Array.size_append]
      omega
    · have hcode := hprogram.init
      have hsecond := hcode.right
      have hlast := hprogram.last
      simp only [Array.size_push, Array.size_append, ← Nat.add_assoc] at hsecond hlast
      exact .logical hlogical (hleft.code program hcode.left.init (hright.pool.trans hextends))
        hcode.left.last (hright.code program hsecond hextends) hlast (by omega)
  | false =>
    simp only [hlogical, Bool.false_eq_true, if_false] at h
    obtain ⟨second, L₂, hsecond, hpure⟩ := bind_eq_ok.mp h
    have hright := ihRight _ _ _ _ hsecond
    cases hpure
    refine .push (hleft.pool.trans hright.pool) fun program hprogram hop hextends => ?_
    obtain ⟨hcodeLeft, hcodeRight⟩ := hleft.append hright hprogram hextends
    exact .binary hlogical hcodeLeft hcodeRight hop

theorem emitted_emptyBlock : Emitted (.block []) := by
  intro base L code L' h
  rw [emit] at h
  obtain ⟨_, L₁, hpush, h⟩ := bind_eq_ok.mp h
  cases hpush
  obtain ⟨i, L₂, hnull, h⟩ := bind_eq_ok.mp h
  obtain ⟨hscopes, hpool, hi⟩ := pooled_eq_ok hnull
  obtain ⟨inner, L₃, hpure, h⟩ := bind_eq_ok.mp h
  cases hpure
  obtain ⟨_, _, hget, h⟩ := bind_eq_ok.mp h
  cases hget
  obtain ⟨slots, L₄, hslots, hclose⟩ := bind_eq_ok.mp h
  obtain ⟨-, rfl⟩ := shortCount_eq_ok hslots
  obtain ⟨_, L₅, hpop, hpure⟩ := bind_eq_ok.mp hclose
  cases hpop
  cases hpure
  refine .of_eq (base + 3) rfl (by omega) hpool fun program hprogram hextends => ?_
  have hkept : L₄.scopes.pop = L.scopes := by
    rw [hscopes]
    rfl
  simp only [hkept]
  exact .emptyBlock (hprogram 0 _ rfl) (hprogram 1 _ rfl) (hextends _ _ hi) (hprogram 2 _ rfl)

theorem emitted_block {e : Expr} {rest : List Expr} (ihHead : Emitted e)
    (ihRest : ∀ e ∈ rest, Emitted e) : Emitted (.block (e :: rest)) := by
  intro base L code L' h
  rw [emit] at h
  obtain ⟨_, L₁, hpush, h⟩ := bind_eq_ok.mp h
  cases hpush
  obtain ⟨first, L₂, hfirst, h⟩ := bind_eq_ok.mp h
  have hhead := ihHead _ _ _ _ hfirst
  obtain ⟨inner, L₃, hrest, h⟩ := bind_eq_ok.mp h
  obtain ⟨more, rfl, hpool, hcode⟩ := emitItems_eq_ok ihRest hrest
  obtain ⟨_, _, hget, h⟩ := bind_eq_ok.mp h
  cases hget
  obtain ⟨slots, L₄, hslots, hclose⟩ := bind_eq_ok.mp h
  obtain ⟨hcount, rfl⟩ := shortCount_eq_ok hslots
  obtain ⟨_, L₅, hpop, hpure⟩ := bind_eq_ok.mp hclose
  cases hpop
  cases hpure
  refine .of_eq (base + 1 + (first ++ more).size + 1) ?_ (by omega) (hhead.pool.trans hpool)
    fun program hprogram hextends => ?_
  · simp only [Array.size_push, Array.size_append]
    simp
    omega
  · have hbody := hprogram.init.right
    have hlast := hprogram.last
    simp only [Array.size_append, ← Nat.add_assoc] at hlast
    exact .block hprogram.init.head (hhead.code program hbody.left (hpool.trans hextends))
      (hcode program hbody.right hextends) (by simpa [Nat.add_assoc] using hlast) hcount

theorem renders_cond {base : Nat} {test yes : Expr} {no : Option Expr} {L₁ L₂ : Layout}
    {first second third : Array Op} {toElse toEnd : UInt32} (hfirst : Renders base test L first L₁)
    (hsecond : Renders (base + first.size + 1) yes L₁ second L₂)
    (hpool : Extends L₂.pool L'.pool)
    (hthird : ∀ program : Program, program.HasCode (base + first.size + second.size + 2) third →
      Extends L'.pool program.constants →
      CodeOfElse program L₂.scopes (base + first.size + second.size + 2) no
        (base + first.size + second.size + 2 + third.size) L'.scopes)
    (htoElse : toElse.toNat = base + first.size + second.size + 2)
    (htoEnd : toEnd.toNat = base + first.size + second.size + 2 + third.size) :
    Renders base (.cond test yes no) L
      ((first.push (.jumpIfFalse toElse) ++ second).push (.jump toEnd) ++ third) L' := by
  refine .of_eq (base + first.size + second.size + 2 + third.size) ?_ (by omega)
    (hfirst.pool.trans (hsecond.pool.trans hpool)) fun program hprogram hextends => ?_
  · simp only [Array.size_push, Array.size_append]
    omega
  · have hbefore := hprogram.left.init
    have hyes := hbefore.right
    have hjump := hprogram.left.last
    have helse := hprogram.right
    simp only [Array.size_push, Array.size_append, ← Nat.add_assoc] at hyes hjump helse
    have hoffset : base + first.size + second.size + 2 =
        base + first.size + 1 + second.size + 1 := by omega
    rw [hoffset] at htoElse htoEnd hthird ⊢
    exact .cond (hfirst.code program hbefore.left.init (hsecond.pool.trans (hpool.trans hextends)))
      hbefore.left.last (hsecond.code program hyes (hpool.trans hextends)) hjump
      (hthird program helse hextends) htoElse htoEnd

theorem emitted_cond {test yes : Expr} {no : Option Expr} (ihTest : Emitted test)
    (ihYes : Emitted yes) (ihNo : ∀ e ∈ no, Emitted e) : Emitted (.cond test yes no) := by
  intro base L code L' h
  rw [emit] at h
  obtain ⟨first, L₁, hfirst, h⟩ := bind_eq_ok.mp h
  obtain ⟨second, L₂, hsecond, h⟩ := bind_eq_ok.mp h
  have htest := ihTest _ _ _ _ hfirst
  have hyes := ihYes _ _ _ _ hsecond
  cases no with
  | none =>
    obtain ⟨i, L₃, hnull, h⟩ := bind_eq_ok.mp h
    obtain ⟨hscopes, hpool, hi⟩ := pooled_eq_ok hnull
    obtain ⟨third, L₄, hthird, h⟩ := bind_eq_ok.mp h
    cases hthird
    obtain ⟨toElse, L₄, htoElse, hjump⟩ := bind_eq_ok.mp h
    obtain ⟨hElse, rfl⟩ := target_eq_ok htoElse
    obtain ⟨toEnd, L₅, htoEnd, hpure⟩ := bind_eq_ok.mp hjump
    obtain ⟨hEnd, rfl⟩ := target_eq_ok htoEnd
    cases hpure
    refine renders_cond htest hyes hpool (fun program hprogram hextends => ?_) hElse hEnd
    rw [hscopes]
    exact .none (hprogram 0 _ rfl) (hextends _ _ hi)
  | some e =>
    obtain ⟨third, L₃, hthird, h⟩ := bind_eq_ok.mp h
    have hno := ihNo e rfl _ _ _ _ hthird
    obtain ⟨toElse, L₄, htoElse, hjump⟩ := bind_eq_ok.mp h
    obtain ⟨hElse, rfl⟩ := target_eq_ok htoElse
    obtain ⟨toEnd, L₅, htoEnd, hpure⟩ := bind_eq_ok.mp hjump
    obtain ⟨hEnd, rfl⟩ := target_eq_ok htoEnd
    cases hpure
    exact renders_cond htest hyes hno.pool
      (fun program hprogram hextends => .some (hno.code program hprogram hextends)) hElse hEnd

theorem renders_loop {base : Nat} {test : Option Expr} {body : Expr} {L₁ L₂ : Layout}
    {tested repeated : Array Op} {start done i : UInt32}
    (hpool : Extends L.pool L₁.pool)
    (htested : ∀ program : Program, program.HasCode (base + 2) tested →
      Extends L₁.pool program.constants →
      CodeOfTest program L.scopes (base + 2) test done (base + 2 + tested.size) L₁.scopes)
    (hbody : Renders (base + 2 + tested.size) body L₁ repeated L₂)
    (hnull : L'.scopes = L₂.scopes ∧ Extends L₂.pool L'.pool ∧ L'.pool[i.toNat]? = some .null)
    (hstart : start.toNat = base + 1)
    (hdone : done.toNat = base + 2 + tested.size + repeated.size + 2) :
    Renders base (.loop test body) L
      (#[Op.loopEnter start done, .tick] ++ tested ++ repeated ++
        #[.pop, .jump start, .loopExit, .constant i]) L' := by
  obtain ⟨hscopes, hnullPool, hi⟩ := hnull
  refine .of_eq (base + 2 + tested.size + repeated.size + 4) ?_ (by omega)
    (hpool.trans (hbody.pool.trans hnullPool)) fun program hprogram hextends => ?_
  · simp only [Array.size_append]
    simp
    omega
  · have hlast := hprogram.right
    have hrepeated := hprogram.left.right
    simp only [Array.size_append, ← Nat.add_assoc] at hlast hrepeated
    have htest := htested program hprogram.left.left.right
      (hbody.pool.trans (hnullPool.trans hextends))
    have hcode := hbody.code program hrepeated (hnullPool.trans hextends)
    rw [hscopes]
    exact .loop (hprogram.left.left.left 0 _ rfl) (hprogram.left.left.left 1 _ rfl) htest hcode
      (hlast 0 _ rfl) (hlast 1 _ rfl) (hlast 2 _ rfl) (hlast 3 _ rfl) (hextends _ _ hi) hstart hdone

theorem emitted_loop {test : Option Expr} {body : Expr} (ihTest : ∀ e ∈ test, Emitted e)
    (ihBody : Emitted body) : Emitted (.loop test body) := by
  intro base L code L' h
  rw [emit] at h
  obtain ⟨start, L₀, hstart, hloop⟩ := bind_eq_ok.mp h
  obtain ⟨hstartNat, rfl⟩ := target_eq_ok hstart
  cases test with
  | none =>
    obtain ⟨tested, L₁, hpure, h⟩ := bind_eq_ok.mp hloop
    cases hpure
    obtain ⟨repeated, L₂, hrepeated, h⟩ := bind_eq_ok.mp h
    have hbody := ihBody _ _ _ _ hrepeated
    obtain ⟨done, L₃, hdone, hnull⟩ := bind_eq_ok.mp h
    obtain ⟨hdoneNat, rfl⟩ := target_eq_ok hdone
    obtain ⟨i, L₄, hnull, hpure⟩ := bind_eq_ok.mp hnull
    cases hpure
    simp only [Option.isSome_none, Bool.false_eq_true, if_false, Array.append_empty]
    have hloop : Renders base (.loop none body) _ (#[Op.loopEnter start done, .tick] ++ #[] ++
        repeated ++ #[.pop, .jump start, .loopExit, .constant i]) L' :=
      renders_loop (.refl _) (fun _ _ _ => .none) hbody (pooled_eq_ok hnull) hstartNat hdoneNat
    rwa [Array.append_empty] at hloop
  | some e =>
    obtain ⟨tested, L₁, htested, h⟩ := bind_eq_ok.mp hloop
    have htest := ihTest e rfl _ _ _ _ htested
    obtain ⟨repeated, L₂, hrepeated, h⟩ := bind_eq_ok.mp h
    have hbody := ihBody _ _ _ _ hrepeated
    obtain ⟨done, L₃, hdone, hnull⟩ := bind_eq_ok.mp h
    obtain ⟨hdoneNat, rfl⟩ := target_eq_ok hdone
    obtain ⟨i, L₄, hnull, hpure⟩ := bind_eq_ok.mp hnull
    cases hpure
    have hassoc : #[Op.loopEnter start done, .tick] ++ tested ++ #[.jumpIfFalse done] =
        #[Op.loopEnter start done, .tick] ++ (tested ++ #[.jumpIfFalse done]) := Array.append_assoc
    simp only [Option.isSome_some, if_true, hassoc]
    refine renders_loop htest.pool (fun program hprogram hextends => ?_) ?_
      (pooled_eq_ok hnull) hstartNat ?_
    · rw [Array.size_append]
      exact .some (htest.code program hprogram.left hextends) (hprogram.right 0 _ rfl)
    · rw [Array.size_append]
      exact hbody
    · rw [Array.size_append]
      exact hdoneNat

/-- What is emitted for an expression is its code. -/
theorem emitted (e : Expr) : Emitted e := by
  induction e with
  | literal value =>
    intro base L code L' h
    rw [emit] at h
    obtain ⟨i, L₁, hvalue, hpure⟩ := bind_eq_ok.mp h
    obtain ⟨hscopes, hpool, hi⟩ := pooled_eq_ok hvalue
    cases hpure
    refine ⟨Nat.one_pos, hpool, fun program hprogram hextends => ?_⟩
    rw [hscopes]
    exact .literal (hprogram 0 _ rfl) (hextends _ _ hi)
  | ref name =>
    intro base L code L' h
    rw [emit] at h
    obtain ⟨op, L₁, hop, hpure⟩ := bind_eq_ok.mp h
    obtain ⟨hscopes, hpool, hloads⟩ := emitRef_eq_ok hop
    cases hpure
    refine ⟨Nat.one_pos, hpool, fun program hprogram hextends => ?_⟩
    rw [hscopes]
    exact .ref (hloads program hextends) (hprogram 0 _ rfl)
  | binary left op right ihLeft ihRight => exact emitted_binary ihLeft ihRight
  | unary op operand ih =>
    intro base L code L' h
    rw [emit] at h
    obtain ⟨first, L₁, hfirst, hpure⟩ := bind_eq_ok.mp h
    have hoperand := ih _ _ _ _ hfirst
    cases hpure
    exact .push hoperand.pool fun program hprogram hop hextends =>
      .unary (hoperand.code program hprogram hextends) hop
  | call name args ih =>
    intro base L code L' h
    rw [emit] at h
    obtain ⟨first, L₁, hargs, h⟩ := bind_eq_ok.mp h
    obtain ⟨more, rfl, hpool, hcode⟩ := emitAll_eq_ok ih hargs
    obtain ⟨i, L₂, hname, h⟩ := bind_eq_ok.mp h
    obtain ⟨hscopes, hnamePool, hi⟩ := pooled_eq_ok hname
    obtain ⟨argc, L₃, hargc, hpure⟩ := bind_eq_ok.mp h
    obtain ⟨hcount, rfl⟩ := shortCount_eq_ok hargc
    cases hpure
    refine .push (hpool.trans hnamePool) fun program hprogram hop hextends => ?_
    have hall := hcode program (by simpa using hprogram) (hnamePool.trans hextends)
    rw [hscopes]
    exact .call hall (hextends _ _ hi) hcount hop
  | block items ih =>
    cases items with
    | nil => exact emitted_emptyBlock
    | cons e rest =>
      exact emitted_block (ih e List.mem_cons_self) fun e he => ih e (List.mem_cons_of_mem _ he)
  | cond test yes no ihTest ihYes ihNo => exact emitted_cond ihTest ihYes ihNo
  | loop test body ihTest ihBody => exact emitted_loop ihTest ihBody
  | assign target value ih =>
    intro base L code L' h
    rw [emit] at h
    obtain ⟨first, L₁, hfirst, h⟩ := bind_eq_ok.mp h
    have hvalue := ih _ _ _ _ hfirst
    obtain ⟨op, L₂, hop, hpure⟩ := bind_eq_ok.mp h
    obtain ⟨hscopes, hpool, hassigns⟩ := emitAssign_eq_ok hop
    cases hpure
    refine .push (hvalue.pool.trans hpool) fun program hprogram hop hextends => ?_
    rw [hscopes]
    exact .assign (hvalue.code program hprogram (hpool.trans hextends))
      (hassigns program hextends) hop
  | declare name value ih =>
    intro base L code L' h
    rw [emit] at h
    obtain ⟨first, L₁, hfirst, h⟩ := bind_eq_ok.mp h
    have hvalue := ih _ _ _ _ hfirst
    obtain ⟨op, L₂, hop, hpure⟩ := bind_eq_ok.mp h
    obtain ⟨hpool, hdeclares⟩ := emitDeclare_eq_ok hop
    cases hpure
    exact .push (hvalue.pool.trans hpool) fun program hprogram hop hextends =>
      .declare (hvalue.code program hprogram (hpool.trans hextends)) (hdeclares program hextends)
        hop
  | object entries ih =>
    intro base L code L' h
    rw [emit] at h
    obtain ⟨first, L₁, hentries, h⟩ := bind_eq_ok.mp h
    obtain ⟨more, rfl, hpool, hcode⟩ := emitEntries_eq_ok ih hentries
    obtain ⟨n, L₂, hn, hpure⟩ := bind_eq_ok.mp h
    obtain ⟨hcount, rfl⟩ := count_eq_ok hn
    cases hpure
    exact .push hpool fun program hprogram hop hextends =>
      .object (hcode program (by simpa using hprogram) hextends) hcount hop
  | array items ih =>
    intro base L code L' h
    rw [emit] at h
    obtain ⟨first, L₁, hitems, h⟩ := bind_eq_ok.mp h
    obtain ⟨more, rfl, hpool, hcode⟩ := emitAll_eq_ok ih hitems
    obtain ⟨n, L₂, hn, hpure⟩ := bind_eq_ok.mp h
    obtain ⟨hcount, rfl⟩ := count_eq_ok hn
    cases hpure
    exact .push hpool fun program hprogram hop hextends =>
      .array (hcode program (by simpa using hprogram) hextends) hcount hop
  | property target name ih =>
    intro base L code L' h
    rw [emit] at h
    obtain ⟨first, L₁, hfirst, h⟩ := bind_eq_ok.mp h
    have htarget := ih _ _ _ _ hfirst
    obtain ⟨i, L₂, hname, hpure⟩ := bind_eq_ok.mp h
    obtain ⟨hscopes, hpool, hi⟩ := pooled_eq_ok hname
    cases hpure
    refine .push (htarget.pool.trans hpool) fun program hprogram hop hextends => ?_
    rw [hscopes]
    exact .property (htarget.code program hprogram (hpool.trans hextends)) (hextends _ _ hi) hop
  | index target position ihTarget ihPosition =>
    intro base L code L' h
    rw [emit] at h
    obtain ⟨first, L₁, hfirst, h⟩ := bind_eq_ok.mp h
    obtain ⟨second, L₂, hsecond, hpure⟩ := bind_eq_ok.mp h
    have htarget := ihTarget _ _ _ _ hfirst
    have hposition := ihPosition _ _ _ _ hsecond
    cases hpure
    refine .push (htarget.pool.trans hposition.pool) fun program hprogram hop hextends => ?_
    obtain ⟨hcodeTarget, hcodePosition⟩ := htarget.append hposition hprogram hextends
    exact .index hcodeTarget hcodePosition hop
  | jump j =>
    intro base L code L' h
    cases j <;>
      · rw [emit] at h
        cases h
        exact ⟨Nat.one_pos, .refl _, fun program hprogram _ => .jump (hprogram 0 _ rfl)⟩

/-! ### Scripts -/

/-- The location of a statement is noted beside its code. -/
theorem note_eq_ok {f : Array SourceEntry → EmitM Listing} {entries : Array SourceEntry}
    {location : Option Location} {offset : Nat} {r : Listing × Layout}
    (h : (do
      let entries ←
        match location with
        | some location => pure (entries.push ⟨← target offset, location⟩)
        | none => pure entries
      f entries) L = .ok r) : ∃ entries', f entries' L = .ok r := by
  cases location with
  | none => exact ⟨entries, h⟩
  | some location =>
    obtain ⟨t, L₁, ht, hnoted⟩ := bind_eq_ok.mp h
    obtain ⟨-, rfl⟩ := target_eq_ok ht
    exact ⟨_, hnoted⟩

theorem emitStatements_eq_ok {statements : List Statement} {before listing : Listing}
    (hbefore : 0 < before.code.size)
    (h : emitStatements before statements L = .ok (listing, L')) :
    ∃ more, listing.code = before.code ++ more ∧ Extends L.pool L'.pool ∧
      ∀ program : Program, program.HasCode before.code.size more →
        Extends L'.pool program.constants →
        CodeOfRest program L.scopes before.code.size (statements.map Statement.expression)
          listing.code.size L'.scopes := by
  induction statements generalizing before L with
  | nil =>
    cases h
    exact ⟨#[], by simp, .refl _, fun _ _ _ => .nil⟩
  | cons s rest ih =>
    rw [emitStatements] at h
    have hnonempty : before.code.isEmpty = false := by
      simpa [Array.isEmpty_iff_size_eq_zero] using Nat.ne_of_gt hbefore
    simp only [hnonempty, Bool.false_eq_true, if_false] at h
    obtain ⟨entries, h⟩ := note_eq_ok h
    obtain ⟨first, L₁, hfirst, hrest⟩ := bind_eq_ok.mp h
    have hrender := emitted s.expression _ _ _ _ hfirst
    have hsize : (before.code.push .pop ++ first).size = before.code.size + 1 + first.size := by
      simp only [Array.size_append, Array.size_push]
    obtain ⟨more, hmore, hpool, hcode⟩ := ih (by rw [hsize]; omega) hrest
    refine ⟨#[Op.pop] ++ (first ++ more), hmore.trans (push_append_append _ _ _ _),
      hrender.pool.trans hpool, fun program hprogram hextends => ?_⟩
    rw [Array.size_push] at hrender
    have hhead := hrender.code program hprogram.right.left (hpool.trans hextends)
    have htail := hcode program (by rw [hsize]; exact hprogram.right.right) hextends
    rw [hsize] at htail
    exact .cons hprogram.head hhead htail

/-- What is emitted for a script is the code of its statements. -/
theorem emitScript_eq_ok {script : Script} {listing : Listing} {program : Program}
    (h : emitScript script ⟨.empty, #[]⟩ = .ok (listing, L'))
    (hcode : program.code = listing.code) (hconstants : program.constants = L'.pool) :
    CodeOfStatements program (script.statements.map Statement.expression) program.code.size := by
  have hprogram : program.HasCode 0 listing.code := by
    intro i op hop
    rw [Program.At, hcode, Nat.zero_add, hop]
  have hextends : Extends L'.pool program.constants := by
    rw [hconstants]
    exact .refl _
  rw [hcode]
  unfold emitScript at h
  cases hstatements : script.statements with
  | nil =>
    simp only [hstatements, List.isEmpty_nil, if_true] at h
    obtain ⟨i, L₁, hnull, hpure⟩ := bind_eq_ok.mp h
    obtain ⟨-, -, hi⟩ := pooled_eq_ok hnull
    cases hpure
    exact .none (hprogram 0 _ rfl) (hextends _ _ hi)
  | cons s rest =>
    simp only [hstatements, List.isEmpty_cons, Bool.false_eq_true, if_false] at h
    rw [emitStatements] at h
    obtain ⟨entries, h⟩ := note_eq_ok h
    obtain ⟨first, L₁, hfirst, hrest⟩ := bind_eq_ok.mp h
    have hrender : Renders 0 s.expression ⟨.empty, #[]⟩ first L₁ := emitted _ _ _ _ _ hfirst
    have hempty : (if (#[] : Array Op).isEmpty = true then (#[] : Array Op)
      else (#[] : Array Op).push .pop) = #[] := rfl
    rw [hempty, Array.empty_append] at hrest
    obtain ⟨more, hmore, hpool, hcode⟩ := emitStatements_eq_ok hrender.nonempty hrest
    rw [hmore] at hprogram ⊢
    have hhead := hrender.code program hprogram.left (hpool.trans hextends)
    have htail := hcode program (by simpa using hprogram.right) hextends
    rw [Nat.zero_add] at hhead
    rw [hmore] at htail
    exact .some hhead htail

end Emit

end Covenant
