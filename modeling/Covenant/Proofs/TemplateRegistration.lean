import Covenant.Proofs.Computation
import Covenant.Proofs.Values
import Covenant.Template.Registry
import Mathlib.Data.List.Forall2

/-!
# Registries of templates change as a whole or not at all

The owner of a registry of templates changes it by calls that may fail. A call checks everything it
is given before it writes anything, also the one that takes many templates from a text. So a call
that fails leaves the registry as it was, and what stands in a registry has passed the checks and
stands under its own name.

Templates that are loaded have names that differ from each other and from those in the registry.
That is the invariant of the writes: when one of them has been put into the registry, the others
still have new names.

## Main definitions

* `TemplateCall` : the calls that change a registry of templates.
* `TemplateCall.perform` : what a call does to the registry in place.
* `TemplateRegistry.Admits` : templates that a registry takes all at once.
* `TemplateRegistry.Adds` : a registry with more templates and no other change.
* `TemplateRegistry.Consistent` : templates are well formed and stand under their names.
* `TemplateRegistry.Transactional` : calls change a registry as a whole or not at all.

## Main results

* `TemplateCall.perform_eq` : a call succeeds as a whole, or fails and changes nothing.
* `TemplateRegistry.load_eq_ok_iff` : which texts are loaded, and what that makes of the registry.
* `templateCalls_consistent` : after any calls the registry is consistent, and a further call
  changes it as a whole or not at all.
-/

namespace Covenant

namespace TemplateRegistry

variable {r r' : TemplateRegistry} {t : Template} {incoming : List Template} {name : String}

theorem get?_put (r : TemplateRegistry) (t : Template) (name : String) :
    (r.put t).get? name = if t.name = name then some t else r.get? name :=
  Table.find?_insert r.entries t.name name t

/-- A name is free if nothing stands under it. -/
theorem contains_eq_false_iff : r.contains name = false ↔ r.get? name = none :=
  Table.contains_eq_false_iff

/-! ### Templates that enter at once -/

/-- Well-formed templates with different names, none of which is taken. -/
structure Admits (r : TemplateRegistry) (incoming : List Template) : Prop where
  valid : ∀ t ∈ incoming, t.validate = .ok ()
  distinct : (incoming.map Template.name).Nodup
  fresh : ∀ t ∈ incoming, r.get? t.name = none

/-- The second registry has the templates besides what the first one has, and nothing else. -/
structure Adds (incoming : List Template) (r r' : TemplateRegistry) : Prop where
  added : ∀ t ∈ incoming, r'.get? t.name = some t
  kept : ∀ name, (∀ t ∈ incoming, t.name ≠ name) → r'.get? name = r.get? name
  size : r'.entries.length = r.entries.length + incoming.length

/-- When the first template has entered, the others still have new names. -/
theorem Admits.tail (h : r.Admits (t :: incoming)) : (r.put t).Admits incoming := by
  obtain ⟨hhead, hdistinct⟩ := List.nodup_cons.mp h.distinct
  refine ⟨fun u hu => h.valid u (List.mem_cons_of_mem t hu), hdistinct, fun u hu => ?_⟩
  have hne : t.name ≠ u.name := fun heq => hhead (heq ▸ List.mem_map_of_mem hu)
  rw [get?_put, if_neg hne]
  exact h.fresh u (List.mem_cons_of_mem t hu)

/-- Templates that a registry admits are put into it one by one. -/
theorem Admits.adds (h : r.Admits incoming) : Adds incoming r (incoming.foldl put r) := by
  induction incoming generalizing r with
  | nil => exact ⟨List.forall_mem_nil _, fun _ _ => rfl, rfl⟩
  | cons t incoming ih =>
    have hrest := ih h.tail
    have hhead : ∀ u ∈ incoming, u.name ≠ t.name := fun u hu heq =>
      (List.nodup_cons.mp h.distinct).1 (heq ▸ List.mem_map_of_mem hu)
    refine ⟨List.forall_mem_cons.mpr ⟨?_, hrest.added⟩, fun name hname => ?_, ?_⟩
    · rw [List.foldl_cons, hrest.kept t.name hhead, get?_put, if_pos rfl]
    · obtain ⟨ht, hnames⟩ := List.forall_mem_cons.mp hname
      rw [List.foldl_cons, hrest.kept name hnames, get?_put, if_neg ht]
    · have hput : (r.put t).entries.length = r.entries.length + 1 :=
        Table.length_insert (h.fresh t List.mem_cons_self) t
      rw [List.foldl_cons, hrest.size, hput, List.length_cons]
      omega

/-- What was in the registry is still there. -/
theorem Adds.get?_of_get? (h : Adds incoming r r') (hadmits : r.Admits incoming) {stored : Template}
    (hstored : r.get? name = some stored) : r'.get? name = some stored := by
  rw [h.kept name, hstored]
  rintro t ht rfl
  rw [hadmits.fresh t ht] at hstored
  cases hstored

theorem checkIncoming_eq_ok_iff {seen : List String} :
    checkIncoming seen incoming = .ok () ↔ (∀ t ∈ incoming, t.validate = .ok ()) ∧
      (incoming.map Template.name).Nodup ∧ ∀ t ∈ incoming, t.name ∉ seen := by
  induction incoming generalizing seen with
  | nil => simp [checkIncoming]
  | cons t incoming ih =>
    rw [checkIncoming, List.forall_mem_cons, List.map_cons, List.nodup_cons, List.forall_mem_cons]
    refine bind_eq_ok_iff.trans ⟨?_, ?_⟩
    · rintro ⟨_, hvalid, h⟩
      split_ifs at h with hseen
      · cases h
      · obtain ⟨hrest, hdistinct, hfresh⟩ := ih.mp h
        simp only [List.mem_cons, not_or] at hfresh
        refine ⟨⟨hvalid, hrest⟩, ⟨?_, hdistinct⟩, by simpa using hseen,
          fun u hu => (hfresh u hu).2⟩
        rintro hmem
        obtain ⟨u, hu, hname⟩ := List.mem_map.mp hmem
        exact (hfresh u hu).1 hname
    · rintro ⟨⟨hvalid, hrest⟩, ⟨hhead, hdistinct⟩, hseen, hfresh⟩
      refine ⟨(), hvalid, ?_⟩
      rw [if_neg (by simpa using hseen)]
      refine ih.mpr ⟨hrest, hdistinct, fun u hu => ?_⟩
      rw [List.mem_cons, not_or]
      exact ⟨fun hname => hhead (hname ▸ List.mem_map_of_mem hu), hfresh u hu⟩

theorem find?_taken_eq_none_iff :
    (incoming.find? fun t => r.contains t.name) = none ↔ ∀ t ∈ incoming, r.get? t.name = none := by
  simp only [List.find?_eq_none, Bool.not_eq_true, contains_eq_false_iff]

/-- A template enters if it is well formed and its name is new. -/
theorem register_eq_ok_iff : r.register t = .ok r' ↔ r.Admits [t] ∧ r' = r.put t := by
  have hadmits : r.Admits [t] ↔ t.validate = .ok () ∧ r.contains t.name = false := by
    rw [contains_eq_false_iff]
    refine ⟨fun h => ⟨h.valid t List.mem_cons_self, h.fresh t List.mem_cons_self⟩, ?_⟩
    rintro ⟨hvalid, hfresh⟩
    exact ⟨List.forall_mem_singleton.mpr hvalid, List.pairwise_singleton _ _,
      List.forall_mem_singleton.mpr hfresh⟩
  rw [hadmits]
  refine bind_eq_ok_iff.trans ⟨?_, ?_⟩
  · rintro ⟨_, hvalid, h⟩
    split at h
    · cases h
    · rename_i hfresh
      cases h
      exact ⟨⟨hvalid, Bool.not_eq_true _ ▸ hfresh⟩, rfl⟩
  · rintro ⟨⟨hvalid, hfresh⟩, rfl⟩
    exact ⟨(), hvalid, by rw [hfresh]; rfl⟩

/-- Templates enter at once if the registry admits them. -/
theorem registerAll_eq_ok_iff :
    r.registerAll incoming = .ok r' ↔ r.Admits incoming ∧ r' = incoming.foldl put r := by
  refine bind_eq_ok_iff.trans ⟨?_, ?_⟩
  · rintro ⟨_, hcheck, h⟩
    obtain ⟨hvalid, hdistinct, -⟩ := checkIncoming_eq_ok_iff.mp hcheck
    split at h
    · cases h
    · rename_i hfree
      cases h
      exact ⟨⟨hvalid, hdistinct, find?_taken_eq_none_iff.mp hfree⟩, rfl⟩
  · rintro ⟨hadmits, rfl⟩
    refine ⟨(), checkIncoming_eq_ok_iff.mpr
      ⟨hadmits.valid, hadmits.distinct, fun _ _ => List.not_mem_nil⟩, ?_⟩
    rw [find?_taken_eq_none_iff.mpr hadmits.fresh]
    rfl

/-! ### Texts of templates -/

/-- The text writes an array of documents, one for each of the templates. -/
def Writes (text : String) (incoming : List Template) : Prop :=
  ∃ documents, Json.parse? text = some (.array documents) ∧
    List.Forall₂ (fun document t => Template.ofJson? document = some t) documents incoming

theorem mapM_eq_some_iff {α β : Type} {f : α → Option β} {l : List α} {l' : List β} :
    l.mapM f = some l' ↔ List.Forall₂ (fun a b => f a = some b) l l' := by
  induction l generalizing l' with
  | nil => simp [List.forall₂_nil_left_iff, eq_comm]
  | cons a l ih =>
    simp only [List.mapM_cons, bind, Option.bind_eq_some_iff, List.forall₂_cons_left_iff, ih]
    refine ⟨?_, ?_⟩
    · rintro ⟨b, hb, rest, hrest, ⟨⟩⟩
      exact ⟨b, rest, hb, hrest, rfl⟩
    · rintro ⟨b, rest, hb, hrest, rfl⟩
      exact ⟨b, hb, rest, hrest, rfl⟩

theorem writes_iff {text : String} :
    (Json.parse? text).bind (Json.list? Template.ofJson?) = some incoming ↔
      Writes text incoming := by
  rw [Option.bind_eq_some_iff]
  refine ⟨?_, ?_⟩
  · rintro ⟨document, hparse, hlist⟩
    unfold Json.list? at hlist
    split at hlist
    · exact ⟨_, hparse, mapM_eq_some_iff.mp hlist⟩
    · cases hlist
  · rintro ⟨documents, hparse, hdocuments⟩
    exact ⟨_, hparse, mapM_eq_some_iff.mpr hdocuments⟩

/-- A text is loaded if it writes templates that the registry admits, and they are what enters. -/
theorem load_eq_ok_iff {text : String} {n : Nat} :
    r.load text = .ok (r', n) ↔ ∃ incoming, Writes text incoming ∧ r.Admits incoming ∧
      r' = incoming.foldl put r ∧ n = incoming.length := by
  rw [load]
  cases htext : (Json.parse? text).bind (Json.list? Template.ofJson?) with
  | none =>
    refine ⟨fun h => (nomatch h), ?_⟩
    rintro ⟨incoming, hwrites, -⟩
    rw [writes_iff.mpr hwrites] at htext
    cases htext
  | some incoming =>
    refine bind_eq_ok_iff.trans ⟨?_, ?_⟩
    · rintro ⟨_, hall, ⟨⟩⟩
      obtain ⟨hadmits, hr'⟩ := registerAll_eq_ok_iff.mp hall
      exact ⟨incoming, writes_iff.mp htext, hadmits, hr', rfl⟩
    · rintro ⟨incoming', hwrites, hadmits, rfl, rfl⟩
      obtain rfl : incoming' = incoming :=
        Option.some.inj ((writes_iff.mpr hwrites).symm.trans htext)
      exact ⟨_, registerAll_eq_ok_iff.mpr ⟨hadmits, rfl⟩, rfl⟩

/-! ### Consistent registries -/

/-- The names of a registry are listed in ascending order. What is found under one of them is a
well-formed template with that name. -/
structure Consistent (r : TemplateRegistry) : Prop where
  ascending : r.names.Pairwise (· < ·)
  named {name : String} {t : Template} : r.get? name = some t → t.name = name
  valid {name : String} {t : Template} : r.get? name = some t → t.validate = .ok ()

namespace Consistent

theorem empty : TemplateRegistry.empty.Consistent :=
  ⟨List.Pairwise.nil, fun h => (nomatch h), fun h => (nomatch h)⟩

theorem entries_ascending (h : r.Consistent) : r.entries.Ascending :=
  List.pairwise_map.mp h.ascending

theorem put (h : r.Consistent) (ht : t.validate = .ok ()) : (r.put t).Consistent := by
  refine ⟨List.pairwise_map.mpr (h.entries_ascending.insert t.name t), fun {name u} hu => ?_,
    fun {name u} hu => ?_⟩ <;> rw [get?_put] at hu <;> split_ifs at hu with hname
  · cases hu
    exact hname
  · exact h.named hu
  · cases hu
    exact ht
  · exact h.valid hu

theorem remove (h : r.Consistent) (name : String) : (r.remove name).Consistent := by
  have hget {other : String} {u : Template} (hu : (r.remove name).get? other = some u) :
      r.get? other = some u := by
    rw [TemplateRegistry.remove, get?, Table.find?_erase h.entries_ascending] at hu
    split_ifs at hu
    exact hu
  exact ⟨List.pairwise_map.mpr (h.entries_ascending.erase name), fun hu => h.named (hget hu),
    fun hu => h.valid (hget hu)⟩

theorem foldl_put (h : r.Consistent) (hvalid : ∀ t ∈ incoming, t.validate = .ok ()) :
    (incoming.foldl TemplateRegistry.put r).Consistent := by
  induction incoming generalizing r with
  | nil => exact h
  | cons t incoming ih =>
    obtain ⟨ht, hrest⟩ := List.forall_mem_cons.mp hvalid
    exact ih (h.put ht) hrest

end Consistent

end TemplateRegistry

/-! ### Calls on a registry -/

/-- The calls that change a registry of templates. -/
inductive TemplateCall where
  | register (t : Template)
  | registerOrReplace (t : Template)
  | remove (name : String)
  | load (text : String)

namespace TemplateCall

/-- The registry that a call makes of another. -/
def apply : TemplateCall → TemplateRegistry → Except Error TemplateRegistry
  | register t, r => r.register t
  | registerOrReplace t, r => (r.registerOrReplace t).map Prod.fst
  | remove name, r => .ok (r.remove name)
  | load text, r => (r.load text).map Prod.fst

/-- What a call does to a registry in place, one step after the other. -/
def perform : TemplateCall → EStateM Error TemplateRegistry Unit
  | register t => do
    ofResult t.validate
    if (← get).contains t.name then throw (.conflict .template t.name)
    modify fun r => r.put t
  | registerOrReplace t => do
    ofResult t.validate
    modify fun r => r.put t
  | remove name => modify fun r => r.remove name
  | load text => do
    match (Json.parse? text).bind (Json.list? Template.ofJson?) with
    | none => throw .serialization
    | some incoming =>
      ofResult (TemplateRegistry.checkIncoming [] incoming)
      let r ← get
      match incoming.find? fun t => r.contains t.name with
      | some t => throw (.conflict .template t.name)
      | none => incoming.forM fun t => modify fun r => r.put t

/-- Writes one after the other put all templates into the registry. -/
theorem forM_put (incoming : List Template) (r : TemplateRegistry) :
    (incoming.forM fun t => modify fun r => r.put t : EStateM Error TemplateRegistry Unit) r =
      .ok () (incoming.foldl TemplateRegistry.put r) := by
  induction incoming generalizing r with
  | nil => rfl
  | cons t incoming ih => exact ih (r.put t)

/-- A call succeeds as a whole, or fails and changes nothing. -/
theorem perform_eq (call : TemplateCall) : call.perform = settle call.apply := by
  funext r
  cases call with
  | register t =>
    simp only [perform, settle, apply, TemplateRegistry.register, ofResult_bind]
    cases t.validate with
    | error e => rfl
    | ok _ =>
      rw [get_bind]
      by_cases h : r.contains t.name = true
      · simp only [h, if_true]
        rfl
      · simp only [h]
        rfl
  | registerOrReplace t =>
    simp only [perform, settle, apply, TemplateRegistry.registerOrReplace, ofResult_bind]
    cases t.validate <;> rfl
  | remove name => rfl
  | load text =>
    simp only [perform, settle, apply, TemplateRegistry.load, TemplateRegistry.registerAll]
    cases (Json.parse? text).bind (Json.list? Template.ofJson?) with
    | none => rfl
    | some incoming =>
      simp only [ofResult_bind]
      cases TemplateRegistry.checkIncoming [] incoming with
      | error e => rfl
      | ok _ =>
        rw [get_bind]
        cases incoming.find? fun t => r.contains t.name with
        | some t => rfl
        | none => exact forM_put incoming r

/-- The registry after calls one after the other, whether they succeed or fail. -/
def run (calls : List TemplateCall) (r : TemplateRegistry) : TemplateRegistry :=
  calls.foldl (fun r call => reached (call.perform r)) r

variable {r r' : TemplateRegistry} {call : TemplateCall}

theorem apply_load_eq_ok_iff {text : String} :
    (load text).apply r = .ok r' ↔ ∃ incoming, TemplateRegistry.Writes text incoming ∧
      r.Admits incoming ∧ r' = incoming.foldl TemplateRegistry.put r := by
  refine map_eq_ok_iff.trans ⟨?_, ?_⟩
  · rintro ⟨⟨r₁, n⟩, hload, rfl⟩
    obtain ⟨incoming, hwrites, hadmits, hr₁, -⟩ := TemplateRegistry.load_eq_ok_iff.mp hload
    exact ⟨incoming, hwrites, hadmits, hr₁⟩
  · rintro ⟨incoming, hwrites, hadmits, hr'⟩
    exact ⟨(r', incoming.length),
      TemplateRegistry.load_eq_ok_iff.mpr ⟨incoming, hwrites, hadmits, hr', rfl⟩, rfl⟩

/-- Well-formed templates are all that a call writes. -/
theorem consistent_apply (h : r.Consistent) (hcall : call.apply r = .ok r') : r'.Consistent := by
  cases call with
  | register t =>
    obtain ⟨hadmits, rfl⟩ := TemplateRegistry.register_eq_ok_iff.mp hcall
    exact h.put (hadmits.valid t List.mem_cons_self)
  | registerOrReplace t =>
    obtain ⟨_, hreplaced, rfl⟩ := map_eq_ok_iff.mp hcall
    obtain ⟨_, hvalid, ⟨⟩⟩ := bind_eq_ok_iff.mp hreplaced
    exact h.put hvalid
  | remove name =>
    cases hcall
    exact h.remove name
  | load text =>
    obtain ⟨incoming, -, hadmits, rfl⟩ := apply_load_eq_ok_iff.mp hcall
    exact h.foldl_put hadmits.valid

theorem consistent_perform (h : r.Consistent) (call : TemplateCall) :
    (reached (call.perform r)).Consistent := by
  rw [perform_eq, settle]
  cases hcall : call.apply r with
  | error e => exact h
  | ok r' => exact consistent_apply h hcall

theorem consistent_run (calls : List TemplateCall) (h : r.Consistent) :
    (run calls r).Consistent := by
  induction calls generalizing r with
  | nil => exact h
  | cons call calls ih => exact ih (consistent_perform h call)

/-! ### Calls that only add templates -/

/-- The call never takes the place of a template. -/
def Adding : TemplateCall → Prop
  | register _ | load _ => True
  | registerOrReplace _ | remove _ => False

theorem exists_admits (hadding : call.Adding) (hcall : call.apply r = .ok r') :
    ∃ incoming, r.Admits incoming ∧ r' = incoming.foldl TemplateRegistry.put r := by
  cases call with
  | register t => exact ⟨[t], TemplateRegistry.register_eq_ok_iff.mp hcall⟩
  | registerOrReplace t => exact hadding.elim
  | remove name => exact hadding.elim
  | load text =>
    obtain ⟨incoming, -, hr'⟩ := apply_load_eq_ok_iff.mp hcall
    exact ⟨incoming, hr'⟩

/-- What is in the registry stays there. -/
theorem get?_perform (hadding : call.Adding) {name : String} {stored : Template}
    (hstored : r.get? name = some stored) :
    (reached (call.perform r)).get? name = some stored := by
  rw [perform_eq, settle]
  cases hcall : call.apply r with
  | error e => exact hstored
  | ok r' =>
    obtain ⟨incoming, hadmits, rfl⟩ := exists_admits hadding hcall
    exact hadmits.adds.get?_of_get? hadmits hstored

end TemplateCall

/-- A call on the registry changes it as a whole or not at all. A text is loaded if and only if it
writes templates that the registry admits, and then they are all that is added. -/
structure TemplateRegistry.Transactional (r : TemplateRegistry) : Prop where
  failed {call : TemplateCall} {e : Error} {r' : TemplateRegistry} :
    call.perform r = .error e r' → r' = r
  kept {call : TemplateCall} {name : String} {stored : Template} : call.Adding →
    r.get? name = some stored → (reached (call.perform r)).get? name = some stored
  registered {t : Template} {r' : TemplateRegistry} :
    (TemplateCall.register t).perform r = .ok () r' ↔ r.Admits [t] ∧ r' = r.put t
  loaded {text : String} {r' : TemplateRegistry} :
    (TemplateCall.load text).perform r = .ok () r' →
      ∃ incoming, Writes text incoming ∧ r.Admits incoming ∧ Adds incoming r r'
  loads {text : String} {incoming : List Template} : Writes text incoming → r.Admits incoming →
    ∃ r', (TemplateCall.load text).perform r = .ok () r'

theorem TemplateRegistry.transactional (r : TemplateRegistry) : r.Transactional := by
  refine ⟨fun {call e r'} h => ?_, fun hadding => TemplateCall.get?_perform hadding,
    fun {t r'} => ?_, fun {text r'} h => ?_, fun {text incoming} hwrites hadmits => ?_⟩
  · rw [TemplateCall.perform_eq] at h
    exact eq_of_settle_eq_error h
  · rw [TemplateCall.perform_eq, settle_eq_ok_iff]
    exact register_eq_ok_iff
  · rw [TemplateCall.perform_eq, settle_eq_ok_iff] at h
    obtain ⟨incoming, hwrites, hadmits, rfl⟩ := TemplateCall.apply_load_eq_ok_iff.mp h
    exact ⟨incoming, hwrites, hadmits, hadmits.adds⟩
  · rw [TemplateCall.perform_eq]
    exact ⟨_, settle_eq_ok_iff.mpr
      (TemplateCall.apply_load_eq_ok_iff.mpr ⟨incoming, hwrites, hadmits, rfl⟩)⟩

/-- After any calls on the empty registry, whether they have succeeded or failed, every template
stands under its own name and is well formed, and a further call changes the registry as a whole or
not at all. -/
theorem templateCalls_consistent (calls : List TemplateCall) :
    (TemplateCall.run calls .empty).Consistent ∧
      (TemplateCall.run calls .empty).Transactional :=
  ⟨TemplateCall.consistent_run calls .empty, TemplateRegistry.transactional _⟩

end Covenant
