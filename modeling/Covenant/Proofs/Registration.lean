import Covenant.Proofs.CallText
import Covenant.Proofs.Validation

/-!
# Registries of capabilities stay consistent

The owner of a registry changes it by calls that may fail. A call is checked before it writes, so
one that fails leaves the registry as it was; and what a call writes is a capability with a proper
name, under that name. So after any calls the registry is consistent: its keys are the qualified
names of what stands under them, in order, and every key is a name that a script can call.

## Main definitions

* `Registration` : the calls that change a registry.
* `Registration.perform` : what a call does to the registry in place.
* `Registry.Consistent` : keys and capabilities of a registry belong together.

## Main results

* `Registration.perform_eq` : a call succeeds as a whole, or fails and changes nothing.
* `Registry.Reachable.consistent` : registries that calls have made are consistent.
* `registrations_consistent` : after any calls the registry is consistent.
-/

namespace Covenant

variable {ι : Type}

/-! ### Calls on a registry -/

/-- The calls that change a registry. -/
inductive Registration (ι : Type) where
  | register (c : Capability ι)
  | replace (c : Capability ι)
  | remove (name : String)

namespace Registration

/-- The registry that a call makes of another. -/
def apply : Registration ι → Registry ι → Except Error (Registry ι)
  | register c, r => r.register c
  | replace c, r => r.replace c
  | remove name, r => .ok (r.remove name)

/-- What a call does to a registry in place, one step after the other. -/
def perform : Registration ι → EStateM Error (Registry ι) Unit
  | register c => do
    ofResult (Registry.checkName c)
    if (← get).contains c.qualifiedName then throw (.conflict .capability c.qualifiedName)
    modify fun r => ⟨Table.insert c.qualifiedName c r.entries⟩
  | replace c => do
    ofResult (Registry.checkName c)
    modify fun r => ⟨Table.insert c.qualifiedName c r.entries⟩
  | remove name => modify fun r => r.remove name

/-- A call succeeds as a whole, or fails and changes nothing. -/
theorem perform_eq (call : Registration ι) : call.perform = settle call.apply := by
  funext r
  cases call with
  | register c =>
    simp only [perform, settle, apply, Registry.register, ofResult_bind]
    cases Registry.checkName c with
    | error e => rfl
    | ok _ =>
      rw [get_bind]
      by_cases h : r.contains c.qualifiedName = true
      · simp only [h, if_true]
        rfl
      · simp only [h]
        rfl
  | replace c =>
    simp only [perform, settle, apply, Registry.replace, ofResult_bind]
    cases Registry.checkName c <;> rfl
  | remove name => rfl

/-- The registry after calls one after the other, whether they succeed or fail. -/
def run (calls : List (Registration ι)) (r : Registry ι) : Registry ι :=
  calls.foldl (fun r call => reached (call.perform r)) r

theorem reachable_perform {r : Registry ι} (h : r.Reachable) (call : Registration ι) :
    (reached (call.perform r)).Reachable := by
  rw [perform_eq, settle]
  cases hr : call.apply r with
  | error e => exact h
  | ok r' =>
    cases call with
    | register c => exact h.register hr
    | replace c => exact h.replace hr
    | remove name =>
      cases hr
      exact h.remove name

theorem reachable_run (calls : List (Registration ι)) {r : Registry ι} (h : r.Reachable) :
    (run calls r).Reachable := by
  induction calls generalizing r with
  | nil => exact h
  | cons call calls ih => exact ih (reachable_perform h call)

end Registration

/-! ### Consistent registries -/

namespace Registry

theorem checkName_eq_ok_iff {c : Capability ι} :
    checkName c = .ok () ↔ isIdentifier c.subsystem = true ∧ isIdentifier c.function = true := by
  unfold checkName
  cases hsubsystem : isIdentifier c.subsystem <;> cases hfunction : isIdentifier c.function <;>
    simp [bind, Except.bind, pure, Except.pure, throw, throwThe, MonadExceptOf.throw]

/-- A capability with a proper name is registered if its name is not taken. -/
theorem exists_of_register {r : Registry ι} {c : Capability ι} (hc : checkName c = .ok ())
    (hfree : r.get? c.qualifiedName = none) :
    ∃ r', r.register c = .ok r' ∧ r'.get? c.qualifiedName = some c := by
  have hcontains : r.contains c.qualifiedName = false := Table.contains_eq_false_iff.mpr hfree
  refine ⟨⟨Table.insert c.qualifiedName c r.entries⟩, bind_eq_ok_iff.mpr ⟨(), hc, ?_⟩, ?_⟩
  · rw [hcontains]
    rfl
  · exact (Table.find?_insert r.entries c.qualifiedName c.qualifiedName c).trans (if_pos rfl)

/-- The keys of a registry are the qualified names of the capabilities under them, whose parts are
identifiers and no keywords. They are listed in ascending order, none is the name of a built-in
function, and a script calls each by its name. -/
structure Consistent (r : Registry ι) : Prop where
  key {key : String} {c : Capability ι} : r.get? key = some c → key = c.qualifiedName
  parts {key : String} {c : Capability ι} : r.get? key = some c →
    (isIdentifier c.subsystem = true ∧ Keyword.ofText? c.subsystem = none) ∧
      isIdentifier c.function = true ∧ Keyword.ofText? c.function = none
  listed (key : String) : key ∈ r.names ↔ ∃ c, r.get? key = some c
  ascending : r.names.Pairwise (· < ·)
  foreign {key : String} : key ∈ r.names → Builtin.isName key = false
  callable {key : String} : key ∈ r.names → ∀ name, ∃ script location,
    parse name (key ++ "()") = .ok script ∧ script.statements = [⟨.call key [], location⟩]

namespace Reachable

variable {r : Registry ι}

theorem checked (h : r.Reachable) : ∀ entry ∈ r.entries, checkName entry.2 = .ok () := by
  refine h.entries_induction (P := fun table => ∀ entry ∈ table, checkName entry.2 = .ok ())
    (List.forall_mem_nil _) (fun table c hc htable entry hentry => ?_)
    fun table name htable entry hentry => htable entry (Table.mem_of_mem_erase hentry)
  rcases Table.mem_of_mem_insert hentry with rfl | hentry
  · exact hc
  · exact htable entry hentry

theorem ascending (h : r.Reachable) : r.entries.Ascending :=
  h.entries_induction (P := Table.Ascending) List.Pairwise.nil
    (fun _ c _ htable => htable.insert c.qualifiedName c) fun _ name htable => htable.erase name

/-- Registries that calls have made are consistent. -/
theorem consistent (h : r.Reachable) : r.Consistent := by
  have hkey {key : String} {c : Capability ι} (hc : r.get? key = some c) :
      key = c.qualifiedName := h.qualifiedName_eq _ (Table.mem_of_find? hc)
  have hparts {key : String} {c : Capability ι} (hc : r.get? key = some c) :
      isIdentifier c.subsystem = true ∧ isIdentifier c.function = true :=
    checkName_eq_ok_iff.mp (h.checked _ (Table.mem_of_find? hc))
  have hkeyword {part : String} (hpart : isIdentifier part = true) : Keyword.ofText? part = none :=
    (isIdentifier_iff.mp hpart).choose_spec.choose_spec.2.2.2
  have hlisted (key : String) : key ∈ r.names ↔ ∃ c, r.get? key = some c := Table.mem_keys_iff
  refine ⟨hkey, fun hc => ?_, hlisted, List.pairwise_map.mpr h.ascending, fun {key} hmem => ?_,
    fun {key} hmem name => ?_⟩
  · obtain ⟨hsubsystem, hfunction⟩ := hparts hc
    exact ⟨⟨hsubsystem, hkeyword hsubsystem⟩, hfunction, hkeyword hfunction⟩
  · obtain ⟨c, hc⟩ := (hlisted key).mp hmem
    rw [hkey hc]
    exact c.not_isName_qualifiedName
  · obtain ⟨c, hc⟩ := (hlisted key).mp hmem
    rw [hkey hc]
    exact parse_qualifiedName (hparts hc).1 (hparts hc).2 name

end Reachable

end Registry

/-- After any calls on the empty registry, whether they have succeeded or failed, the registry is
consistent, a further call that fails leaves it as it is, and a capability with a proper name that
is not taken is registered. A proper name belongs to one subsystem and one function. -/
theorem registrations_consistent (calls : List (Registration ι)) :
    (Registration.run calls .empty).Consistent ∧
    (∀ (call : Registration ι) (e : Error) (r : Registry ι),
      call.perform (Registration.run calls .empty) = .error e r →
      r = Registration.run calls .empty) ∧
    (∀ c : Capability ι, Registry.checkName c = .ok () →
      (Registration.run calls .empty).get? c.qualifiedName = none →
      ∃ r, (Registration.register c).perform (Registration.run calls .empty) = .ok () r ∧
        r.get? c.qualifiedName = some c) ∧
    ∀ c c' : Capability ι, Registry.checkName c = .ok () → c.qualifiedName = c'.qualifiedName →
      c.subsystem = c'.subsystem ∧ c.function = c'.function := by
  refine ⟨(Registration.reachable_run calls .empty).consistent, fun call e r h => ?_,
    fun c hc hfree => ?_, fun c c' hc h => ?_⟩
  · rw [Registration.perform_eq] at h
    exact eq_of_settle_eq_error h
  · obtain ⟨r, hregister, hfound⟩ := Registry.exists_of_register hc hfree
    rw [Registration.perform_eq]
    exact ⟨r, settle_eq_ok_iff.mpr hregister, hfound⟩
  · obtain ⟨hsubsystem, hfunction⟩ := Registry.checkName_eq_ok_iff.mp hc
    exact Capability.parts_eq_of_qualifiedName_eq hsubsystem hfunction h

end Covenant
