import Covenant.Proofs.Counter
import Covenant.Proofs.Execution
import Mathlib.Data.List.Forall2

/-!
# The audit trail

No implementation is reached without its permission, and the trail of a run tells exactly which
implementations were invoked. Invocations are observed by a host that also notes each of them
(`Host.recording`); apart from the notes it does what the host itself does, so a run with notes is
the run itself.

As long as a run goes on, every record of its trail is of a call that returned. The calls that do
not return end the run, and are the last of its trail.

## Main definitions

* `Host.recording` : a host that notes every invocation.
* `Returned` : a record of a permitted call that returned, and the invocation it stands for.
* `Audit` : what the trail of a run says about its invocations and its end.

## Main results

* `Run.call_audited` : a call keeps the trail in order, or ends the run as the trail tells.
* `calls_audited` : the trail of every run of a script or a program is exact.
-/

namespace Covenant

variable {ι σ α : Type}

/-! ### Hosts that note invocations -/

/-- An implementation and the arguments it was invoked with. -/
structure Invocation (ι : Type) where
  implementation : ι
  args : List Value

/-- The host that also notes every invocation, in order. -/
def Host.recording (host : Host ι σ) : Host ι (σ × List (Invocation ι)) where
  registry := host.registry
  perform implementation args state :=
    ((host.perform implementation args state.1).1,
      (host.perform implementation args state.1).2, state.2 ++ [⟨implementation, args⟩])

/-- The setting with a host that also notes every invocation. -/
def Setting.recording (setting : Setting ι σ) : Setting ι (σ × List (Invocation ι)) where
  limits := setting.limits
  host := setting.host.recording
  granted := setting.granted
  clock := setting.clock

/-- The ledger without the notes. -/
def Ledger.forget (l : Ledger (σ × List (Invocation ι))) : Ledger σ :=
  ⟨l.steps, l.cancelled, l.output, l.calls, l.host.1⟩

/-! ### What the trail says -/

/-- Whether the implementation was invoked. -/
def CallRecord.performed (r : CallRecord) : Bool :=
  match r.outcome with
  | .denied _ => false
  | _ => true

/-- The record is of a call, under this name, of this capability of the host. -/
structure RecordOf (setting : Setting ι σ) (r : CallRecord) (name : String)
    (c : Capability ι) : Prop where
  registered : setting.host.registry.get? name = some c
  subsystem : r.subsystem = c.subsystem
  function : r.function = c.function

/-- The record and the invocation are of one capability, whose permission is granted, with the same
arguments. -/
def Permitted (setting : Setting ι σ) (r : CallRecord) (i : Invocation ι) : Prop :=
  ∃ name c, RecordOf setting r name c ∧ setting.granted.allows c.permission = true ∧
    i.implementation = c.implementation ∧ i.args = r.args

/-- The record is of a permitted call that gave a value. -/
structure Returned (setting : Setting ι σ) (r : CallRecord) (i : Invocation ι) : Prop where
  permitted : Permitted setting r i
  value : ∃ value, r.outcome = .returned value

/-- What the trail of a run says, given its invocations and the error it ended with, if any. -/
structure Audit (setting : Setting ι σ) (trail : List CallRecord)
    (invocations : List (Invocation ι)) (failure : Option Error) : Prop where
  /-- The invocations are those on record, in order, each permitted. -/
  accounted : List.Forall₂ (Permitted setting) (trail.filter CallRecord.performed) invocations
  /-- A denied call is the last on record. It lacked its permission, and the run ended with it. -/
  denied {earlier later : List CallRecord} {r : CallRecord} {permission : String} :
    trail = earlier ++ r :: later → r.outcome = .denied permission →
    later = [] ∧ setting.granted.allows permission = false ∧
      ∃ name c, RecordOf setting r name c ∧ c.permission = permission ∧
        failure = some (.permissionDenied name permission)
  /-- A failed call is the last on record, and the run ended with it. -/
  failed {earlier later : List CallRecord} {r : CallRecord} {cause : String} :
    trail = earlier ++ r :: later → r.outcome = .failed cause →
    later = [] ∧ failure = some (.hostCall r.subsystem r.function cause)
  /-- In a run that has not failed every call returned. -/
  returned : failure = none → ∀ r ∈ trail, ∃ value, r.outcome = .returned value

section Trails

variable {setting : Setting ι σ} {trail : List CallRecord} {invocations : List (Invocation ι)}

theorem forall_returned (h : List.Forall₂ (Returned setting) trail invocations) :
    ∀ r ∈ trail, ∃ value, r.outcome = .returned value := by
  induction h with
  | nil => exact fun _ hr => nomatch hr
  | cons hr _ ih =>
    intro r hmem
    obtain rfl | hmem := List.mem_cons.mp hmem
    · exact hr.value
    · exact ih r hmem

theorem filter_performed (h : ∀ r ∈ trail, ∃ value, r.outcome = .returned value) :
    trail.filter CallRecord.performed = trail := by
  refine List.filter_eq_self.mpr fun r hr => ?_
  obtain ⟨value, hvalue⟩ := h r hr
  simp only [CallRecord.performed, hvalue]

/-- A record of a trail is its last one or one of those before. -/
theorem eq_last_or_mem {last r : CallRecord} {earlier later : List CallRecord}
    (h : trail ++ [last] = earlier ++ r :: later) : (later = [] ∧ r = last) ∨ r ∈ trail := by
  obtain rfl | ⟨later, x, rfl⟩ := List.eq_nil_or_concat later
  · exact .inl ⟨rfl, (List.append_inj_right' h rfl |> List.singleton_inj.mp).symm⟩
  · right
    rw [List.concat_eq_append, ← List.cons_append, ← List.append_assoc] at h
    rw [List.append_inj_left' h rfl]
    simp

/-- A trail on which every call returned tells nothing about the end of the run. -/
theorem Audit.of_returned (h : List.Forall₂ (Returned setting) trail invocations)
    (failure : Option Error) : Audit setting trail invocations failure where
  accounted := by
    rw [filter_performed (forall_returned h)]
    exact h.imp fun _ _ hr => hr.permitted
  denied {_ _ r _} htrail hr := by
    obtain ⟨value, hvalue⟩ := forall_returned h r (by simp [htrail])
    simp [hr] at hvalue
  failed {_ _ r _} htrail hr := by
    obtain ⟨value, hvalue⟩ := forall_returned h r (by simp [htrail])
    simp [hr] at hvalue
  returned _ := forall_returned h

/-- A denied call behind calls that returned. -/
theorem Audit.of_denied (h : List.Forall₂ (Returned setting) trail invocations) {r : CallRecord}
    {name : String} {c : Capability ι} (hrecord : RecordOf setting r name c)
    (houtcome : r.outcome = .denied c.permission)
    (hdenied : setting.granted.allows c.permission = false) :
    Audit setting (trail ++ [r]) invocations (some (.permissionDenied name c.permission)) where
  accounted := by
    have hr : r.performed = false := by simp only [CallRecord.performed, houtcome]
    rw [List.filter_append, filter_performed (forall_returned h)]
    simpa [hr] using h.imp fun _ _ hr => hr.permitted
  denied {_ _ r' _} htrail hr' := by
    obtain ⟨hlater, rfl⟩ | hmem := eq_last_or_mem htrail
    · obtain rfl := CallOutcome.denied.inj (houtcome.symm.trans hr')
      exact ⟨hlater, hdenied, name, c, hrecord, rfl, rfl⟩
    · obtain ⟨value, hvalue⟩ := forall_returned h r' hmem
      simp [hr'] at hvalue
  failed {_ _ r' _} htrail hr' := by
    obtain ⟨-, rfl⟩ | hmem := eq_last_or_mem htrail
    · simp [hr'] at houtcome
    · obtain ⟨value, hvalue⟩ := forall_returned h r' hmem
      simp [hr'] at hvalue
  returned hnone := nomatch hnone

/-- A failed call behind calls that returned. -/
theorem Audit.of_failed (h : List.Forall₂ (Returned setting) trail invocations) {r : CallRecord}
    {i : Invocation ι} {cause : String} (hpermitted : Permitted setting r i)
    (houtcome : r.outcome = .failed cause) :
    Audit setting (trail ++ [r]) (invocations ++ [i])
      (some (.hostCall r.subsystem r.function cause)) where
  accounted := by
    have hr : r.performed = true := by simp only [CallRecord.performed, houtcome]
    rw [List.filter_append, filter_performed (forall_returned h)]
    have hearlier := h.imp fun _ _ hr => hr.permitted
    simpa [hr] using List.rel_append hearlier (.cons hpermitted .nil)
  denied {_ _ r' _} htrail hr' := by
    obtain ⟨-, rfl⟩ | hmem := eq_last_or_mem htrail
    · simp [hr'] at houtcome
    · obtain ⟨value, hvalue⟩ := forall_returned h r' hmem
      simp [hr'] at hvalue
  failed {_ _ r' _} htrail hr' := by
    obtain ⟨hlater, rfl⟩ | hmem := eq_last_or_mem htrail
    · obtain rfl := CallOutcome.failed.inj (houtcome.symm.trans hr')
      exact ⟨hlater, rfl⟩
    · obtain ⟨value, hvalue⟩ := forall_returned h r' hmem
      simp [hr'] at hvalue
  returned hnone := nomatch hnone

end Trails

/-! ### Operations on the ledger -/

/-- Every call on the ledger returned, and the notes are of these calls. -/
def InOrder (setting : Setting ι σ) (l : Ledger (σ × List (Invocation ι))) : Prop :=
  List.Forall₂ (Returned setting) l.calls.toList l.host.2

/-- The ledger is that of a run that ended with an error. -/
def Audited (setting : Setting ι σ) (e : Error) (l : Ledger (σ × List (Invocation ι))) : Prop :=
  Audit setting l.calls.toList l.host.2 (some e)

section Invoke

variable {setting : Setting ι σ} {name : String} {c : Capability ι} {args : List Value}
  {l : Ledger σ}

/-- The ledger after a call that left a record. -/
def Ledger.afterCall (l : Ledger σ) (r : CallRecord) (cancels : Bool) (state : σ) : Ledger σ :=
  ⟨l.steps, l.cancelled || cancels, l.output, l.calls.push r, state⟩

theorem Run.invoke_of_unknown (hname : setting.host.registry.get? name = none) :
    Run.invoke setting name args l = .error (.notDefined name) l := by
  simp [Run.invoke, Host.invoke, hname]

theorem Run.invoke_of_denied (hname : setting.host.registry.get? name = some c)
    (hdenied : setting.granted.allows c.permission = false) :
    Run.invoke setting name args l =
      .error (.permissionDenied name c.permission)
        (l.afterCall ⟨c.subsystem, c.function, args, .denied c.permission⟩ false l.host) := by
  simp [Run.invoke, Host.invoke, hname, hdenied, Ledger.afterCall]

theorem Run.invoke_of_returned (hname : setting.host.registry.get? name = some c)
    (hallowed : setting.granted.allows c.permission = true) {value : Value}
    (hvalue : (setting.host.perform c.implementation args l.host).1.result = .ok value) :
    Run.invoke setting name args l =
      .ok value (l.afterCall ⟨c.subsystem, c.function, args, .returned value⟩
        (setting.host.perform c.implementation args l.host).1.cancels
        (setting.host.perform c.implementation args l.host).2) := by
  simp [Run.invoke, Host.invoke, hname, hallowed, hvalue, Ledger.afterCall]

theorem Run.invoke_of_failed (hname : setting.host.registry.get? name = some c)
    (hallowed : setting.granted.allows c.permission = true) {cause : String}
    (hcause : (setting.host.perform c.implementation args l.host).1.result = .error cause) :
    Run.invoke setting name args l =
      .error (.hostCall c.subsystem c.function cause)
        (l.afterCall ⟨c.subsystem, c.function, args, .failed cause⟩
          (setting.host.perform c.implementation args l.host).1.cancels
          (setting.host.perform c.implementation args l.host).2) := by
  simp [Run.invoke, Host.invoke, hname, hallowed, hcause, Ledger.afterCall]

end Invoke

namespace Run

variable (setting : Setting ι σ)

theorem invoke_audited (name : String) (args : List Value) :
    Keeps (InOrder setting) (Audited setting) (invoke setting.recording name args) := by
  intro l hl
  cases hname : setting.recording.host.registry.get? name with
  | none =>
    rw [invoke_of_unknown hname]
    exact .of_returned hl _
  | some c =>
    cases hallowed : setting.recording.granted.allows c.permission with
    | false =>
      rw [invoke_of_denied hname hallowed]
      simp only [Meets, Audited, Ledger.afterCall, Array.toList_push]
      exact Audit.of_denied hl ⟨hname, rfl, rfl⟩ rfl hallowed
    | true =>
      have hpermitted (outcome : CallOutcome) :
          Permitted setting ⟨c.subsystem, c.function, args, outcome⟩ ⟨c.implementation, args⟩ :=
        ⟨name, c, ⟨hname, rfl, rfl⟩, hallowed, rfl, rfl⟩
      cases hresult : (setting.recording.host.perform c.implementation args l.host).1.result with
      | ok value =>
        rw [invoke_of_returned hname hallowed hresult]
        simp only [Meets, InOrder, Ledger.afterCall, Array.toList_push]
        exact List.rel_append hl (.cons ⟨hpermitted (.returned value), value, rfl⟩ .nil)
      | error cause =>
        rw [invoke_of_failed hname hallowed hresult]
        simp only [Meets, Audited, Ledger.afterCall, Array.toList_push]
        exact Audit.of_failed hl (hpermitted (.failed cause)) rfl

/-- What keeps the calls on the ledger and the notes keeps the trail in order. -/
theorem audited_of_calls_kept {x : Run (σ × List (Invocation ι)) α}
    (hcalls : ∀ l, (reached (x l)).calls = l.calls) (hhost : ∀ l, (reached (x l)).host = l.host) :
    Keeps (InOrder setting) (Audited setting) x := by
  intro l hl
  have hcalls := hcalls l
  have hhost := hhost l
  have horder : InOrder setting (reached (x l)) := by
    unfold InOrder
    rw [hcalls, hhost]
    exact hl
  cases hr : x l with
  | ok a l₁ => rwa [hr] at horder
  | error e l₁ =>
    rw [hr] at horder
    exact .of_returned horder _

/-- A call keeps the trail in order, or ends the run as the trail tells. -/
theorem call_audited (name : String) (args : List Value) :
    Keeps (InOrder setting) (Audited setting) (call setting.recording name args) := by
  unfold call
  split
  · rename_i b _
    refine audited_of_calls_kept setting (fun l => ?_) fun l => ?_ <;>
      obtain ⟨output, hb⟩ := builtin_reached setting.recording b args l <;> rw [hb]
  · split
    · exact invoke_audited setting name args
    · exact audited_of_calls_kept setting (fun _ => rfl) fun _ => rfl

end Run

/-- The host that notes every invocation does what the host does. -/
theorem recording_host (setting : Setting ι σ) : HostMap setting.recording setting Prod.fst :=
  ⟨rfl, rfl, rfl, rfl, fun _ _ _ => rfl⟩

/-- With and without notes, every operation on the ledger does the same. -/
theorem recording_map (setting : Setting ι σ) :
    LedgerMap setting.recording setting Ledger.forget :=
  (recording_host setting).ledgerMap

/-- Every operation on the ledger keeps the trail in order, or ends the run as the trail tells. -/
theorem audit_invariant (setting : Setting ι σ) :
    LedgerInvariant setting.recording (InOrder setting) (Audited setting) where
  failure e hl := .of_returned hl _
  charge := Run.audited_of_calls_kept setting (fun l => by rw [Run.charge_reached]; rfl)
    fun l => by rw [Run.charge_reached]; rfl
  call := Run.call_audited setting

/-! ### Runs -/

/-- The error that a run ended with, if it did. -/
def failure? {ε τ : Type} (error? : ε → Option Error) : EStateM.Result ε τ α → Option Error
  | .ok _ _ => none
  | .error e _ => error? e

/-- The error of a halt. -/
def Halt.error? : Halt → Option Error
  | .fail e => some e
  | .unfinished => none

/-- The trail of every run is exact, whatever the script or the program. A run with notes is the run
itself; the noted invocations are the permitted calls on record that returned or failed; and only
the last call on record may have been denied or have failed, in which case the run ended with it. -/
theorem calls_audited (setting : Setting ι σ) (allowance : Nat) (bindings : Table Value)
    (cancelled : Bool) (state : σ) :
    (∀ script,
      let recorded :=
        interpret setting.recording allowance script bindings (.start cancelled (state, []))
      interpret setting allowance script bindings (.start cancelled state) =
          mapState (World.mapLedger Ledger.forget) recorded ∧
        Audit setting (reached recorded).ledger.calls.toList (reached recorded).ledger.host.2
          (failure? Exit.error? recorded)) ∧
    ∀ program,
      let recorded :=
        runProgram setting.recording allowance program bindings (.start cancelled (state, []))
      runProgram setting allowance program bindings (.start cancelled state) =
          mapState (Machine.mapLedger Ledger.forget) recorded ∧
        Audit setting (reached recorded).ledger.calls.toList (reached recorded).ledger.host.2
          (failure? Halt.error? recorded) := by
  have hmap := recording_map setting
  have hstart : InOrder setting (.start cancelled (state, [])) := .nil
  let start : Ledger (σ × List (Invocation ι)) := .start cancelled (state, [])
  refine ⟨fun script => ⟨hmap.interpret_follows allowance script bindings start, ?_⟩,
    fun program => ⟨hmap.runProgram_follows allowance program bindings start, ?_⟩⟩
  · have hmeets := (audit_invariant setting).interpret_meets allowance script bindings hstart
    rcases hr : interpret setting.recording allowance script bindings _ with
      ⟨value, w⟩ | ⟨j | e | _, w⟩ <;> rw [hr] at hmeets
    · exact .of_returned hmeets _
    · exact .of_returned hmeets _
    · exact hmeets
    · exact .of_returned hmeets _
  · have hmeets := (audit_invariant setting).runProgram_meets allowance program bindings hstart
    rcases hr : runProgram setting.recording allowance program bindings _ with
      ⟨value, m⟩ | ⟨e | _, m⟩ <;> rw [hr] at hmeets
    · exact .of_returned hmeets _
    · exact hmeets
    · exact .of_returned hmeets _

end Covenant
