import Covenant.Proofs.Ledger

/-!
# The step counter

Nothing but the charge of a step looks at the number of steps charged so far. Every other operation
on the ledger does the same with another count, and keeps it.

A cancelled run stays cancelled.

## Main definitions

* `Ledger.withSteps`, `World.withSteps` : another count of steps.

## Main results

* `Run.call_uncounted` : calls do not look at it.
* `Run.call_cancelled` : no call undoes a cancellation.
-/

namespace Covenant

variable {ι σ α : Type}

/-- A ledger with another count of steps. -/
def Ledger.withSteps (l : Ledger σ) (k : Nat) : Ledger σ :=
  { l with steps := k }

@[simp] theorem Ledger.withSteps_steps (l : Ledger σ) (k : Nat) : (l.withSteps k).steps = k := rfl

@[simp] theorem Ledger.withSteps_cancelled (l : Ledger σ) (k : Nat) :
    (l.withSteps k).cancelled = l.cancelled := rfl

@[simp] theorem Ledger.withSteps_withSteps (l : Ledger σ) (k j : Nat) :
    (l.withSteps k).withSteps j = l.withSteps j := rfl

/-- A world with another count of steps. -/
def World.withSteps (w : World σ) (k : Nat) : World σ :=
  w.mapLedger (Ledger.withSteps · k)

@[simp] theorem World.withSteps_ledger (w : World σ) (k : Nat) :
    (w.withSteps k).ledger = w.ledger.withSteps k := rfl

@[simp] theorem World.withSteps_self (w : World σ) : w.withSteps w.ledger.steps = w := rfl

@[simp] theorem World.withSteps_withSteps (w : World σ) (k j : Nat) :
    (w.withSteps k).withSteps j = w.withSteps j := rfl

/-! ### Operations on the ledger -/

namespace Run

variable (k : Nat)

theorem invoke_uncounted (setting : Setting ι σ) (name : String) (args : List Value) :
    Follows (Ledger.withSteps · k) (invoke setting name args) (invoke setting name args) := by
  rintro ⟨steps, cancelled, output, calls, host⟩
  simp only [invoke, Ledger.withSteps]
  split <;> rfl

/-- A call does not look at the count of steps. -/
theorem call_uncounted (setting : Setting ι σ) (name : String) (args : List Value) :
    Follows (Ledger.withSteps · k) (call setting name args) (call setting name args) :=
  call_follows rfl (fun _ _ => rfl) (invoke_uncounted k setting) name args

/-! ### Cancellation -/

theorem invoke_cancelled (setting : Setting ι σ) (name : String) (args : List Value)
    (l : Ledger σ) (hl : l.cancelled = true) :
    (reached (invoke setting name args l)).cancelled = true := by
  obtain ⟨steps, cancelled, output, calls, host⟩ := l
  simp only [invoke]
  split <;> simp_all

/-- A built-in function changes nothing but the output. -/
theorem builtin_reached (setting : Setting ι σ) (b : Builtin) (args : List Value) (l : Ledger σ) :
    ∃ output, reached (builtin setting b args l) = { l with output } := by
  unfold builtin
  cases b.line? args with
  | none => cases b.apply setting.clock args <;> exact ⟨l.output, rfl⟩
  | some line => cases b.apply setting.clock args <;> exact ⟨l.output.push line, rfl⟩

/-- A call in a cancelled run leaves it cancelled. -/
theorem call_cancelled (setting : Setting ι σ) (name : String) (args : List Value)
    (l : Ledger σ) (hl : l.cancelled = true) :
    (reached (call setting name args l)).cancelled = true := by
  unfold call
  cases Builtin.ofName? name with
  | some b =>
    obtain ⟨output, hb⟩ := builtin_reached setting b args l
    dsimp only
    rw [hb]
    exact hl
  | none =>
    dsimp only
    split
    · exact invoke_cancelled setting name args l hl
    · exact hl

end Run

/-! ### The charge -/

/-- So many steps are within the limit. -/
def Limits.Within (limits : Limits) (steps : Nat) : Prop :=
  ∀ limit ∈ limits.maxSteps, steps ≤ limit.toNat

theorem Limits.Within.mono {limits : Limits} {j k : Nat} (h : limits.Within k) (hjk : j ≤ k) :
    limits.Within j :=
  fun limit hlimit => Nat.le_trans hjk (h limit hlimit)

theorem Limits.within_of_unlimited {limits : Limits} (h : limits.maxSteps = none) (k : Nat) :
    limits.Within k := by
  intro limit hlimit
  rw [h] at hlimit
  cases hlimit

namespace Run

theorem charge_of_within {limits : Limits} {l : Ledger σ} (h : limits.Within (l.steps + 1)) :
    charge limits l = .ok () (l.withSteps (l.steps + 1)) := by
  obtain ⟨steps, cancelled, output, calls, host⟩ := l
  unfold charge
  cases hlimit : limits.maxSteps with
  | none => rfl
  | some limit =>
    have hle : steps + 1 ≤ limit.toNat := h limit hlimit
    simp only [Nat.not_lt.mpr hle, if_false]
    rfl

theorem charge_of_exceeded {limits : Limits} {l : Ledger σ} {limit : UInt64}
    (hlimit : limits.maxSteps = some limit) (h : limit.toNat < l.steps + 1) :
    charge limits l = .error (.exhausted .steps limit.toNat) (l.withSteps (l.steps + 1)) := by
  obtain ⟨steps, cancelled, output, calls, host⟩ := l
  have hlt : limit.toNat < steps + 1 := h
  unfold charge
  simp only [hlimit, hlt, if_true]
  rfl

/-- The charge of a step counts it, whatever comes of it. -/
theorem charge_reached (limits : Limits) (l : Ledger σ) :
    reached (charge limits l) = l.withSteps (l.steps + 1) := by
  unfold charge
  cases limits.maxSteps with
  | none => rfl
  | some limit =>
    dsimp only
    split <;> rfl

/-- Either one more step is within the limit or there is a limit that it exceeds. -/
theorem within_or_exceeded (limits : Limits) (steps : Nat) :
    limits.Within steps ∨ ∃ limit, limits.maxSteps = some limit ∧ limit.toNat < steps := by
  cases hlimit : limits.maxSteps with
  | none => exact .inl (Limits.within_of_unlimited hlimit steps)
  | some limit =>
    by_cases h : steps ≤ limit.toNat
    · refine .inl fun limit' h' => ?_
      rw [hlimit] at h'
      exact Option.some.inj h' ▸ h
    · exact .inr ⟨limit, rfl, by omega⟩

end Run

/-! ### Evaluations -/

namespace Eval

/-- A node is entered if its step and its depth are within the limits. -/
theorem enter_of_within {setting : Setting ι σ} {depth : Nat} {w : World σ}
    (hsteps : setting.limits.Within (w.ledger.steps + 1))
    (hdepth : depth ≤ setting.limits.maxExpressionDepth.toNat) :
    enter setting depth w = .ok () (w.withSteps (w.ledger.steps + 1)) := by
  obtain ⟨scopes, ledger⟩ := w
  have hcharge : Run.charge setting.limits ledger = _ := Run.charge_of_within hsteps
  simp only [enter, bind, EStateM.bind, ofRun, hcharge, Run.checkExpressionDepth,
    Nat.not_lt.mpr hdepth, if_false]
  rfl

theorem enter_of_exceeded {setting : Setting ι σ} {depth : Nat} {w : World σ} {limit : UInt64}
    (hlimit : setting.limits.maxSteps = some limit) (h : limit.toNat < w.ledger.steps + 1) :
    enter setting depth w =
      .error (.fail (.exhausted .steps limit.toNat)) (w.withSteps (w.ledger.steps + 1)) := by
  obtain ⟨scopes, ledger⟩ := w
  have hcharge : Run.charge setting.limits ledger = _ := Run.charge_of_exceeded hlimit h
  simp only [enter, bind, EStateM.bind, ofRun, hcharge]
  rfl

theorem enter_of_too_deep {setting : Setting ι σ} {depth : Nat} {w : World σ}
    (hsteps : setting.limits.Within (w.ledger.steps + 1))
    (hdepth : setting.limits.maxExpressionDepth.toNat < depth) :
    enter setting depth w =
      .error (.fail (.exhausted .expressionDepth setting.limits.maxExpressionDepth.toNat))
        (w.withSteps (w.ledger.steps + 1)) := by
  obtain ⟨scopes, ledger⟩ := w
  have hcharge : Run.charge setting.limits ledger = _ := Run.charge_of_within hsteps
  simp only [enter, bind, EStateM.bind, ofRun, hcharge, Run.checkExpressionDepth, hdepth, if_true]
  rfl

/-- Entering a node charges one step, whatever comes of it. -/
theorem enter_reached (setting : Setting ι σ) (depth : Nat) (w : World σ) :
    reached (enter setting depth w) = w.withSteps (w.ledger.steps + 1) := by
  obtain hsteps | ⟨limit, hlimit, h⟩ :=
    Run.within_or_exceeded setting.limits (w.ledger.steps + 1)
  · by_cases hdepth : depth ≤ setting.limits.maxExpressionDepth.toNat
    · rw [enter_of_within hsteps hdepth, reached_ok]
    · rw [enter_of_too_deep hsteps (by omega), reached_error]
  · rw [enter_of_exceeded hlimit h, reached_error]

end Eval

end Covenant
