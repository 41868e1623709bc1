import Covenant.Proofs.Refinement

/-!
# The limit of steps is an exact threshold

A run is compared with a run of the same under another limit of steps. Up to that limit both do the
same; beyond it the second run fails, with what it has written and called until then. A loop takes a
step in each round and a machine in each instruction, so that with a limit of steps the allowances
that go beyond it are never used up.

Both facts are kept by everything that evaluations and executions are made of (`Paced`), from the
point where a computation starts to the point that it has reached.

## Main definitions

* `Ledger.Precedes` : a ledger that goes on from another.
* `Meter` : where the ledger of a computation is, and which of its errors are about its limits.
* `Paced` : how a computation and the same under another limit use their steps.
* `Threshold` : a family of runs for which the limit of steps is an exact threshold.

## Main results

* `steps_threshold` : interpreted scripts and executed programs are such runs.
-/

namespace Covenant

variable {ι σ ε τ α β : Type}

/-- The second ledger goes on from the first one. -/
structure Ledger.Precedes (l l' : Ledger σ) : Prop where
  steps : l.steps ≤ l'.steps
  output : l.output.toList <+: l'.output.toList
  calls : l.calls.toList <+: l'.calls.toList

namespace Ledger.Precedes

theorem refl (l : Ledger σ) : l.Precedes l :=
  ⟨Nat.le_refl _, List.prefix_refl _, List.prefix_refl _⟩

theorem trans {l₁ l₂ l₃ : Ledger σ} (h : l₁.Precedes l₂) (h' : l₂.Precedes l₃) : l₁.Precedes l₃ :=
  ⟨Nat.le_trans h.steps h'.steps, h.output.trans h'.output, h.calls.trans h'.calls⟩

theorem charged (l : Ledger σ) : l.Precedes (l.withSteps (l.steps + 1)) :=
  ⟨Nat.le_succ _, List.prefix_refl _, List.prefix_refl _⟩

end Ledger.Precedes

/-- Where the ledger of a computation is, and which of its errors are about its limits. -/
structure Meter (ε τ σ : Type) where
  ledger : τ → Ledger σ
  /-- The steps or the allowance are used up. -/
  stopped : ε → Prop
  /-- The allowance is used up. -/
  endless : ε → Prop
  /-- One more step was asked for than the limit allows. -/
  exhausted : Nat → ε

namespace Meter

def run : Meter Error (Ledger σ) σ :=
  ⟨id, Error.OutOfSteps, fun _ => False, .exhausted .steps⟩

def evaluation : Meter Exit (World σ) σ :=
  ⟨World.ledger, Exit.OutOfSteps, (· = .unfinished), fun n => .fail (.exhausted .steps n)⟩

def instruction : Meter Error (Machine σ) σ :=
  ⟨Machine.ledger, Error.OutOfSteps, fun _ => False, .exhausted .steps⟩

def execution : Meter Halt (Machine σ) σ :=
  ⟨Machine.ledger, Halt.OutOfSteps, (· = .unfinished), fun n => .fail (.exhausted .steps n)⟩

end Meter

/-- A result with other states and errors. -/
def carry {ε' τ' : Type} (wrap : τ → τ') (lift : ε → ε') :
    EStateM.Result ε τ α → EStateM.Result ε' τ' α
  | .ok a s => .ok a (wrap s)
  | .error e s => .error (lift e) (wrap s)

/-- A computation under some limits has started with the ledger and come to the first result, and
the same under other limits to the second one.

The first has charged at most one step more than it may, and none more if it was not stopped; if it
has used up its allowance, then it has charged so many steps. If it was not stopped, the second
comes to the same result where the other limits allow the steps charged, and else to an error when
they are exceeded, with a ledger from which that of the first goes on. -/
structure Paced (M : Meter ε τ σ) (limits limits' : Limits) (allowance allowance' : Nat)
    (l : Ledger σ) (r r' : EStateM.Result ε τ α) : Prop where
  precedes : l.Precedes (M.ledger (reached r))
  within : limits.Within l.steps → Completes M.stopped r →
    limits.Within (M.ledger (reached r)).steps
  bounded : limits.Within l.steps → ∀ limit ∈ limits.maxSteps,
    (M.ledger (reached r)).steps ≤ limit.toNat + 1
  endless (e : ε) (s : τ) : r = .error e s → M.endless e → allowance ≤ (M.ledger s).steps
  same : Completes M.stopped r → limits'.Within (M.ledger (reached r)).steps →
    (M.ledger (reached r)).steps < allowance' → r' = r
  cut : Completes M.stopped r → ∀ limit ∈ limits'.maxSteps, l.steps ≤ limit.toNat →
    limit.toNat < (M.ledger (reached r)).steps → limit.toNat < allowance' →
    ∃ s, r' = .error (M.exhausted limit.toNat) s ∧
      (M.ledger s).Precedes (M.ledger (reached r))

namespace Paced

variable {M : Meter ε τ σ} {limits limits' : Limits} {allowance allowance' : Nat} {l : Ledger σ}

/-- With smaller allowances less is said. -/
theorem mono {r r' : EStateM.Result ε τ α} {n n' : Nat}
    (h : Paced M limits limits' allowance allowance' l r r') (hn : n ≤ allowance)
    (hn' : n' ≤ allowance') : Paced M limits limits' n n' l r r' where
  precedes := h.precedes
  within := h.within
  bounded := h.bounded
  endless e s hr he := Nat.le_trans hn (h.endless e s hr he)
  same hcompletes hwithin hlt := h.same hcompletes hwithin (Nat.lt_of_lt_of_le hlt hn')
  cut hcompletes limit hlimit hle hlt hlt' :=
    h.cut hcompletes limit hlimit hle hlt (Nat.lt_of_lt_of_le hlt' hn')

/-- What charges no step and does not look at the limits. -/
theorem refl {r : EStateM.Result ε τ α} (hprecedes : l.Precedes (M.ledger (reached r)))
    (hsteps : (M.ledger (reached r)).steps = l.steps)
    (hends : ∀ e s, r = .error e s → ¬ M.endless e) :
    Paced M limits limits' allowance allowance' l r r where
  precedes := hprecedes
  within hwithin _ := by rw [hsteps]; exact hwithin
  bounded hwithin limit hlimit := by
    have hle := hwithin limit hlimit
    omega
  endless e s hr he := absurd he (hends e s hr)
  same _ _ _ := rfl
  cut _ limit _ hle hlt := by omega

theorem bind {x y : EStateM ε τ α} {f g : α → EStateM ε τ β} {s : τ}
    (hx : Paced M limits limits' allowance allowance' l (x s) (y s))
    (hf : ∀ a s₁, x s = .ok a s₁ →
      Paced M limits limits' allowance allowance' (M.ledger s₁) (f a s₁) (g a s₁)) :
    Paced M limits limits' allowance allowance' l ((x >>= f) s) ((y >>= g) s) := by
  rcases hr : x s with ⟨a, s₁⟩ | ⟨e, s₁⟩
  · have hf := hf a s₁ hr
    rw [hr] at hx
    rw [bind_of_ok hr]
    refine ⟨hx.precedes.trans hf.precedes, ?_, ?_, hf.endless, ?_, ?_⟩
    · exact fun hwithin => hf.within (hx.within hwithin trivial)
    · exact fun hwithin => hf.bounded (hx.within hwithin trivial)
    · intro hcompletes hwithin hlt
      have hle := hf.precedes.steps
      have hy := hx.same trivial (hwithin.mono hle) (Nat.lt_of_le_of_lt hle hlt)
      rw [bind_of_ok hy]
      exact hf.same hcompletes hwithin hlt
    · intro hcompletes limit hlimit hle hlt hlt'
      by_cases hfirst : (M.ledger s₁).steps ≤ limit.toNat
      -- The limit is exceeded in the second part, or else in the first one.
      · have hwithin : limits'.Within (M.ledger s₁).steps := by
          intro limit' hlimit'
          rw [Option.mem_unique hlimit' hlimit]
          exact hfirst
        have hy := hx.same trivial hwithin (Nat.lt_of_le_of_lt hfirst hlt')
        rw [bind_of_ok hy]
        exact hf.cut hcompletes limit hlimit hfirst hlt hlt'
      · obtain ⟨s', hy, hprecedes⟩ := hx.cut trivial limit hlimit hle (by simpa using hfirst) hlt'
        exact ⟨s', bind_of_error hy, hprecedes.trans hf.precedes⟩
  · rw [hr] at hx
    rw [bind_of_error hr]
    refine ⟨hx.precedes, hx.within, hx.bounded, ?_, ?_, ?_⟩
    · rintro e' s' ⟨⟩ hendless
      exact hx.endless e s₁ rfl hendless
    · intro hcompletes hwithin hlt
      exact bind_of_error (hx.same hcompletes hwithin hlt)
    · intro hcompletes limit hlimit hle hlt hlt'
      obtain ⟨s', hy, hprecedes⟩ := hx.cut hcompletes limit hlimit hle hlt hlt'
      exact ⟨s', bind_of_error hy, hprecedes⟩

/-- A computation that takes part in another one. -/
theorem carry {ε' τ' : Type} {M' : Meter ε' τ' σ} {wrap : τ → τ'} {lift : ε → ε'}
    {r r' : EStateM.Result ε τ α} (h : Paced M limits limits' allowance allowance' l r r')
    (hledger : ∀ s, M'.ledger (wrap s) = M.ledger s)
    (hstopped : ∀ e, M.stopped e → M'.stopped (lift e))
    (hendless : ∀ e, M'.endless (lift e) → M.endless e)
    (hexhausted : ∀ n, lift (M.exhausted n) = M'.exhausted n) :
    Paced M' limits limits' allowance allowance' l (carry wrap lift r) (carry wrap lift r') := by
  have hreached : M'.ledger (reached (Covenant.carry wrap lift r)) = M.ledger (reached r) := by
    rcases r with ⟨a, s⟩ | ⟨e, s⟩ <;> exact hledger s
  have hcompletes (hc : Completes M'.stopped (Covenant.carry wrap lift r)) :
      Completes M.stopped r := by
    rcases r with ⟨a, s⟩ | ⟨e, s⟩
    · trivial
    · exact fun he => hc (hstopped e he)
  constructor
  · rw [hreached]
    exact h.precedes
  · rw [hreached]
    exact fun hwithin hc => h.within hwithin (hcompletes hc)
  · rw [hreached]
    exact h.bounded
  · intro e' s' hr he'
    rcases r with ⟨a, s⟩ | ⟨e, s⟩
    · cases hr
    · obtain ⟨rfl, rfl⟩ := EStateM.Result.error.inj hr
      rw [hledger]
      exact h.endless e s rfl (hendless e he')
  · rw [hreached]
    intro hc hwithin hlt
    rw [h.same (hcompletes hc) hwithin hlt]
  · rw [hreached]
    intro hc limit hlimit hle hlt hlt'
    obtain ⟨s, hr', hprecedes⟩ := h.cut (hcompletes hc) limit hlimit hle hlt hlt'
    refine ⟨wrap s, ?_, ?_⟩
    · rw [hr', ← hexhausted]
      rfl
    · rw [hledger]
      exact hprecedes

end Paced

/-- From every state, the two computations are paced. -/
def Paces (M : Meter ε τ σ) (limits limits' : Limits) (allowance allowance' : Nat)
    (x y : EStateM ε τ α) : Prop :=
  ∀ s, Paced M limits limits' allowance allowance' (M.ledger s) (x s) (y s)

namespace Paces

variable {M : Meter ε τ σ} {limits limits' : Limits} {allowance allowance' : Nat}

theorem bind {x y : EStateM ε τ α} {f g : α → EStateM ε τ β}
    (hx : Paces M limits limits' allowance allowance' x y)
    (hf : ∀ a, Paces M limits limits' allowance allowance' (f a) (g a)) :
    Paces M limits limits' allowance allowance' (x >>= f) (y >>= g) :=
  fun s => (hx s).bind fun a s₁ _ => hf a s₁

/-- What keeps the ledger as it is. -/
theorem kept {x : EStateM ε τ α} (hledger : ∀ s, M.ledger (reached (x s)) = M.ledger s)
    (hends : ∀ s e s', x s = .error e s' → ¬ M.endless e) :
    Paces M limits limits' allowance allowance' x x := by
  intro s
  refine .refl ?_ ?_ (hends s)
  · rw [hledger]
    exact .refl _
  · rw [hledger]

end Paces

/-! ### Operations on the ledger -/

namespace Run

variable {allowance allowance' : Nat}

theorem charge_paces (limits limits' : Limits) :
    Paces .run limits limits' allowance allowance' (charge limits : Run σ Unit)
      (charge limits') := by
  intro l
  have hreached := charge_reached limits l
  have hwithin_of (hc : Completes Error.OutOfSteps (charge limits l)) :
      limits.Within (l.steps + 1) := by
    obtain hwithin | ⟨limit, hlimit, hexceeded⟩ := within_or_exceeded limits (l.steps + 1)
    · exact hwithin
    · rw [charge_of_exceeded hlimit hexceeded] at hc
      exact absurd trivial hc
  constructor
  · rw [hreached]
    exact .charged l
  · rw [hreached]
    exact fun _ => hwithin_of
  · rw [hreached]
    intro hwithin limit hlimit
    exact Nat.succ_le_succ (hwithin limit hlimit)
  · rintro e s - ⟨⟩
  · rw [hreached]
    intro hc hwithin' _
    rw [charge_of_within (hwithin_of hc), charge_of_within hwithin']
  · rw [hreached]
    intro hc limit hlimit hle hlt _
    exact ⟨_, charge_of_exceeded hlimit hlt, .refl _⟩

theorem invoke_precedes (setting : Setting ι σ) (name : String) (args : List Value)
    (l : Ledger σ) : l.Precedes (reached (invoke setting name args l)) := by
  obtain ⟨steps, cancelled, output, calls, host⟩ := l
  simp only [invoke]
  split <;> refine ⟨Nat.le_refl _, List.prefix_refl _, ?_⟩ <;>
    cases (setting.host.invoke setting.granted name args host).record <;> simp

theorem builtin_precedes (setting : Setting ι σ) (b : Builtin) (args : List Value) (l : Ledger σ) :
    l.Precedes (reached (builtin setting b args l)) := by
  unfold builtin
  cases b.line? args with
  | none =>
    cases b.apply setting.clock args <;> exact .refl l
  | some line =>
    have hpush : l.output.toList <+: (l.output.push line).toList := by simp
    cases b.apply setting.clock args <;> exact ⟨Nat.le_refl _, hpush, List.prefix_refl _⟩

theorem call_paces (setting : Setting ι σ) (limits limits' : Limits) (name : String)
    (args : List Value) :
    Paces .run limits limits' allowance allowance' (call setting name args)
      (call setting name args) := by
  intro l
  refine .refl ?_ (call_steps setting name args l) (fun _ _ _ => id)
  change l.Precedes (reached (call setting name args l))
  unfold call
  cases Builtin.ofName? name with
  | some b => exact builtin_precedes setting b args l
  | none =>
    dsimp only
    split
    · exact invoke_precedes setting name args l
    · exact .refl l

end Run

/-! ### Scripts -/

namespace Eval

variable {limits limits' : Limits} {allowance allowance' : Nat}

theorem ofRun_eq_carry (x : Run σ α) (w : World σ) :
    ofRun x w = carry (World.mk w.scopes) Exit.fail (x w.ledger) := by
  obtain ⟨scopes, ledger⟩ := w
  simp only [ofRun]
  cases x ledger <;> rfl

theorem ofRun_paces {x y : Run σ α} (h : Paces .run limits limits' allowance allowance' x y) :
    Paces .evaluation limits limits' allowance allowance' (ofRun x) (ofRun y) := by
  intro w
  rw [ofRun_eq_carry, ofRun_eq_carry]
  exact (h w.ledger).carry (fun _ => rfl) (fun _ => id) (fun _ => nofun) fun _ => rfl

/-- What happens to the scopes alone. -/
theorem kept_paces {x : Eval σ α} (hledger : ∀ w, (reached (x w)).ledger = w.ledger)
    (hends : ∀ w w', x w ≠ .error .unfinished w') :
    Paces .evaluation limits limits' allowance allowance' x x :=
  .kept hledger fun w _ w' hr he => hends w w' (he ▸ hr)

theorem ofExcept_paces (result : Except Error α) :
    Paces .evaluation limits limits' allowance allowance' (ofExcept result : Eval σ α)
      (ofExcept result) := by
  refine kept_paces (fun w => by rw [ofExcept_reached]) fun w w' h => ?_
  cases result <;> cases h

theorem framed_paces {x y : Eval σ α}
    (h : Paces .evaluation limits limits' allowance allowance' x y) :
    Paces .evaluation limits limits' allowance allowance' (framed x) (framed y) := by
  have hframed (x : Eval σ α) (w : World σ) : framed x w =
      carry (fun w : World σ => (⟨w.scopes.pop, w.ledger⟩ : World σ)) id
        (x ⟨w.scopes.push, w.ledger⟩) := by
    simp only [framed]
    cases x ⟨w.scopes.push, w.ledger⟩ <;> rfl
  intro w
  rw [hframed, hframed]
  exact (h ⟨w.scopes.push, w.ledger⟩).carry (fun _ => rfl) (fun _ => id) (fun _ => id) fun _ => rfl

/-- A loop takes nothing but jumps. -/
theorem loopBody_paces {x y : Eval σ α}
    (h : Paces .evaluation limits limits' allowance allowance' x y) :
    Paces .evaluation limits limits' allowance allowance' (loopBody x) (loopBody y) := by
  intro w
  have h := h w
  have hcompletes (hc : Completes Exit.OutOfSteps (takeJump (x w))) :
      Completes Exit.OutOfSteps (x w) := by
    rcases hx : x w with ⟨a, w₁⟩ | ⟨j | e | _, w₁⟩ <;> rw [hx] at hc
    · trivial
    · exact id
    · exact hc
    · exact hc
  rw [loopBody_eq, loopBody_eq]
  constructor
  · rw [reached_takeJump]
    exact h.precedes
  · rw [reached_takeJump]
    exact fun hwithin hc => h.within hwithin (hcompletes hc)
  · rw [reached_takeJump]
    exact h.bounded
  · rintro e s hr rfl
    refine h.endless .unfinished s ?_ rfl
    rcases hx : x w with ⟨a, w₁⟩ | ⟨(_ | _) | e | _, w₁⟩ <;> rw [hx] at hr <;> cases hr
    rfl
  · rw [reached_takeJump]
    intro hc hwithin hlt
    rw [h.same (hcompletes hc) hwithin hlt]
  · rw [reached_takeJump]
    intro hc limit hlimit hle hlt hlt'
    obtain ⟨s, hy, hprecedes⟩ := h.cut (hcompletes hc) limit hlimit hle hlt hlt'
    exact ⟨s, by rw [hy]; rfl, hprecedes⟩

/-- If each round that goes on charges a step, a repetition with so many rounds uses them up only
after so many steps. -/
theorem repeatWhile_paced {x y : Eval σ Bool}
    (h : Paces .evaluation limits limits' allowance allowance' x y)
    (hstep : ∀ w w', x w = .ok true w' → w.ledger.steps < w'.ledger.steps) (n n' : Nat)
    (w : World σ) :
    Paced .evaluation limits limits' (min allowance (w.ledger.steps + n))
      (min allowance' (w.ledger.steps + n')) w.ledger (repeatWhile x n w)
      (repeatWhile y n' w) := by
  induction n generalizing n' w with
  | zero =>
    refine ⟨.refl _, fun hwithin _ => hwithin, ?_, ?_, ?_, ?_⟩
    · exact fun hwithin limit hlimit => Nat.le_succ_of_le (hwithin limit hlimit)
    · rintro e w' ⟨⟩ -
      exact Nat.min_le_right _ _
    · exact fun hc => absurd trivial hc
    · exact fun hc => absurd trivial hc
  | succ n ih =>
    have hsucc (n' : Nat) : Paced .evaluation limits limits'
        (min allowance (w.ledger.steps + (n + 1))) (min allowance' (w.ledger.steps + (n' + 1)))
        w.ledger (repeatWhile x (n + 1) w) (repeatWhile y (n' + 1) w) := by
      refine Paced.bind ((h w).mono (Nat.min_le_left _ _) (Nat.min_le_left _ _)) ?_
      intro goesOn w₁ hround
      cases goesOn with
      | false => exact ofExcept_paces (.ok ()) w₁
      | true =>
        have hlt := hstep w w₁ hround
        refine (ih n' w₁).mono ?_ ?_ <;> omega
    rcases n' with _ | n'
    · refine { hsucc 0 with
        same := fun hc hwithin hlt => ?_
        cut := fun hc limit hlimit hle _ hlt => ?_ }
      · have hle := (hsucc 0).precedes.steps
        omega
      · omega
    · exact hsucc n'

/-- A round that goes on has evaluated the body. -/
theorem round_charges {test : Option (Eval σ Value)} {body : Eval σ Value} {w w' : World σ}
    (htest : ∀ t ∈ test, ∀ w, w.ledger.steps ≤ (reached (t w)).ledger.steps)
    (hbody : ∀ w, w.ledger.steps < (reached (body w)).ledger.steps)
    (h : round limits test body w = .ok true w') : w.ledger.steps < w'.ledger.steps := by
  obtain ⟨_, w₁, hcheck, h⟩ := exists_of_bind_eq_ok h
  obtain ⟨goesOn, w₂, htestOk, h⟩ := exists_of_bind_eq_ok h
  have hle₁ : w₁.ledger.steps = w.ledger.steps := by
    have hreached := ofRun_reached (Run.checkpoint limits) w
    rw [hcheck, Run.checkpoint_reached] at hreached
    exact congrArg Ledger.steps hreached
  have hle₂ : w₁.ledger.steps ≤ w₂.ledger.steps := by
    rcases test with _ | t
    · cases htestOk
      exact Nat.le_refl _
    · obtain ⟨a, w₃, ht, hboolean⟩ := exists_of_bind_eq_ok htestOk
      have hreached := ofExcept_reached (requireBoolean "loop condition" a) w₃
      rw [hboolean] at hreached
      have hle := htest t rfl w₁
      rw [ht] at hle
      rw [show w₂ = w₃ from hreached]
      exact hle
  cases goesOn with
  | false => cases h
  | true =>
    have hlt := hbody w₂
    have h : loopBody body w₂ = .ok true w' := h
    rw [loopBody_eq] at h
    rw [← reached_takeJump, h] at hlt
    exact Nat.lt_of_le_of_lt (hle₁ ▸ hle₂) hlt

end Eval

section Scripts

open Eval

variable (setting : Setting ι σ) (maxSteps : Option UInt64) {allowance allowance' : Nat}

theorem compatible_paces :
    Compatible setting (setting.withMaxSteps maxSteps) fun _ =>
      Paces Meter.evaluation setting.limits (setting.withMaxSteps maxSteps).limits allowance
        allowance' where
  pure a := ofExcept_paces (.ok a)
  bind := .bind
  ofExcept := ofExcept_paces
  readName name w := ofExcept_paces (w.scopes.get name) w
  define _ _ := kept_paces (fun _ => rfl) fun _ _ => nofun
  assign name value := by
    refine kept_paces (assign_reached name value) fun w w' h => ?_
    rw [assign_eq] at h
    cases hassign : w.scopes.assign name value <;> rw [hassign] at h <;> cases h
  call name args := ofRun_paces (Run.call_paces setting _ _ name args)
  checkpoint := ofRun_paces (.kept (fun l => Run.checkpoint_reached _ l) fun _ _ _ _ => id)
  checkScope w := ofRun_paces
    (.kept (fun l => Run.checkScopeDepth_reached _ w.scopes.depth l) fun _ _ _ _ => id) w
  framed := framed_paces
  loopBody := loopBody_paces

theorem congruence_paces (allowance allowance' : Nat) :
    Congruence setting (setting.withMaxSteps maxSteps) allowance allowance' Eq
      (fun _ => Paces Meter.evaluation setting.limits (setting.withMaxSteps maxSteps).limits
        allowance allowance')
      (fun x y => Paces Meter.evaluation setting.limits (setting.withMaxSteps maxSteps).limits
        allowance allowance' x y ∧
        ∀ w : World σ, w.ledger.steps < (reached (x w)).ledger.steps) where
  toCompatible := compatible_paces setting maxSteps
  deeper hd := congrArg Nat.succ hd
  enter {d _ x _} hd hx := by
    subst hd
    have henter : Paces Meter.evaluation setting.limits (setting.withMaxSteps maxSteps).limits
        allowance allowance' (enter setting d) (enter (setting.withMaxSteps maxSteps) d) :=
      (ofRun_paces (Run.charge_paces _ _)).bind fun _ =>
        ofRun_paces (.kept (fun l => Run.checkExpressionDepth_reached _ d l) fun _ _ _ _ => id)
    refine ⟨henter.bind fun _ => hx, fun w => ?_⟩
    have hcharged := enter_reached setting d w
    rcases hr : enter setting d w with ⟨⟨⟩, w₁⟩ | ⟨e, w₁⟩ <;> rw [hr] at hcharged
    · rw [bind_of_ok hr]
      refine Nat.lt_of_lt_of_le ?_ (hx w₁).precedes.steps
      rw [show w₁ = _ from hcharged]
      exact Nat.lt_succ_self _
    · rw [bind_of_error hr, reached_error, show w₁ = _ from hcharged]
      exact Nat.lt_succ_self _
  weaken := And.left
  repeatWhile part part' test body body' htest hbody w := by
    have hround := (compatible_paces setting maxSteps).round part part' test body body'
      (fun t ht => (htest t ht).1) hbody.1
    refine (repeatWhile_paced hround (fun w w' => round_charges ?_ hbody.2) allowance allowance'
      w).mono ?_ ?_
    · intro t ht w
      obtain ⟨e, he, rfl⟩ := Option.map_eq_some_iff.mp ht
      exact Nat.le_of_lt ((htest e he).2 w)
    · omega
    · omega

end Scripts

/-- A script under some limits, and under another limit of steps. -/
theorem interpret_paced (setting : Setting ι σ) (maxSteps : Option UInt64)
    (allowance allowance' : Nat) (script : Script) (bindings : Table Value) (l : Ledger σ) :
    Paced .evaluation setting.limits (setting.withMaxSteps maxSteps).limits allowance allowance' l
      (interpret setting allowance script bindings l)
      (interpret (setting.withMaxSteps maxSteps) allowance' script bindings l) :=
  (congruence_paces setting maxSteps allowance allowance').evalStatements
    (fun _ => Eval.kept_paces (fun _ => rfl) fun _ _ => nofun) rfl .null script.statements
    ⟨globalsOf bindings, l⟩

/-! ### Programs -/

section Programs

variable {limits limits' : Limits} {allowance allowance' : Nat}

theorem Machine.ofRun_eq_carry (x : Run σ α) (m : Machine σ) :
    ofRun x m = carry m.withLedger id (x m.ledger) := by
  obtain ⟨pc, stack, frames, globals, loops, ledger⟩ := m
  simp only [ofRun]
  cases x ledger <;> rfl

theorem Machine.ofRun_paces {x y : Run σ α}
    (h : Paces .run limits limits' allowance allowance' x y) :
    Paces .instruction limits limits' allowance allowance' (ofRun x) (ofRun y) := by
  intro m
  rw [ofRun_eq_carry, ofRun_eq_carry]
  exact (h m.ledger).carry (fun _ => rfl) (fun _ => id) (fun _ => id) fun _ => rfl

variable (setting : Setting ι σ) (maxSteps : Option UInt64)

theorem compatible_machine_paces :
    Machine.Compatible setting (setting.withMaxSteps maxSteps) fun _ =>
      Paces Meter.instruction setting.limits (setting.withMaxSteps maxSteps).limits allowance
        allowance' where
  aside {_ x y} h := by
    rw [h.eq]
    exact .kept h.kept fun _ _ _ _ => id
  bind := .bind
  call name args := Machine.ofRun_paces (Run.call_paces setting _ _ name args)
  checkpoint := Machine.ofRun_paces (.kept (fun l => Run.checkpoint_reached _ l) fun _ _ _ _ => id)
  checkFrames m := Machine.ofRun_paces
    (.kept (fun l => Run.checkScopeDepth_reached _ (m.frames.length + 2) l) fun _ _ _ _ => id) m

theorem step_paces (program : Program) (op : Op) :
    Paces .instruction setting.limits (setting.withMaxSteps maxSteps).limits allowance allowance'
      (Machine.step setting program op)
      (Machine.step (setting.withMaxSteps maxSteps) program op) := by
  rw [Machine.step_eq, Machine.step_eq]
  exact (Machine.ofRun_paces (Run.charge_paces _ _)).bind fun _ =>
    (Paces.kept (fun _ => rfl) fun _ _ _ _ => id).bind fun _ =>
      (compatible_machine_paces setting maxSteps).perform program op

/-- An instruction charges a step, whatever comes of it. -/
theorem step_charges (program : Program) (op : Op) (m : Machine σ) :
    m.ledger.steps < (reached (Machine.step setting program op m)).ledger.steps := by
  have hcharge := Run.charge_reached setting.limits m.ledger
  rw [Machine.step_eq]
  rcases hr : Run.charge setting.limits m.ledger with ⟨⟨⟩, l⟩ | ⟨e, l⟩ <;> rw [hr] at hcharge
  · have hrest : Paces Meter.instruction setting.limits (setting.withMaxSteps none).limits 0 0
        (Machine.advance >>= fun _ => Machine.perform setting program op)
        (Machine.advance >>= fun _ => Machine.perform (setting.withMaxSteps none) program op) :=
      (Paces.kept (fun _ => rfl) fun _ _ _ _ => id).bind fun _ =>
        (compatible_machine_paces setting none).perform program op
    rw [bind_of_ok (Machine.ofRun_of_ok hr)]
    refine Nat.lt_of_lt_of_le ?_ (hrest _).precedes.steps
    rw [show l = _ from hcharge]
    exact Nat.lt_succ_self _
  · rw [bind_of_error (Machine.ofRun_of_error hr), reached_error, show l = _ from hcharge]
    exact Nat.lt_succ_self _

/-- Where there is an instruction, an execution is that instruction and the rest. -/
theorem Machine.execute_succ {program : Program} {m : Machine σ} {op : Op}
    (hop : program.code[m.pc]? = some op) (n : Nat) :
    execute setting program (n + 1) m =
      ((fun m => carry id Halt.fail (step setting program op m)) >>= fun _ =>
        execute setting program n : EStateM Halt (Machine σ) Value) m := by
  simp only [execute, hop, bind, EStateM.bind]
  rcases step setting program op m with ⟨⟨⟩, m₁⟩ | ⟨e, m₁⟩ <;> rfl

/-- An execution of so many instructions uses them up only after so many steps. -/
theorem execute_paced (program : Program) (n n' : Nat) (m : Machine σ) :
    Paced .execution setting.limits (setting.withMaxSteps maxSteps).limits (m.ledger.steps + n)
      (m.ledger.steps + n') m.ledger (Machine.execute setting program n m)
      (Machine.execute (setting.withMaxSteps maxSteps) program n' m) := by
  induction n generalizing n' m with
  | zero =>
    refine ⟨.refl _, fun hwithin _ => hwithin, ?_, ?_, ?_, ?_⟩
    · exact fun hwithin limit hlimit => Nat.le_succ_of_le (hwithin limit hlimit)
    · rintro e m' ⟨⟩ -
      exact Nat.le_refl _
    · exact fun hc => absurd trivial hc
    · exact fun hc => absurd trivial hc
  | succ n ih =>
    have hsucc (n' : Nat) : Paced .execution setting.limits (setting.withMaxSteps maxSteps).limits
        (m.ledger.steps + (n + 1)) (m.ledger.steps + (n' + 1)) m.ledger
        (Machine.execute setting program (n + 1) m)
        (Machine.execute (setting.withMaxSteps maxSteps) program (n' + 1) m) := by
      rcases hop : program.code[m.pc]? with _ | op
      · simp only [Machine.execute, hop]
        exact .refl (.refl _) rfl fun _ _ h => by cases h
      · rw [Machine.execute_succ _ hop, Machine.execute_succ _ hop]
        refine Paced.bind ?_ fun _ m₁ hstep => ?_
        · exact (step_paces setting maxSteps program op m).carry (fun _ => rfl) (fun _ => id)
            (fun _ h => by cases h) fun _ => rfl
        · have hlt := step_charges setting program op m
          rcases hr : Machine.step setting program op m with ⟨⟨⟩, m₂⟩ | ⟨e, m₂⟩ <;>
            rw [hr] at hlt hstep <;> cases hstep
          have hlt : m.ledger.steps < m₂.ledger.steps := hlt
          refine (ih n' m₂).mono ?_ ?_ <;> omega
    rcases n' with _ | n'
    · refine { hsucc 0 with
        same := fun hc hwithin hlt => ?_
        cut := fun hc limit hlimit hle _ hlt => ?_ }
      · have hle := (hsucc 0).precedes.steps
        omega
      · omega
    · exact hsucc n'

end Programs

/-! ### Budgets -/

/-- With a limit the run ends, and has charged at most one step more than that. If it ends without
having run out of steps, then it has charged no more than the limit; with every budget that allows
as many steps it comes to the same result, and with every smaller limit it fails for that, having
written and called a first part of what it writes and calls with the larger one.

A run without a limit is followed as far as the horizon, so it needs one beyond the steps that the
run charges. -/
structure Threshold (M : Meter ε τ σ) (run : Budget → EStateM.Result ε τ α) : Prop where
  ends (b : Budget) (n : UInt64) : b.maxSteps = some n →
    (∀ e s, run b = .error e s → ¬ M.endless e) ∧
      (M.ledger (reached (run b))).steps ≤ n.toNat + 1
  within (b : Budget) (n : UInt64) : b.maxSteps = some n → Completes M.stopped (run b) →
    (M.ledger (reached (run b))).steps ≤ n.toNat
  same (b b' : Budget) : Completes M.stopped (run b) →
    (∀ m ∈ b'.maxSteps, (M.ledger (reached (run b))).steps ≤ m.toNat) →
    (b'.maxSteps = none → (M.ledger (reached (run b))).steps < b'.horizon) → run b' = run b
  cut (b b' : Budget) (m : UInt64) : Completes M.stopped (run b) → b'.maxSteps = some m →
    m.toNat < (M.ledger (reached (run b))).steps →
    ∃ s, run b' = .error (M.exhausted m.toNat) s ∧
      (M.ledger s).output.toList <+: (M.ledger (reached (run b))).output.toList ∧
      (M.ledger s).calls.toList <+: (M.ledger (reached (run b))).calls.toList

theorem Budget.allowance_of_limit {b : Budget} {n : UInt64} (h : b.maxSteps = some n) :
    b.allowance = n.toNat + 2 := by
  rw [Budget.allowance, h]

/-- Runs that start with no step charged and are paced have an exact threshold. -/
theorem Paced.threshold {M : Meter ε τ σ} (setting : Setting ι σ) {l : Ledger σ}
    {run : Budget → EStateM.Result ε τ α} (hl : l.steps = 0)
    (h : ∀ b b' : Budget, Paced M (setting.withMaxSteps b.maxSteps).limits
      (setting.withMaxSteps b'.maxSteps).limits b.allowance b'.allowance l (run b) (run b')) :
    Threshold M run where
  ends b n hn := by
    have hpaced := h b b
    have hwithin : (setting.withMaxSteps b.maxSteps).limits.Within l.steps := by
      rw [hl]
      exact fun _ _ => Nat.zero_le _
    have hbounded := hpaced.bounded hwithin n hn
    refine ⟨fun e s hr he => ?_, hbounded⟩
    have hle := hpaced.endless e s hr he
    rw [hr, reached_error] at hbounded
    rw [Budget.allowance_of_limit hn] at hle
    omega
  within b n hn hc := by
    refine (h b b).within ?_ hc n hn
    rw [hl]
    exact fun _ _ => Nat.zero_le _
  same b b' hc hlimit hhorizon := by
    refine (h b b').same hc hlimit ?_
    rcases hb' : b'.maxSteps with _ | m
    · rw [Budget.allowance, hb']
      exact hhorizon hb'
    · have hle := hlimit m hb'
      rw [Budget.allowance_of_limit hb']
      omega
  cut b b' m hc hm hlt := by
    have hallowance : m.toNat < b'.allowance := by
      rw [Budget.allowance_of_limit hm]
      omega
    obtain ⟨s, hr, hprecedes⟩ := (h b b').cut hc m hm (by omega) hlt hallowance
    exact ⟨s, hr, hprecedes.output, hprecedes.calls⟩

/-- For interpreted scripts and for executed programs, well formed or not, the limit of steps is an
exact threshold. -/
theorem steps_threshold (setting : Setting ι σ) (bindings : Table Value) (cancelled : Bool)
    (state : σ) :
    (∀ script : Script, Threshold .evaluation fun b =>
      interpret (setting.withMaxSteps b.maxSteps) b.allowance script bindings
        (.start cancelled state)) ∧
    ∀ program : Program, Threshold .execution fun b =>
      runProgram (setting.withMaxSteps b.maxSteps) b.allowance program bindings
        (.start cancelled state) := by
  refine ⟨fun script => ?_, fun program => ?_⟩
  · refine Paced.threshold setting (l := .start cancelled state) rfl fun b b' => ?_
    exact interpret_paced (setting.withMaxSteps b.maxSteps) b'.maxSteps b.allowance b'.allowance
      script bindings (.start cancelled state)
  · refine Paced.threshold setting (l := .start cancelled state) rfl fun b b' => ?_
    have hpaced := execute_paced (setting.withMaxSteps b.maxSteps) b'.maxSteps program b.allowance
      b'.allowance (Machine.start bindings (.start cancelled state))
    exact hpaced.mono (by omega) (by omega)

end Covenant
