/-!
# Computations with a state that may fail

Runs, evaluations and executions are computations on a state that keep the state reached when they
fail. Here is what is needed to compare two of them: the state that a result has reached, a result
with another state, and computations that follow each other along a map between their states.

## Main definitions

* `reached`, `mapState` : the state in a result.
* `settle` : a change of the state that is made as a whole or not at all.
* `Follows` : a computation that does the same as another, seen through a map of states.
* `Keeps` : a computation that keeps an invariant as long as it succeeds.
-/

namespace Covenant

variable {ε α β τ τ' : Type}

/-- What two computations that may fail give one after the other. -/
theorem bind_eq_ok_iff {x : Except ε α} {f : α → Except ε β} {b : β} :
    (x >>= f) = .ok b ↔ ∃ a, x = .ok a ∧ f a = .ok b := by
  cases x with
  | error e => exact ⟨fun h => (nomatch h), fun ⟨_, h, _⟩ => (nomatch h)⟩
  | ok a =>
    refine ⟨fun h => ⟨a, rfl, h⟩, ?_⟩
    rintro ⟨_, ⟨⟩, h⟩
    exact h

theorem map_eq_ok_iff {x : Except ε α} {f : α → β} {b : β} :
    x.map f = .ok b ↔ ∃ a, x = .ok a ∧ f a = b := by
  cases x <;> simp [Except.map]

/-- A result that passes a check is there. -/
theorem exists_ok_of_check {x : Except ε α} {check : α → Bool}
    (h : x.toOption.any check = true) : ∃ a, x = .ok a ∧ check a = true := by
  cases x with
  | error e => cases h
  | ok a => exact ⟨a, rfl, h⟩

theorem exists_ok_iff_check {x : Except ε α} {check : α → Bool} :
    (∃ a, x = .ok a ∧ check a = true) ↔ x.toOption.any check = true := by
  refine ⟨?_, exists_ok_of_check⟩
  rintro ⟨a, rfl, hcheck⟩
  exact hcheck

/-- The state that a computation has reached, however it ended. -/
def reached : EStateM.Result ε τ α → τ
  | .ok _ s | .error _ s => s

@[simp] theorem reached_ok (a : α) (s : τ) : reached (.ok a s : EStateM.Result ε τ α) = s := rfl

@[simp] theorem reached_error (e : ε) (s : τ) :
    reached (.error e s : EStateM.Result ε τ α) = s := rfl

/-- A result with another state. -/
def mapState (f : τ → τ') : EStateM.Result ε τ α → EStateM.Result ε τ' α
  | .ok a s => .ok a (f s)
  | .error e s => .error e (f s)

@[simp] theorem mapState_ok (f : τ → τ') (a : α) (s : τ) :
    mapState f (.ok a s : EStateM.Result ε τ α) = .ok a (f s) := rfl

@[simp] theorem mapState_error (f : τ → τ') (e : ε) (s : τ) :
    mapState f (.error e s : EStateM.Result ε τ α) = .error e (f s) := rfl

@[simp] theorem reached_mapState (f : τ → τ') (r : EStateM.Result ε τ α) :
    reached (mapState f r) = f (reached r) := by
  cases r <;> rfl

theorem bind_of_ok {x : EStateM ε τ α} {f : α → EStateM ε τ β} {s s' : τ} {a : α}
    (h : x s = .ok a s') : (x >>= f) s = f a s' := by
  simp only [bind, EStateM.bind, h]

theorem bind_of_error {x : EStateM ε τ α} {f : α → EStateM ε τ β} {s s' : τ} {e : ε}
    (h : x s = .error e s') : (x >>= f) s = .error e s' := by
  simp only [bind, EStateM.bind, h]

/-- Two computations one after the other succeed if both do. -/
theorem exists_of_bind_eq_ok {x : EStateM ε τ α} {f : α → EStateM ε τ β} {s s' : τ} {b : β}
    (h : (x >>= f) s = .ok b s') : ∃ a s₁, x s = .ok a s₁ ∧ f a s₁ = .ok b s' := by
  rcases hr : x s with ⟨a, s₁⟩ | ⟨e, s₁⟩
  · rw [bind_of_ok hr] at h
    exact ⟨a, s₁, rfl, h⟩
  · rw [bind_of_error hr] at h
    cases h

theorem get_bind (f : τ → EStateM ε τ β) (s : τ) : (get >>= f) s = f s s := rfl

/-- The result of a check, which leaves the state as it is. -/
def ofResult (result : Except ε α) : EStateM ε τ α :=
  fun s =>
    match result with
    | .ok a => .ok a s
    | .error e => .error e s

theorem ofResult_bind (result : Except ε α) (f : α → EStateM ε τ β) (s : τ) :
    (ofResult result >>= f) s =
      match result with
      | .ok a => f a s
      | .error e => .error e s := by
  cases result <;> rfl

/-- A change of the state that is made as a whole or not at all. -/
def settle (change : τ → Except ε τ) : EStateM ε τ Unit :=
  fun s =>
    match change s with
    | .ok s' => .ok () s'
    | .error e => .error e s

theorem settle_eq_ok_iff {change : τ → Except ε τ} {s s' : τ} :
    settle change s = .ok () s' ↔ change s = .ok s' := by
  unfold settle
  split <;> rename_i h <;> simp [h]

/-- A change that fails leaves the state as it is. -/
theorem eq_of_settle_eq_error {change : τ → Except ε τ} {s s' : τ} {e : ε}
    (h : settle change s = .error e s') : s' = s := by
  unfold settle at h
  split at h <;> cases h
  rfl

/-- From every state seen through `f`, the second computation does what the first one does. -/
def Follows (f : τ → τ') (x : EStateM ε τ α) (x' : EStateM ε τ' α) : Prop :=
  ∀ s, x' (f s) = mapState f (x s)

namespace Follows

variable {f : τ → τ'} {x : EStateM ε τ α} {x' : EStateM ε τ' α}

theorem pure (a : α) : Follows f (pure a : EStateM ε τ α) (pure a) := fun _ => rfl

theorem throw (e : ε) : Follows f (throw e : EStateM ε τ α) (throw e) := fun _ => rfl

theorem bind {g : α → EStateM ε τ β} {g' : α → EStateM ε τ' β} (hx : Follows f x x')
    (hg : ∀ a, Follows f (g a) (g' a)) : Follows f (x >>= g) (x' >>= g') := by
  intro s
  have h := hx s
  cases hs : x s with
  | ok a s₁ =>
    rw [hs] at h
    rw [bind_of_ok h, bind_of_ok hs]
    exact hg a s₁
  | error e s₁ =>
    rw [hs] at h
    rw [bind_of_error h, bind_of_error hs]
    rfl

end Follows

/-- A result whose state meets the invariant if it is a value, and the condition of its error
otherwise. -/
def Meets (P : τ → Prop) (Q : ε → τ → Prop) : EStateM.Result ε τ α → Prop
  | .ok _ s => P s
  | .error e s => Q e s

/-- From every state that meets the invariant, the computation keeps it or meets the condition of
its error. -/
def Keeps (P : τ → Prop) (Q : ε → τ → Prop) (x : EStateM ε τ α) : Prop :=
  ∀ s, P s → Meets P Q (x s)

namespace Keeps

variable {P : τ → Prop} {Q : ε → τ → Prop}

theorem pure (a : α) : Keeps P Q (pure a : EStateM ε τ α) := fun _ hs => hs

theorem imp {Q' : ε → τ → Prop} {x : EStateM ε τ α} (hx : Keeps P Q x)
    (hQ : ∀ e s, Q e s → Q' e s) : Keeps P Q' x := by
  intro s hs
  have h := hx s hs
  cases hr : x s with
  | ok a s₁ =>
    rw [hr] at h
    exact h
  | error e s₁ =>
    rw [hr] at h
    exact hQ e s₁ h

theorem bind {x : EStateM ε τ α} {g : α → EStateM ε τ β} (hx : Keeps P Q x)
    (hg : ∀ a, Keeps P Q (g a)) : Keeps P Q (x >>= g) := by
  intro s hs
  have h := hx s hs
  cases hr : x s with
  | ok a s₁ =>
    rw [hr] at h
    rw [bind_of_ok hr]
    exact hg a s₁ h
  | error e s₁ =>
    rw [hr] at h
    rw [bind_of_error hr]
    exact h

end Keeps

end Covenant
