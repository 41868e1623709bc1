import Covenant.Proofs.Constructs

/-!
# Blocks, jumps and repetitions in code

A block opens a frame for what it declares. A jump drops all that has been put on the stack and all
frames opened since the innermost loop began, where evaluation leaves the constructs between one by
one; both get to the same place. A repetition takes the jumps of its body.

## Main definitions

* `Site.loopRecord`, `Site.inLoop`, `Site.loopTarget` : a loop that begins at a place.

## Main results

* `Computes.inTurn` : items drop the value before them.
* `Computes.block` : a frame is opened and closed.
* `Computes.jump` : a jump reaches the loop around it.
* `Computes.loop` : a repetition, given what its rounds do.
-/

namespace Covenant

open Eval

variable {ι σ α : Type} {setting : Setting ι σ} {program : Program} {rounds : Nat}
  {target : Option Target} {site : Site} {base mid last : Nat} {stack : List Value}

/-! ### Checks of limits -/

/-- A checkpoint fails or not, whatever the count of steps. -/
theorem Run.checkpoint_cases (limits : Limits) (l : Ledger σ) :
    (∀ k, checkpoint limits (l.withSteps k) = .ok () (l.withSteps k)) ∨
    ∃ e, ∀ k, checkpoint limits (l.withSteps k) = .error e (l.withSteps k) := by
  unfold checkpoint
  cases hcancelled : l.cancelled with
  | true => exact .inr ⟨.cancelled, fun k => by simp [hcancelled]⟩
  | false =>
    cases hexpired : limits.expired? with
    | none => exact .inl fun k => by simp [hcancelled]
    | some limit => exact .inr ⟨.exhausted .time limit.toNat, fun k => by simp [hcancelled]⟩

/-- Too many frames are open or not, whatever else is on the ledger. -/
theorem Run.checkScopeDepth_cases (limits : Limits) (depth : Nat) :
    (∀ l : Ledger σ, checkScopeDepth limits depth l = .ok () l) ∨
    ∃ e, ∀ l : Ledger σ, checkScopeDepth limits depth l = .error e l := by
  unfold checkScopeDepth
  split
  · exact .inr ⟨_, fun _ => rfl⟩
  · exact .inl fun _ => rfl

/-! ### Blocks -/

/-- Items are computed in turn, and each drops the value before it. -/
theorem Computes.inTurn (hfree : setting.limits.maxSteps = none) {items : List Expr}
    {part : Expr → Eval σ Value} {S₀ S S' : Scopes UInt16}
    (hstatic : ∀ e ∈ items, ∀ S base last S',
      CodeOf program S base e.payload last S' → S' = S)
    (hitems : ∀ e ∈ items, ∀ S base last S', S₀.Widens S → CodeOf program S base e last S' →
      (∀ capacity ∈ site.capacities.head?, S'.localCount ≤ capacity) →
      Computes setting program rounds target { site with scopes := S } { site with scopes := S' }
        base last stack (part e))
    (hcode : CodeOfRest program S base items last S') (hS : S₀.Widens S)
    (hroom : ∀ capacity ∈ site.capacities.head?, S'.localCount ≤ capacity) (v : Value)
    {w : World σ} {m : Machine σ} (h : Stands { site with scopes := S } base (v :: stack) w m) :
    Answers setting program rounds (fun v => Stands { site with scopes := S' } last (v :: stack))
      (Jumped target site.depth) m (Eval.inTurn v (items.map part) w) := by
  induction items generalizing S base v w m with
  | nil =>
    cases hcode
    exact .value h
  | cons e rest ih =>
    cases hcode with
    | cons hpop hhead htail =>
      rw [List.forall_mem_cons] at hstatic hitems
      have hwidens := hhead.widens hstatic.1
      have hwidens' := htail.widens hstatic.2
      have hroom₁ (capacity : Nat) (hcapacity : capacity ∈ site.capacities.head?) :=
        Nat.le_trans hwidens'.localCount (hroom capacity hcapacity)
      refine .goto hfree h hpop (fun _ => rfl) fun m₁ h₁ => ?_
      refine (hitems.1 _ _ _ _ hS hhead hroom₁ w m₁ h₁).bind fun v' w₂ m₂ h₂ => ?_
      exact ih hstatic.2 hitems.2 htail (hS.trans hwidens) v' h₂

/-- A jump out of a block closes its frame. -/
theorem Jumped.pop {depth : Nat} {j : Jump} {w : World σ} {m : Machine σ}
    (htarget : ∀ t ∈ target, t.site.depth ≤ depth) (h : Jumped target (depth + 1) j w m) :
    Jumped target depth j ⟨w.scopes.pop, w.ledger⟩ m := by
  obtain ⟨t, ht, n, hn, hstands⟩ := h
  have hle := htarget t ht
  obtain ⟨n, rfl⟩ : ∃ k, n = k + 1 := ⟨n - 1, by omega⟩
  refine ⟨t, ht, n, by omega, ?_⟩
  have houtward : World.outward ⟨w.scopes.pop, w.ledger⟩ n = w.outward (n + 1) := by
    simp only [World.outward, Scopes.pop, List.drop_tail]
  rwa [houtward]

/-- Opening a frame is a checkpoint, a check of the number of frames, and a new frame. -/
theorem Machine.perform_enterScope (slots : UInt16) (m : Machine σ) :
    perform setting program (.enterScope slots) m =
      (ofRun (Run.checkpoint setting.limits) >>= fun _ =>
        ofRun (Run.checkScopeDepth setting.limits (m.frames.length + 2)) >>= fun _ =>
          openFrame slots.toNat) m := by
  obtain ⟨pc, stack, frames, globals, loops, ledger⟩ := m
  rw [perform]
  obtain hcheck | ⟨e, hcheck⟩ := Run.checkpoint_cases setting.limits ledger
  · have hpoint : ofRun (Run.checkpoint setting.limits)
        ⟨pc, stack, frames, globals, loops, ledger⟩ =
        .ok () ⟨pc, stack, frames, globals, loops, ledger⟩ := ofRun_of_ok (hcheck ledger.steps)
    rw [bind_of_ok hpoint, bind_of_ok hpoint]
    rfl
  · have hpoint : ofRun (Run.checkpoint setting.limits)
        ⟨pc, stack, frames, globals, loops, ledger⟩ =
        .error e ⟨pc, stack, frames, globals, loops, ledger⟩ :=
      ofRun_of_error (hcheck ledger.steps)
    rw [bind_of_error hpoint, bind_of_error hpoint]

/-- Closing a frame leads back to the place of the block. -/
theorem Stands.exitScope (hfree : setting.limits.maxSteps = none) {capacity : Nat}
    {S' : Scopes UInt16} {w : World σ} {m : Machine σ} (hexit : program.At last .exitScope)
    (hpop : S'.pop = site.scopes)
    (h : Stands { site.push capacity with scopes := S' } last stack w m) :
    ∃ n m', Steps setting program n m m' ∧
      Stands site (last + 1) stack ⟨w.scopes.pop, w.ledger⟩ m' := by
  have hat : program.At m.pc .exitScope := by rwa [h.pc]
  obtain ⟨values, rest, hframes, hscopes⟩ := h.scopes.pop
  have hperform : Machine.perform setting program .exitScope m.next = .ok () ⟨last + 1, stack, rest,
      m.globals, site.loops, w.ledger.withSteps (m.ledger.steps + 1)⟩ := by
    rw [h.next_eq, hframes]
    rfl
  rw [hpop] at hscopes
  exact ⟨1, _, .one hfree hat hperform, ⟨rfl, rfl, rfl, hscopes, rfl⟩⟩

theorem Computes.block (hfree : setting.limits.maxSteps = none) {slots : UInt16}
    {S' : Scopes UInt16} {x : Eval σ Value} (henter : program.At base (.enterScope slots))
    (hx : Computes setting program rounds target (site.push slots.toNat)
      { site.push slots.toNat with scopes := S' } (base + 1) last stack x)
    (hexit : program.At last .exitScope) (hpop : S'.pop = site.scopes)
    (htarget : ∀ t ∈ target, t.site.depth ≤ site.depth) :
    Computes setting program rounds target site site base (last + 1) stack
      (inScope setting.limits x) := by
  intro w m h
  have hat : program.At m.pc (.enterScope slots) := by rwa [h.pc]
  have hperform : Machine.perform setting program (.enterScope slots) m.next = _ :=
    Machine.perform_enterScope slots m.next
  rw [h.next_eq] at hperform
  rw [inScope_eq]
  obtain hcheck | ⟨e, hcheck⟩ := Run.checkpoint_cases setting.limits w.ledger
  · have hpoint : ofRun (Run.checkpoint setting.limits) w = .ok () w :=
      ofRun_of_ok (hcheck w.ledger.steps)
    rw [bind_of_ok hpoint]
    rw [bind_of_ok (Machine.ofRun_of_ok (hcheck _))] at hperform
    have hdepth : w.scopes.push.depth = m.frames.length + 2 := by
      rw [h.scopes.inner.length_frames, ← h.scopes.inner.length_scopes]
      rfl
    refine Answers.mapState (fun _ => rfl) ?_
    obtain hframes | ⟨e, hframes⟩ :=
      Run.checkScopeDepth_cases setting.limits w.scopes.push.depth
    · have hcheckScope : checkScope setting.limits ⟨w.scopes.push, w.ledger⟩ =
          .ok () ⟨w.scopes.push, w.ledger⟩ :=
        ofRun_of_ok (w := ⟨w.scopes.push, w.ledger⟩) (hframes w.ledger)
      rw [hdepth] at hframes
      rw [bind_of_ok (Machine.ofRun_of_ok (hframes _))] at hperform
      rw [bind_of_ok hcheckScope]
      refine .after (.one hfree hat (by rw [h.next_eq]; exact hperform)) ?_
      have hanswers := hx ⟨w.scopes.push, w.ledger⟩ ⟨base + 1, stack,
        Array.replicate slots.toNat .null :: m.frames, m.globals, site.loops,
        w.ledger.withSteps (m.ledger.steps + 1)⟩ ⟨rfl, rfl, rfl, h.scopes.push _, rfl⟩
      exact (hanswers.onward fun v w₁ m₁ h₁ => h₁.exitScope hfree hexit hpop).mono
        (Nat.le_refl _) (fun _ _ _ => id) fun _ _ _ hjump => hjump.pop htarget
    · have hcheckScope : checkScope setting.limits ⟨w.scopes.push, w.ledger⟩ =
          .error (.fail e) ⟨w.scopes.push, w.ledger⟩ :=
        ofRun_of_error (w := ⟨w.scopes.push, w.ledger⟩) (hframes w.ledger)
      rw [hdepth] at hframes
      rw [bind_of_error (Machine.ofRun_of_error (hframes _))] at hperform
      rw [bind_of_error hcheckScope]
      exact .fail (.one hfree hat (by rw [h.next_eq]; exact hperform)) rfl rfl
  · rw [bind_of_error (ofRun_of_error (hcheck w.ledger.steps))]
    rw [bind_of_error (Machine.ofRun_of_error (hcheck _))] at hperform
    exact .fail (.one hfree hat (by rw [h.next_eq]; exact hperform)) rfl rfl

/-! ### Jumps -/

theorem Machine.perform_jump (j : Jump) (pc : Nat) (frames : List (Array Value))
    (globals : Frame Value) (record : LoopRecord) (outer : List LoopRecord) (ledger : Ledger σ) :
    perform setting program j.op ⟨pc, stack, frames, globals, record :: outer, ledger⟩ =
      .ok () ⟨record.offset j, stack.drop (stack.length - record.stackSize),
        frames.drop (frames.length - record.frameCount), globals, record :: outer, ledger⟩ := by
  cases j <;> rfl

/-- A jump reaches the loop around it. -/
theorem Computes.jump (hfree : setting.limits.maxSteps = none) {j : Jump} {site' : Site}
    {t : Target} (ht : t ∈ target) (hencloses : t.Encloses site stack)
    (hop : program.At base j.op) :
    Computes setting program rounds target site site' base last stack (throw (.jump j)) := by
  intro w m h
  obtain ⟨⟨outer, hloops⟩, hsuffix, hsize, hcount, n, hn, hsite⟩ := hencloses
  have hat : program.At m.pc j.op := by rwa [h.pc]
  have hstack : stack.drop (stack.length - t.record.stackSize) = t.stack := by
    rw [hsize]
    exact (List.suffix_iff_eq_drop.mp hsuffix).symm
  have hframes : m.frames.length - t.record.frameCount = n := by
    have hlength : m.frames.length = site.depth := h.scopes.inner.length_frames
    omega
  have hperform : Machine.perform setting program j.op m.next = .ok () ⟨t.record.offset j, t.stack,
      m.frames.drop n, m.globals, site.loops, w.ledger.withSteps (m.ledger.steps + 1)⟩ := by
    rw [h.next_eq, hloops, Machine.perform_jump, hstack, hframes]
  refine ⟨1, _, .one hfree hat hperform, t, ht, n, hn, ?_⟩
  rw [hsite]
  exact ⟨rfl, rfl, rfl, h.scopes.drop n, rfl⟩

/-! ### Repetitions -/

/-- The record of a loop that begins at a place. -/
def Site.loopRecord (site : Site) (stack : List Value) (start done : Nat) : LoopRecord :=
  ⟨stack.length, site.depth, start, done⟩

/-- Inside a loop that begins at a place. -/
def Site.inLoop (site : Site) (stack : List Value) (start done : Nat) : Site :=
  { site with loops := site.loopRecord stack start done :: site.loops }

/-- A loop that begins at a place, for the code in it. -/
def Site.loopTarget (site : Site) (stack : List Value) (start done : Nat) : Target :=
  ⟨site.inLoop stack start done, stack, site.loopRecord stack start done⟩

theorem Site.loopTarget_encloses (site : Site) (stack : List Value) (start done : Nat) :
    (site.loopTarget stack start done).Encloses (site.inLoop stack start done) stack where
  loops := ⟨site.loops, rfl⟩
  suffix := List.suffix_rfl
  stackSize := rfl
  frameCount := rfl
  site := ⟨0, (Nat.zero_add _).symm, rfl⟩

/-- A jump that gets to a loop from the place where it began leads to an offset of the loop, with
nothing closed on the way. -/
theorem Jumped.stands {start done : Nat} {j : Jump} {w : World σ} {m : Machine σ}
    (h : Jumped (some (site.loopTarget stack start done)) site.depth j w m) :
    Stands (site.inLoop stack start done) ((site.loopRecord stack start done).offset j) stack w
      m := by
  obtain ⟨t, ⟨⟩, n, hn, hstands⟩ := h
  have hzero : n = 0 := by
    have hdepth : (site.loopTarget stack start done).site.depth = site.depth := rfl
    omega
  rw [hzero] at hstands
  exact hstands

theorem Stands.jumped {start done : Nat} {j : Jump} {w : World σ} {m : Machine σ}
    (h : Stands (site.inLoop stack start done) ((site.loopRecord stack start done).offset j) stack w
      m) : Jumped (some (site.loopTarget stack start done)) site.depth j w m :=
  ⟨_, rfl, 0, (Nat.zero_add _).symm, h⟩

/-- A loop takes the jumps of its body. -/
theorem Answers.loopBody {Q : α → World σ → Machine σ → Prop}
    {J J' : Jump → World σ → Machine σ → Prop} {Q' : Bool → World σ → Machine σ → Prop}
    {x : Eval σ α} {w : World σ} {m : Machine σ}
    (h : Answers setting program rounds Q J m (x w))
    (hvalue : ∀ a w m₁, Q a w m₁ → ∃ n m₂, Steps setting program n m₁ m₂ ∧ Q' true w m₂)
    (hcontinue : ∀ w m, J .continue_ w m → Q' true w m)
    (hbreak : ∀ w m, J .break_ w m → Q' false w m) :
    Answers setting program rounds Q' J' m (Eval.loopBody x w) := by
  rw [loopBody_eq]
  rcases hr : x w with ⟨a, w₁⟩ | ⟨j | e | _, w₁⟩ <;> rw [hr] at h
  · obtain ⟨n, m₁, hsteps, hq⟩ := h
    obtain ⟨k, m₂, hsteps', hq'⟩ := hvalue a w₁ m₁ hq
    exact ⟨n + k, m₂, hsteps.trans hsteps', hq'⟩
  · obtain ⟨n, m₁, hsteps, hj⟩ := h
    cases j with
    | continue_ => exact ⟨n, m₁, hsteps, hcontinue w₁ m₁ hj⟩
    | break_ => exact ⟨n, m₁, hsteps, hbreak w₁ m₁ hj⟩
  · exact h
  · exact h

/-- The body of a loop drops its value and goes to the beginning of the loop. -/
theorem Computes.loopBody (hfree : setting.limits.maxSteps = none) {start : UInt32} {done : Nat}
    {x : Eval σ Value}
    (hx : Computes setting program rounds (some (site.loopTarget stack start.toNat done))
      (site.inLoop stack start.toNat done) (site.inLoop stack start.toNat done) mid last stack x)
    (hpop : program.At last .pop) (hjump : program.At (last + 1) (.jump start))
    {J : Jump → World σ → Machine σ → Prop} {w : World σ} {m : Machine σ}
    (h : Stands (site.inLoop stack start.toNat done) mid stack w m) :
    Answers setting program rounds
      (fun goesOn => Stands (site.inLoop stack start.toNat done)
        (if goesOn then start.toNat else done) stack) J m (Eval.loopBody x w) := by
  refine (hx w m h).loopBody (fun v w₁ m₁ h₁ => ?_) (fun _ _ hj => hj.stands)
    fun _ _ hj => hj.stands
  have hat : program.At m₁.pc .pop := by rwa [h₁.pc]
  have hperform : Machine.perform setting program .pop m₁.next = .ok () ⟨last + 1, stack, m₁.frames,
      m₁.globals, (site.inLoop stack start.toNat done).loops,
      w₁.ledger.withSteps (m₁.ledger.steps + 1)⟩ := by
    rw [h₁.next_eq]
    rfl
  exact ⟨2, _, (Steps.one hfree hat hperform).trans (.one hfree hjump rfl),
    ⟨rfl, rfl, rfl, h₁.scopes, rfl⟩⟩

/-- Every round begins with a checkpoint, and so takes one instruction at least. -/
theorem Answers.repeatWhile (hfree : setting.limits.maxSteps = none) {start done : Nat}
    {J : Jump → World σ → Machine σ → Prop} {x : Eval σ Bool}
    (htick : program.At start .tick)
    (hx : ∀ w m, Stands site (start + 1) stack w m → Answers setting program rounds
      (fun goesOn => Stands site (if goesOn then start else done) stack) J m (x w))
    {n : Nat} (hn : n ≤ rounds) {w : World σ} {m : Machine σ} (h : Stands site start stack w m) :
    Answers setting program n (fun _ => Stands site done stack) J m
      (Eval.repeatWhile (ofRun (Run.checkpoint setting.limits) >>= fun _ => x) n w) := by
  induction n generalizing w m with
  | zero => exact ⟨0, m, Nat.le_refl 0, .refl m⟩
  | succ n ih =>
    have hat : program.At m.pc .tick := by rwa [h.pc]
    rw [Eval.repeatWhile, bind_assoc]
    obtain hcheck | ⟨e, hcheck⟩ := Run.checkpoint_cases setting.limits w.ledger
    · have hpoint : ofRun (Run.checkpoint setting.limits) w = .ok () w :=
        ofRun_of_ok (hcheck w.ledger.steps)
      have htick' : Run.checkpoint setting.limits m.next.ledger = .ok () m.next.ledger := by
        rw [h.next.ledger]
        exact hcheck _
      have hperform : Machine.perform setting program .tick m.next = .ok () m.next :=
        Machine.ofRun_of_ok htick'
      rw [bind_of_ok hpoint]
      refine .afterRounds (.one hfree hat hperform) ?_
      refine ((hx w m.next h.next).mono (by omega) (fun _ _ _ => id) fun _ _ _ => id).bind
        fun goesOn w₁ m₁ h₁ => ?_
      cases goesOn with
      | true => exact ih (by omega) h₁
      | false => exact .ok h₁
    · rw [bind_of_error (ofRun_of_error (hcheck w.ledger.steps))]
      have htick' : Run.checkpoint setting.limits m.next.ledger = .error e m.next.ledger := by
        rw [h.next.ledger]
        exact hcheck _
      have hperform : Machine.perform setting program .tick m.next = .error e m.next :=
        Machine.ofRun_of_error htick'
      exact .fail (.one hfree hat hperform) rfl h.next.ledger

/-- A repetition, given what its rounds do behind the checkpoint. -/
theorem Computes.loop (hfree : setting.limits.maxSteps = none) {start done i : UInt32}
    {x : Eval σ Bool} (henter : program.At base (.loopEnter start done))
    (htick : program.At (base + 1) .tick) (hexit : program.At (last + 2) .loopExit)
    (hnull : program.At (last + 3) (.constant i)) (hpool : program.Pools i .null)
    (hstart : start.toNat = base + 1) (hdone : done.toNat = last + 2)
    (hx : ∀ w m, Stands (site.inLoop stack start.toNat done.toNat) (base + 2) stack w m →
      Answers setting program rounds
        (fun goesOn => Stands (site.inLoop stack start.toNat done.toNat)
          (if goesOn then start.toNat else done.toNat) stack) (Jumped target site.depth) m (x w)) :
    Computes setting program rounds target site site base (last + 4) stack
      (Eval.repeatWhile (ofRun (Run.checkpoint setting.limits) >>= fun _ => x) rounds >>=
        fun _ => pure .null) := by
  intro w m h
  have hperform (ledger : Ledger σ) : Machine.perform setting program (.loopEnter start done)
      ⟨base + 1, stack, m.frames, m.globals, site.loops, ledger⟩ = .ok () ⟨start.toNat, stack,
        m.frames, m.globals, (site.inLoop stack start.toNat done.toNat).loops, ledger⟩ := by
    have hlength : m.frames.length = site.depth := h.scopes.inner.length_frames
    simp only [Machine.perform, Machine.openLoop, Site.inLoop, Site.loopRecord, hlength, hstart]
  refine .effect hfree (site.inLoop stack start.toNat done.toNat) h henter hperform h.scopes
    fun m₁ h₁ => ?_
  rw [← hstart] at htick
  rw [show base + 2 = start.toNat + 1 by omega] at hx
  refine (Answers.repeatWhile hfree htick hx (Nat.le_refl _) h₁).bind fun _ w₂ m₂ h₂ => ?_
  rw [hdone] at h₂
  refine .effect hfree site h₂ hexit (fun _ => rfl) h₂.scopes fun m₃ h₃ => ?_
  exact .goto hfree h₃ hnull (fun _ => Machine.perform_constant hpool) fun _ => .value

end Covenant
