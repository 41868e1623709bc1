import Covenant.Engine
import Covenant.Host.Stock
import Covenant.Proofs.Allocation
import Covenant.Proofs.Audit

/-!
# Transfers of a resource allocation

An economy is a host in which balances may be asked for and transfers return a value. There an
allocation is granted exactly if its amount is positive and no more than an integer balance. A
balance that is a double is compared with the amount as well, but the amount cannot be subtracted
from it: an allocation that is granted at such a balance fails when the transfer has been made.

## Main definitions

* `Setting.Economy` : the host offers balances and transfers.

## Main results

* `Allocation.settleAt_integer` : the decision at an integer balance.
* `Allocation.execute_granted_iff` : what is transferred, and the result, at an integer balance.
* `Allocation.calls_of_settle_error` : the calls of an allocation that fails.
* `Allocation.failed_transfers_nothing_iff` : the balances at which failing transfers nothing.
-/

namespace Covenant

open Eval

variable {ι σ : Type}

namespace Allocation

/-! ### Balances -/

variable {a : Allocation} {v : Value}

theorem refuses_integer (a : Allocation) (b : Int64) :
    a.refuses (.integer b) = .ok (decide (a.amount ≤ 0 ∨ b < a.amount)) := by
  rw [refuses]
  split_ifs with hamount
  · rw [decide_eq_true (Or.inl hamount)]
  · have hflag : (Ord.compare b.toInt a.amount.toInt == .lt) =
        decide (a.amount ≤ 0 ∨ b < a.amount) := by
      rw [Bool.eq_iff_iff, beq_iff_eq, compare_lt_iff_lt, decide_eq_true_iff,
        ← Int64.lt_iff_toInt_lt]
      exact (or_iff_right hamount).symm
    exact congrArg Except.ok hflag

/-- Only numbers are compared with an amount. -/
theorem exists_number_of_granted (h : a.refuses v = .ok false) :
    (∃ b, v = .integer b) ∨ ∃ x, v = .number x := by
  rw [refuses] at h
  split_ifs at h
  · cases h
  · cases v with
    | integer b => exact .inl ⟨b, rfl⟩
    | number x => exact .inr ⟨x, rfl⟩
    | _ => cases h

/-- What is granted can be subtracted from an integer. -/
theorem subtract_of_granted {b : Int64} (hpositive : 0 < a.amount) (hle : a.amount ≤ b) :
    BinaryOp.subtract.apply (.integer b) (.integer a.amount) = .ok (.integer (b - a.amount)) := by
  have hpositive : 0 < a.amount.toInt := Int64.lt_iff_toInt_lt.mp hpositive
  have hle : a.amount.toInt ≤ b.toInt := Int64.le_iff_toInt_le.mp hle
  have hlow : Int64.minValue.toInt ≤ 0 := by decide
  have hhigh := b.toInt_le
  have hinteger : Number.integer? (b.toInt - a.amount.toInt) = some (b - a.amount) := by
    rw [Number.integer?, if_pos ⟨by omega, by omega⟩, Int64.ofInt_sub, Int64.ofInt_toInt,
      Int64.ofInt_toInt]
  exact BinaryOp.apply_integer (by decide) hinteger

/-! ### Runs -/

/-- The record of the balance that was asked for. -/
def balanceRecord (a : Allocation) (v : Value) : CallRecord :=
  ⟨"economic", "get_balance", a.balanceArgs, .returned v⟩

/-- The record of the transfer. -/
def transferRecord (a : Allocation) (v : Value) : CallRecord :=
  ⟨"economic", "transfer", a.transferArgs, .returned v⟩

end Allocation

/-- A capability that is registered under a name and whose permission is granted. -/
structure Setting.Offers (setting : Setting ι σ) (name : String) (c : Capability ι) : Prop where
  registered : setting.host.registry.get? name = some c
  allowed : setting.granted.allows c.permission = true

theorem Builtin.ofName?_of_point {name : String} (h : '.' ∈ name.toList) : ofName? name = none := by
  refine List.find?_eq_none.mpr fun b _ hb => ?_
  obtain rfl := of_decide_eq_true hb
  revert h
  cases b <;> decide

/-- A call of what is offered returns what the implementation does. -/
theorem Setting.Offers.call {setting : Setting ι σ} {name : String} {c : Capability ι}
    (h : setting.Offers name c) (hname : '.' ∈ name.toList) {args : List Value} {l : Ledger σ}
    {v : Value} {cancels : Bool} {state : σ}
    (hperform : setting.host.perform c.implementation args l.host = (⟨.ok v, cancels⟩, state)) :
    Run.call setting name args l =
      .ok v (l.afterCall ⟨c.subsystem, c.function, args, .returned v⟩ cancels state) := by
  rw [Run.call, Builtin.ofName?_of_point hname]
  dsimp only
  rw [if_pos (List.contains_iff_mem.mpr hname),
    Run.invoke_of_returned h.registered h.allowed (by rw [hperform]), hperform]

/-- A setting with the limits by default in which the balance of a pool may be asked for, and in
which transfers may be made that return a value. -/
structure Setting.Economy (setting : Setting ι σ) (ask pay : ι) : Prop where
  limits : setting.limits = {}
  balance : ∃ permission,
    setting.Offers "economic.get_balance" ⟨"economic", "get_balance", permission, ask⟩
  transfer : ∃ permission,
    setting.Offers "economic.transfer" ⟨"economic", "transfer", permission, pay⟩
  returns (args : List Value) (state : σ) :
    ∃ v cancels state', setting.host.perform pay args state = (⟨.ok v, cancels⟩, state')

namespace Allocation

variable {a : Allocation} {setting : Setting ι σ} {ask pay : ι} {l : Ledger σ} {v : Value}
  {cancels : Bool} {state : σ}

theorem settle_of_cancelled (hcancelled : l.cancelled = true) :
    a.settle setting l = .error .cancelled l :=
  bind_of_error (Run.checkpoint_of_cancelled hcancelled)

/-- What is left to do once the balance is known. -/
theorem settle_of_active (h : setting.Economy ask pay) (hactive : l.cancelled = false)
    (hask : setting.host.perform ask a.balanceArgs l.host = (⟨.ok v, cancels⟩, state)) :
    a.settle setting l =
      a.settleAt setting v (l.afterCall (a.balanceRecord v) cancels state) := by
  obtain ⟨permission, hoffers⟩ := h.balance
  obtain ⟨-, -, hdeadline⟩ := room_of_default h.limits
  have hcall := hoffers.call (by decide) hask
  rw [settle, bind_of_ok (Run.checkpoint_of_active hactive hdeadline), bind_of_ok hcall]
  rfl

theorem settleAt_of_error {e : Error} (hrefuses : a.refuses v = .error e) :
    a.settleAt setting v l = .error e l := by
  rw [settleAt, hrefuses]
  rfl

theorem settleAt_of_cancelled {flag : Bool} (hrefuses : a.refuses v = .ok flag)
    (hcancelled : l.cancelled = true) : a.settleAt setting v l = .error .cancelled l := by
  rw [settleAt, hrefuses]
  exact (bind_of_ok rfl).trans (bind_of_error (Run.checkpoint_of_cancelled hcancelled))

theorem settleAt_of_refused (hlimits : setting.limits = {}) (hrefuses : a.refuses v = .ok true)
    (hactive : l.cancelled = false) : a.settleAt setting v l = .ok (a.result false v) l := by
  obtain ⟨-, -, hdeadline⟩ := room_of_default hlimits
  rw [settleAt, hrefuses]
  exact bind_of_ok (Run.checkpoint_of_active hactive hdeadline)

/-- A transfer is made before what is left of the balance is computed. -/
theorem settleAt_of_granted (h : setting.Economy ask pay) (hrefuses : a.refuses v = .ok false)
    (hactive : l.cancelled = false) {u : Value}
    (hpay : setting.host.perform pay a.transferArgs l.host = (⟨.ok u, cancels⟩, state)) :
    a.settleAt setting v l =
      Run.ofExcept ((BinaryOp.subtract.apply v (.integer a.amount)).map (a.result true))
        (l.afterCall (a.transferRecord u) cancels state) := by
  obtain ⟨permission, hoffers⟩ := h.transfer
  obtain ⟨-, -, hdeadline⟩ := room_of_default h.limits
  have hcall := hoffers.call (by decide) hpay
  rw [settleAt, hrefuses]
  exact (bind_of_ok (Run.checkpoint_of_active hactive hdeadline)).trans (bind_of_ok hcall)

/-- At an integer balance an active run does not fail. -/
theorem settleAt_integer (h : setting.Economy ask pay) (hactive : l.cancelled = false) (b : Int64)
    {u : Value}
    (hpay : setting.host.perform pay a.transferArgs l.host = (⟨.ok u, cancels⟩, state)) :
    a.settleAt setting (.integer b) l =
      if 0 < a.amount ∧ a.amount ≤ b then
        .ok (a.result true (.integer (b - a.amount)))
          (l.afterCall (a.transferRecord u) cancels state)
      else .ok (a.result false (.integer b)) l := by
  have hrefuses := a.refuses_integer b
  split_ifs with hgranted
  · obtain ⟨hpositive, hle⟩ := hgranted
    rw [decide_eq_false fun h => h.elim (Int64.not_le.mpr hpositive) (Int64.not_lt.mpr hle)]
      at hrefuses
    rw [settleAt_of_granted h hrefuses hactive hpay, subtract_of_granted hpositive hle]
    rfl
  · rw [not_and_or, Int64.not_lt, Int64.not_le] at hgranted
    rw [decide_eq_true hgranted] at hrefuses
    exact settleAt_of_refused h.limits hrefuses hactive

/-! ### Failed allocations -/

theorem refuses_eq_ok_false_iff : a.refuses v = .ok false ↔
    0 < a.amount ∧ BinaryOp.less.apply v (.integer a.amount) = .ok (.boolean false) := by
  rw [refuses, BinaryOp.apply_less]
  split_ifs with hamount
  · exact iff_of_false (by simp) fun h => Int64.not_lt.mpr hamount h.1
  · rw [and_iff_right (Int64.not_le.mp hamount)]
    cases BinaryOp.compare .less v (.integer a.amount) <;> simp [Except.map]

/-- An integer is not subtracted from a double, but that shows only after the transfer. -/
theorem settle_of_number (h : setting.Economy ask pay) (hactive : l.cancelled = false) {x : Double}
    (hask : setting.host.perform ask a.balanceArgs l.host = (⟨.ok (.number x), false⟩, state))
    (hrefuses : a.refuses (.number x) = .ok false) :
    ∃ u l', a.settle setting l =
        .error (.type (.unsupportedOperands .subtract .number .integer)) l' ∧
      l'.calls = (l.calls.push (a.balanceRecord (.number x))).push (a.transferRecord u) := by
  obtain ⟨u, cancels, state', hpay⟩ := h.returns a.transferArgs state
  have hactive' : (l.afterCall (a.balanceRecord (.number x)) false state).cancelled = false := by
    rw [Ledger.afterCall, hactive]
    rfl
  exact ⟨u, _, (settle_of_active h hactive hask).trans
    (settleAt_of_granted h hrefuses hactive' hpay), rfl⟩

/-- An allocation that fails has transferred nothing, unless it was granted at a double. -/
theorem calls_of_settle_error (h : setting.Economy ask pay)
    (hask : setting.host.perform ask a.balanceArgs l.host = (⟨.ok v, cancels⟩, state))
    (hgranted : a.refuses v = .ok false →
      (∃ b, v = .integer b) ∨ l.cancelled = true ∨ cancels = true)
    {e : Error} {l' : Ledger σ} (hsettle : a.settle setting l = .error e l') :
    l'.calls = l.calls ∨ l'.calls = l.calls.push (a.balanceRecord v) := by
  cases hcancelled : l.cancelled with
  | true =>
    rw [settle_of_cancelled hcancelled] at hsettle
    cases hsettle
    exact .inl rfl
  | false =>
    rw [settle_of_active h hcancelled hask] at hsettle
    generalize hasked : l.afterCall (a.balanceRecord v) cancels state = asked at hsettle
    have hcancels : asked.cancelled = cancels := by
      rw [← hasked, Ledger.afterCall, hcancelled]
      exact Bool.false_or cancels
    suffices l' = asked from .inr (this ▸ hasked ▸ rfl)
    cases hrefuses : a.refuses v with
    | error e =>
      rw [settleAt_of_error hrefuses] at hsettle
      cases hsettle
      rfl
    | ok flag =>
      cases cancels with
      | true =>
        rw [settleAt_of_cancelled hrefuses hcancels] at hsettle
        cases hsettle
        rfl
      | false =>
        cases flag with
        | true =>
          rw [settleAt_of_refused h.limits hrefuses hcancels] at hsettle
          cases hsettle
        | false =>
          obtain ⟨b, rfl⟩ : ∃ b, v = .integer b := by
            simpa [hcancelled] using hgranted hrefuses
          obtain ⟨u, cancels, state', hpay⟩ := h.returns a.transferArgs asked.host
          rw [settleAt_integer h hcancels b hpay] at hsettle
          split_ifs at hsettle

end Allocation

/-! ### Instantiated scripts -/

namespace Allocation

/-- Five units of computing for a member. -/
def membership : Allocation where
  resource := "compute"
  amount := 5
  pool := "did:coop:pool"
  recipient := "did:coop:member"
  isOffered := by decide
  isPool := by decide +kernel
  isRecipient := by decide +kernel

theorem asks_membership : membership.Asks membership.parameters := fun _ => rfl

/-- An engine in which every pool has the same balance, and which counts transfers. -/
def treasury (balance : Value) : Engine Stock where
  config := {}
  capabilities := ⟨[
    ("economic.get_balance", ⟨"economic", "get_balance", "economic.read", .constant balance⟩),
    ("economic.transfer", ⟨"economic", "transfer", "economic.write", .count 0⟩)]⟩
  templates := .empty

/-- Surroundings of stock implementations. -/
def stocked : Surroundings Stock Counters :=
  ⟨Stock.perform, "", 0⟩

/-- The options of a steward, who may see balances and transfer. -/
def steward : Options :=
  { granted := .ofList ["economic.read", "economic.write"] }

theorem allows_steward : steward.granted.allows "economic.read" = true ∧
    steward.granted.allows "economic.write" = true := by
  decide

theorem economy_treasury (balance : Value) :
    ((treasury balance).setting stocked steward).Economy (.constant balance) (.count 0) where
  limits := rfl
  balance := ⟨"economic.read", rfl, allows_steward.1⟩
  transfer := ⟨"economic.write", rfl, allows_steward.2⟩
  returns _ _ := ⟨_, _, _, rfl⟩

theorem qualifiedName_balanceRecord (a : Allocation) (v : Value) :
    (a.balanceRecord v).qualifiedName ≠ "economic.transfer" := by
  change "economic" ++ "." ++ "get_balance" ≠ "economic.transfer"
  decide

theorem qualifiedName_transferRecord (a : Allocation) (v : Value) :
    (a.transferRecord v).qualifiedName = "economic.transfer" := by
  change "economic" ++ "." ++ "transfer" = "economic.transfer"
  decide

/-- An allocation that fails has transferred nothing exactly if the balance that is enough for it is
an integer, or the run is cancelled before it decides. The test compares a double with the amount,
but the amount is not subtracted from a double, and by then the transfer has been made. -/
theorem failed_transfers_nothing_iff {given : Table Value} {script : Script}
    (hinstantiate : Template.resourceAllocation.instantiate given = .ok script) :
    ∃ a : Allocation, a.Asks given ∧
      ∀ (setting : Setting ι σ) (ask pay : ι), setting.Economy ask pay →
        ∀ (allowance : Nat) (bindings : Table Value) (cancelled cancels : Bool) (state state' : σ)
          (v : Value),
          setting.host.perform ask [.string a.pool, .string a.resource] state =
            (⟨.ok v, cancels⟩, state') →
          ((∀ exit world,
              interpret setting allowance script bindings (.start cancelled state) =
                .error exit world →
              ∀ record ∈ world.ledger.calls.toList,
                record.qualifiedName ≠ "economic.transfer") ↔
            (0 < a.amount → BinaryOp.less.apply v (.integer a.amount) = .ok (.boolean false) →
              (∃ b, v = .integer b) ∨ cancelled = true ∨ cancels = true)) := by
  obtain ⟨a, hasks, hstatements⟩ := exists_asks hinstantiate
  refine ⟨a, hasks, ?_⟩
  intro setting ask pay h allowance bindings cancelled cancels state state' v hask
  obtain ⟨scopes, k, hinterpret⟩ := interpret_settle h.limits hstatements allowance bindings
    (.start cancelled state) rfl
  rw [hinterpret]
  constructor
  · intro hnothing hamount hless
    have hrefuses := refuses_eq_ok_false_iff.mpr ⟨hamount, hless⟩
    obtain hinteger | ⟨x, rfl⟩ := exists_number_of_granted hrefuses
    · exact .inl hinteger
    · refine .inr (or_iff_not_imp_left.mpr fun hcancelled => ?_)
      rw [Bool.not_eq_true] at hcancelled
      by_contra hcancels
      rw [Bool.not_eq_true] at hcancels
      subst hcancelled hcancels
      obtain ⟨u, l', hsettle, hcalls⟩ :=
        settle_of_number (l := .start false state) h rfl hask hrefuses
      rw [ofRun_of_error hsettle] at hnothing
      refine hnothing _ _ rfl (a.transferRecord u) ?_ (a.qualifiedName_transferRecord u)
      change a.transferRecord u ∈ l'.calls.toList
      rw [hcalls]
      simp
  · intro hgranted exit world herror record hrecord
    cases hsettle : a.settle setting (.start cancelled state) with
    | ok v l' =>
      rw [ofRun_of_ok hsettle] at herror
      cases herror
    | error e l' =>
      rw [ofRun_of_error hsettle] at herror
      cases herror
      have hcalls := calls_of_settle_error (l := .start cancelled state) h hask
        (fun hrefuses => (refuses_eq_ok_false_iff.mp hrefuses).elim hgranted) hsettle
      change record ∈ l'.calls.toList at hrecord
      obtain hcalls | hcalls := hcalls
      · rw [hcalls] at hrecord
        cases hrecord
      · rw [hcalls] at hrecord
        obtain rfl : record = a.balanceRecord v := List.mem_singleton.mp hrecord
        exact a.qualifiedName_balanceRecord v

theorem failed_transfers_nothing_iff_membership :
    ∃ script, Template.resourceAllocation.instantiate membership.parameters = .ok script ∧
      ∃ exit world,
        interpret ((treasury .null).setting stocked steward) 0 script [] (.start false ⟨[0]⟩) =
          .error exit world ∧
        ∀ record ∈ world.ledger.calls.toList, record.qualifiedName ≠ "economic.transfer" := by
  obtain ⟨script, hscript, hstatements⟩ := asks_membership.exists_instantiate
  obtain ⟨a, hasks, hiff⟩ := failed_transfers_nothing_iff hscript
  have heconomy := economy_treasury .null
  have hnothing := (hiff _ _ _ heconomy 0 [] false false ⟨[0]⟩ ⟨[0]⟩ .null rfl).mpr
    fun _ hless => nomatch hless
  obtain ⟨scopes, k, hinterpret⟩ := interpret_settle heconomy.limits hstatements 0 []
    (.start false ⟨[0]⟩) rfl
  have hsettle := settle_of_active (a := membership) (l := .start false ⟨[0]⟩) (v := .null)
    heconomy rfl rfl
  rw [ofRun_of_error (hsettle.trans (settleAt_of_error rfl))] at hinterpret
  exact ⟨script, hscript, _, _, hinterpret, hnothing _ _ hinterpret⟩

/-- At a balance of ten, as a double, an allocation of five is transferred, and fails. -/
theorem exists_failed_transfer :
    ∃ script, Template.resourceAllocation.instantiate membership.parameters = .ok script ∧
      ∃ world,
        interpret ((treasury (.number ⟨0x4024000000000000⟩)).setting stocked steward) 0 script []
            (.start false ⟨[0]⟩) =
          .error (.fail (.type (.unsupportedOperands .subtract .number .integer))) world ∧
        ∃ record ∈ world.ledger.calls.toList, record.qualifiedName = "economic.transfer" := by
  obtain ⟨script, hscript, hstatements⟩ := asks_membership.exists_instantiate
  have heconomy := economy_treasury (.number ⟨0x4024000000000000⟩)
  have hrefuses : membership.refuses (.number ⟨0x4024000000000000⟩) = .ok false :=
    refuses_eq_ok_false_iff.mpr ⟨by decide, rfl⟩
  obtain ⟨scopes, k, hinterpret⟩ := interpret_settle heconomy.limits hstatements 0 []
    (.start false ⟨[0]⟩) rfl
  obtain ⟨u, l', hsettle, hcalls⟩ :=
    settle_of_number (l := .start false ⟨[0]⟩) heconomy rfl rfl hrefuses
  rw [ofRun_of_error hsettle] at hinterpret
  refine ⟨script, hscript, _, hinterpret, _, ?_, membership.qualifiedName_transferRecord u⟩
  change membership.transferRecord u ∈ l'.calls.toList
  rw [hcalls]
  simp

end Allocation

end Covenant
