import Covenant.Host.Call

/-!
# Stock implementations

Simple implementations of capabilities, with which scripts can be tried out before a real host is
behind them. Those that count have a counter of their own each.

## Main definitions

* `Stock`: the implementations.
* `Counters`: the state behind them.
* `Stock.perform`: what they do.
-/

namespace Covenant

/-- A stock implementation. -/
inductive Stock where
  /-- Returns all arguments. -/
  | echo
  /-- Returns the first argument, or null. -/
  | first
  /-- Returns a fixed value. -/
  | constant (value : Value)
  /-- Returns how often it has been called, by the counter with this number. -/
  | count (counter : Nat)
  /-- Fails for these causes, outermost first. -/
  | fail (causes : List String)
  /-- Asks for the running execution to be cancelled. -/
  | cancel

/-- How often each counter has been used. -/
structure Counters where
  counts : List Nat

namespace Counters

/-- No counters. -/
def none : Counters := ⟨[]⟩

/-- One more counter, and its number. -/
def add (c : Counters) : Nat × Counters :=
  (c.counts.length, ⟨c.counts ++ [0]⟩)

/-- The count of a counter after one more use. -/
def next (c : Counters) (counter : Nat) : Nat × Counters :=
  (c.counts.getD counter 0 + 1, ⟨c.counts.modify counter (· + 1)⟩)

end Counters

/-- What a stock implementation does. -/
def Stock.perform : Stock → List Value → Counters → Reply × Counters
  | echo, args, state => (⟨.ok (.array args), false⟩, state)
  | first, args, state => (⟨.ok (args.headD .null), false⟩, state)
  | constant value, _, state => (⟨.ok value, false⟩, state)
  | count counter, _, state =>
    let (n, state) := state.next counter
    (⟨.ok (.integer (Int64.ofNat n)), false⟩, state)
  | fail causes, _, state => (⟨.error (String.intercalate ": " causes), false⟩, state)
  | cancel, _, state => (⟨.ok .null, true⟩, state)

end Covenant
