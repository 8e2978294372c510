import LinearArithmetic.Theory.Search
import LinearArithmetic.Theory.Value

/-!
# Runs

A run is a list of operations applied in turn from the start. Every operation has an answer; a
refused term is an answer too, and leaves the theory as it was.
-/

namespace LinearArithmetic.Theory

/-- The operations that the search, and whoever maintains the theory, can ask for. -/
inductive Operation where
  | register (t : Term)
  | assert (t : Term)
  | check (effort : Effort)
  | propagate
  | explain (t : Term)
  | push
  | pop (levels : Nat)
  | restart
  | presolve
  | reset
  | eliminate (v : Var)

/-- The answers to operations. -/
inductive Answer where
  | done
  | refused (why : Refusal)
  | sent (r : Report)
  | explained (t : Term)
  | count (n : Nat)
  | decided (b : Bool)

/-- The state after an operation that can be refused: a refusal leaves the state as it was. -/
def orRefuse {α : Type} (s : Theory) (answer : α → Theory × Answer) :
    Except Failure α → Checked (Theory × Answer)
  | .ok a => .ok (answer a)
  | .error (.refusal why) => .ok (s, .refused why)
  | .error (.fault f) => .error f

/-- One operation. -/
def step (s : Theory) : Operation → Checked (Theory × Answer)
  | .register t => s.orRefuse (·, .done) (s.register t)
  | .assert t => s.orRefuse (·, .done) (s.assertLiteral t)
  | .check effort => do
    let (s, r) ← s.check effort
    return (s, .sent r)
  | .propagate =>
    let (s, r) := s.propagate
    .ok (s, .sent r)
  | .explain t => s.orRefuse (s, .explained ·) (s.explain t)
  | .push => .ok (s.push, .done)
  | .pop levels => return (← s.pop levels, .done)
  | .restart => do
    let s ← s.restart
    return (s, .count s.schedule.restarts)
  | .presolve => do
    let (s, n) ← s.presolve
    return (s, .count n)
  | .reset => return (← s.resetTableau, .done)
  | .eliminate v => do
    let (s, b) ← s.eliminate v
    return (s, .decided b)

/-- A run from a state: the state it leads to and the answers in order. -/
def run (s : Theory) : List Operation → Checked (Theory × List Answer)
  | [] => .ok (s, [])
  | op :: ops => do
    let (s, a) ← s.step op
    let (s, as) ← s.run ops
    return (s, a :: as)

end LinearArithmetic.Theory
