import LinearArithmetic.Theory.Run

/-!
# Changes made in place

Registering and asserting change the one state that there is, step by step, and may be refused
between two steps. A refusal does not take back what has been changed until then. The parts that
cannot be refused, such as getting variables for leaves, are single steps.
-/

namespace LinearArithmetic

/-- Work on the state of a theory, which goes on after a refusal with the state that it has got
to. -/
abbrev InPlace (α : Type) : Type := ExceptT Refusal (StateT Theory Checked) α

namespace InPlace

/-- Goes on with a result, or refuses. -/
def accept {α : Type} (x : Except Refusal α) : InPlace α := fun s => .ok (x, s)

/-- Looks at the state. -/
def inspect {α : Type} (f : Theory → Checked α) : InPlace α :=
  fun s => do return (.ok (← f s), s)

/-- Changes the state. -/
def change {α : Type} (f : Theory → Checked (Theory × α)) : InPlace α :=
  fun s => do
    let (s, a) ← f s
    return (.ok a, s)

/-- Refuses unless a condition is met. -/
def demand (b : Bool) (why : Refusal) : InPlace Unit := accept (if b then .ok () else .error why)

/-- What a comparison comes down to. -/
def classify (atom : Term) : InPlace Classified := do
  let linear ← accept atom.linearAtom
  change (Theory.classify linear)

/-- The constraint of a literal, which is registered if it is new. -/
def registerLiteral (literal : Term) : InPlace (Option ConstraintId) := do
  match ← inspect fun s => .ok (s.database.lookup literal) with
  | some c => return some c
  | none =>
    let atom := literal.atom
    demand atom.isRelational (.notAnAtom literal)
    if (← inspect fun s => .ok (s.constantAtoms.lookup atom)).isSome then return none
    match ← classify atom with
    | .constant b =>
      change fun s => .ok ({ s with constantAtoms := s.constantAtoms ++ [(atom, b)] }, none)
    | .constraint st =>
      let (database, c) ←
        accept (← inspect fun s => s.database.addLiteral literal fun _ => .ok st)
      change fun s => .ok ({ s with database }, some c)

/-- Protects a constraint from garbage collection, unless it or its negation is so already. -/
def preregister (c : ConstraintId) : InPlace Unit := do
  let k ← inspect fun s => s.database.get c
  let negation ← inspect fun s => s.database.get k.negation
  if k.preregistered || negation.preregistered then return ()
  change fun s => do return ({ s with database := ← s.database.preregister c }, ())

/-- Registers a term. -/
def register (t : Term) : InPlace Unit := do
  if t.isLiteral then
    match ← registerLiteral t with
    | none => return ()
    | some c => preregister c
  else
    let sum ← accept t.linearSum
    let _ ← change (Theory.requestVars sum.leaves)

/-- Queues a literal. -/
def assertLiteral (t : Term) : InPlace Unit := do
  demand t.isLiteral (.notAnAtom t)
  let _ ← registerLiteral t
  change fun s => .ok ({ s with pending := s.pending ++ [⟨t, s.level⟩] }, ())

end InPlace

end LinearArithmetic
