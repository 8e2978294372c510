import LinearArithmetic.Database.Run

/-!
# The log of proofs

The antecedents of all proofs can be kept in one log, which is cut off when scopes are left. A proof
is a run of entries, a marker and then its antecedents, and goes by the position of the last one.
Reading backward from there ends at the marker; a proof without antecedents is its own marker.
Positions are used again after the log was cut off.
-/

namespace LinearArithmetic

/-- The position of the last entry of a proof. -/
structure ProofId where
  index : Nat
  deriving DecidableEq

/-- Runs of antecedents, each of them after a marker. -/
structure ProofLog where
  entries : Trail (Option ConstraintId) := {}
  deriving DecidableEq

namespace ProofLog

/-- The log with one more proof, and the position of that. -/
def record (antecedents : List ConstraintId) (log : ProofLog) : ProofLog × ProofId :=
  let entries := antecedents.foldl (fun entries a => entries.push (some a)) (log.entries.push none)
  (⟨entries⟩, ⟨entries.toList.length - 1⟩)

/-- The constraints before the first marker. -/
def upToMarker : List (Option ConstraintId) → List ConstraintId
  | some c :: entries => c :: upToMarker entries
  | _ => []

/-- The antecedents of a proof, the most recently recorded first. -/
def antecedents (p : ProofId) (log : ProofLog) : Checked (List ConstraintId) :=
  if p.index < log.entries.toList.length then
    .ok (upToMarker (log.entries.toList.take (p.index + 1)).reverse)
  else .error (.outOfRange p.index)

/-- The log in a new scope. -/
def openScope (log : ProofLog) : ProofLog := ⟨log.entries.openScope⟩

/-- The log as it was when `level` scopes were open. -/
def backtrack (level : Nat) (log : ProofLog) : Checked ProofLog :=
  return ⟨(← log.entries.backtrack level).1⟩

end ProofLog

namespace Database

/-- A database that keeps its proofs in a log. -/
structure Logged where
  db : Database := {}
  log : ProofLog := {}
  proofs : ConstraintId → Option ProofId := fun _ => none

/-- What is assigned to constraints because they are known to hold, without a change that is
undone. -/
def forget {α : Type} (assigned : ConstraintId → Option α) :
    ConstraintChange → ConstraintId → Option α
  | .proof c => fun d => if d = c then none else assigned d
  | _ => assigned

namespace Logged

/-- The proof of a constraint is recorded. -/
def record (c : ConstraintId) (antecedents : List ConstraintId) (l : Logged) : Logged :=
  let (log, p) := l.log.record antecedents
  { l with log, proofs := fun d => if d = c then some p else l.proofs d }

/-- The database and its log after an operation. -/
def step (l : Logged) (op : Operation) : Checked Logged := do
  let db ← l.db.step op
  match op with
  | .mark c antecedents => return { l.record c antecedents with db }
  | .markAsserted c _ => return { l.record c [] with db }
  | .openScope => return { l with db, log := l.log.openScope }
  | .backtrack level => do
    let (_, undone) ← l.db.changes.backtrack level
    return { db, log := ← l.log.backtrack level, proofs := undone.foldl forget l.proofs }
  | _ => return { l with db }

/-- The database and its log after a sequence of operations. -/
def run (l : Logged) (ops : List Operation) : Checked Logged := ops.foldlM step l

/-- Walks from the constraints on a stack through antecedents that are read from the log. The most
recently recorded antecedent is put on the stack first. Where the stack does not grow, the
constraint explains itself. -/
def walk (l : Logged) : Nat → (stack visited leaves : List ConstraintId) →
    Checked (List ConstraintId)
  | _, [], _, leaves => .ok leaves
  | 0, _ :: _, _, _ => .error .stepsExhausted
  | n + 1, c :: stack, visited, leaves =>
    if visited.contains c then walk l n stack visited leaves
    else do
      let _ ← l.db.get c
      match l.proofs c with
      | none => throw (.noProof c)
      | some p =>
        let grown := (← l.log.antecedents p).foldl (fun stack a => a :: stack) stack
        walk l n grown (c :: visited)
          (if grown.length = stack.length then leaves ++ [c] else leaves)

/-- The self-explaining constraints that together entail every constraint of a list, each once, by
the proofs in the log. -/
def explanation (l : Logged) (cs : List ConstraintId) : Checked (List ConstraintId) :=
  l.walk (cs.length + l.db.numAntecedents) cs [] []

end Logged

end Database

end LinearArithmetic
