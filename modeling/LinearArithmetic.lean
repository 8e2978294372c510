import LinearArithmetic.Division
import LinearArithmetic.Proofs.Acceptance
import LinearArithmetic.Proofs.Admission
import LinearArithmetic.Proofs.Aftermath
import LinearArithmetic.Proofs.Antecedents
import LinearArithmetic.Proofs.Backing
import LinearArithmetic.Proofs.Canonical
import LinearArithmetic.Proofs.ConcreteDelta
import LinearArithmetic.Proofs.Conflicts
import LinearArithmetic.Proofs.Consequences
import LinearArithmetic.Proofs.Decision
import LinearArithmetic.Proofs.Discipline
import LinearArithmetic.Proofs.Equations
import LinearArithmetic.Proofs.Evaluation
import LinearArithmetic.Proofs.History
import LinearArithmetic.Proofs.Idempotence
import LinearArithmetic.Proofs.Journal
import LinearArithmetic.Proofs.Learning
import LinearArithmetic.Proofs.Normalization
import LinearArithmetic.Proofs.Propagation
import LinearArithmetic.Proofs.Refusals
import LinearArithmetic.Proofs.Regularity
import LinearArithmetic.Proofs.Reinjection
import LinearArithmetic.Proofs.Restoration
import LinearArithmetic.Proofs.Safety
import LinearArithmetic.Proofs.Satisfaction
import LinearArithmetic.Proofs.Saturation
import LinearArithmetic.Proofs.SlackLookup
import LinearArithmetic.Proofs.Structure
import LinearArithmetic.Proofs.Substitution
import LinearArithmetic.Proofs.Transactions
import LinearArithmetic.Proofs.TwoBounds
import LinearArithmetic.Proofs.Undisturbed
import LinearArithmetic.Proofs.Unwinding
import LinearArithmetic.Term.Kind
import LinearArithmetic.Theory.Run
