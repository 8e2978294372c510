import LinearArithmetic.Collection.SortedMap
import LinearArithmetic.Term.Basic

/-!
# Learning from the shape of a formula

Before the search starts, formulas can be read off a term. An `ite` that picks one of the two
sides of its own comparison is their minimum or maximum, and so bounded by both; an `ite` between
constants lies between them. Conjuncts `(=> A (= v k))` whose conditions cover all cases restrict
`v` to finitely many constants, which gives bounds on `v` and excludes the gaps between them.
-/

namespace LinearArithmetic.Term

mutual

/-- The term and all its subterms, later children first. -/
def subterms : Term → List Term
  | sum ts => sum ts :: subtermsAll ts
  | prod ts => prod ts :: subtermsAll ts
  | conj ts => conj ts :: subtermsAll ts
  | disj ts => disj ts :: subtermsAll ts
  | rel r a b => rel r a b :: (subterms b ++ subterms a)
  | neg t => neg t :: subterms t
  | implies a b => implies a b :: (subterms b ++ subterms a)
  | ite c a b => ite c a b :: (subterms b ++ (subterms a ++ subterms c))
  | t => [t]

/-- The subterms of the terms of a list, those of later terms first. -/
def subtermsAll : List Term → List Term
  | [] => []
  | t :: ts => subtermsAll ts ++ subterms t

end

/-! ## Minimum and maximum -/

/-- The comparison says that its left side is the smaller one, or that it is the larger one. -/
def lhsIsSmaller? : Relation → Option Bool
  | .lt | .le => some true
  | .gt | .ge => some false
  | .eq => none

/-- The branches are the two sides of a comparison: the left side comes first, or the right one. -/
def picksLhs? (lhs rhs thenBranch elseBranch : Term) : Option Bool :=
  if thenBranch = lhs ∧ elseBranch = rhs then some true
  else if thenBranch = rhs ∧ elseBranch = lhs then some false
  else none

/-- What an `ite` says about its own value. -/
def learnIte? : Term → Option Term
  | ite c (const a) (const b) =>
    let t := ite c (const a) (const b)
    let (least, greatest) := if a ≤ b then (a, b) else (b, a)
    some (conj [rel .ge t (const least), rel .le t (const greatest)])
  | ite (rel r lhs rhs) a b => do
    let smaller ← lhsIsSmaller? r
    let picksLhs ← picksLhs? lhs rhs a b
    let t := ite (rel r lhs rhs) a b
    let bound : Relation := if smaller = picksLhs then .le else .ge
    return conj [rel bound t lhs, rel bound t rhs]
  | _ => none

/-- What the `ite` subterms of a term say, each once. -/
def learnItes (t : Term) : List Term := t.subterms.eraseDups.filterMap learnIte?

/-! ## Finite domains -/

mutual

/-- The conjuncts of nested conjunctions, from left to right. -/
def conjuncts : Term → List Term
  | conj ts => conjunctsAll ts
  | t => [t]

/-- The conjuncts of the terms of a list. -/
def conjunctsAll : List Term → List Term
  | [] => []
  | t :: ts => conjuncts t ++ conjunctsAll ts

end

/-- An equation of a variable with a constant, in either order. -/
def variableEquation? : Term → Option (Term × Rat)
  | rel .eq (var x) (const k) => some (var x, k)
  | rel .eq (const k) (var x) => some (var x, k)
  | _ => none

/-- A formula `A → v = k`, written as an implication or as `(or (not A) (= v k))`: the condition,
the variable and the constant. -/
def conditionalValue? : Term → Option (Term × Term × Rat)
  | implies a e | disj [neg a, e] => (variableEquation? e).map fun (v, k) => (a, v, k)
  | _ => none

/-- The cases of the variables with one case added: to those of its variable, or at the end. -/
def addCase (v : Term) (case : Term × Rat) :
    List (Term × List (Term × Rat)) → List (Term × List (Term × Rat))
  | [] => [(v, [case])]
  | (u, cases) :: rest =>
    if u = v then (u, cases ++ [case]) :: rest else (u, cases) :: addCase v case rest

/-- The conditional values of a formula by variable, in the order the variables are met. -/
def domains (t : Term) : List (Term × List (Term × Rat)) :=
  (t.conjuncts.filterMap conditionalValue?).foldl (fun ds (a, v, k) => addCase v (a, k) ds) []

/-- What follows for a variable that has one of several values: it lies between the least and the
greatest, and not strictly between neighbours. -/
def domainLemmas (v : Term) (values : List Rat) : List Term :=
  match values.head?, values.getLast? with
  | some least, some greatest =>
    conj [rel .ge v (const least), rel .le v (const greatest)] ::
      (values.zip values.tail).map fun (a, b) =>
        disj [rel .le v (const a), rel .ge v (const b)]
  | _, _ => []

/-- The values of cases, in increasing order and each once. -/
def caseValues (cases : List (Term × Rat)) : List Rat :=
  (cases.foldl (fun (s : SortedSet Rat) c => s.insert c.2 ()) ∅).keys

/-! ## Asking an oracle

An oracle confirms valid formulas. It may have a state that its answers depend on and change. -/

section Oracle

variable {σ : Type} (isValid : Term → StateM σ Bool)

/-- What follows for a variable with at least two cases whose conditions cover all cases, as far
as the oracle confirms it. -/
def learnDomain (v : Term) (cases : List (Term × Rat)) : StateM σ (List Term) := do
  if cases.length < 2 then
    return []
  else if ← isValid (any (cases.map Prod.fst)) then
    return domainLemmas v (caseValues cases)
  else
    return []

/-- What follows for the variables of some domains, one after the other. -/
def learnDomains (ds : List (Term × List (Term × Rat))) : StateM σ (List Term) := do
  return (← ds.mapM fun (v, cases) => learnDomain isValid v cases).flatten

/-- Formulas learned before, followed by those learned from a term. -/
def staticLearning (learned : List Term) (t : Term) : StateM σ (List Term) := do
  return learned ++ (t.learnItes ++ (← learnDomains isValid t.domains))

end Oracle

/-- Formulas learned before, followed by those learned from a term, where `isValid` confirms valid
formulas and has no state. -/
def learnMore (isValid : Term → Bool) (learned : List Term) (t : Term) : List Term :=
  ((staticLearning (fun formula => pure (isValid formula)) learned t).run ()).1

/-- The formulas learned from a term. -/
def learn (isValid : Term → Bool) (t : Term) : List Term := t.learnMore isValid []

end LinearArithmetic.Term
