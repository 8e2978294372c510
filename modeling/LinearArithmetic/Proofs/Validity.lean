import LinearArithmetic.Proofs.Collections
import LinearArithmetic.Proofs.Interpretation
import Mathlib.Data.Set.Card

/-!
# Truth tables decide propositional validity

The atoms of a formula are the distinct terms that its connectives join in the end. They are
numbered by their places in a list without repetitions, so the bits of the counters below a power
of two are exactly the assignments of truth values to them. What a formula says under an assignment
is a proposition, put together by its connectives.
-/

namespace LinearArithmetic

namespace Term

/-! ## Atoms -/

/-- The term joins formulas to a formula. -/
def isConnective : Term → Bool
  | neg _ | conj _ | disj _ | implies _ _ => true
  | _ => false

/-- The term is `true` or `false`. -/
def isTruthValue : Term → Bool
  | bool _ => true
  | _ => false

/-- The first term is an atom of the second one: a maximal subterm that is neither a connective nor
a truth value. It is met on the way down from the formula through connectives. -/
inductive IsAtomOf (a : Term) : Term → Prop
  | self (hconnective : a.isConnective = false) (hvalue : a.isTruthValue = false) : IsAtomOf a a
  | child {t u : Term} (hconnective : t.isConnective = true) (hmem : u ∈ t.children)
    (h : IsAtomOf a u) : IsAtomOf a t

theorem isAtomOf_connective {a t : Term} (h : t.isConnective = true) :
    a.IsAtomOf t ↔ ∃ u ∈ t.children, a.IsAtomOf u := by
  constructor
  · intro ha
    cases ha with
    | self hconnective => rw [h] at hconnective; cases hconnective
    | child _ hmem hu => exact ⟨_, hmem, hu⟩
  · rintro ⟨u, hmem, hu⟩
    exact .child h hmem hu

theorem not_isAtomOf_bool {a : Term} {b : Bool} : ¬ a.IsAtomOf (bool b) := by
  intro ha
  cases ha with
  | self _ hvalue => cases hvalue
  | child hconnective => cases hconnective

/-- A term that is neither a connective nor a truth value is its own only atom. -/
theorem isAtomOf_atomic {a t : Term} (h : t.isConnective = false) (h' : t.isTruthValue = false) :
    a.IsAtomOf t ↔ a = t := by
  constructor
  · intro ha
    cases ha with
    | self => rfl
    | child hconnective => rw [h] at hconnective; cases hconnective
  · rintro rfl
    exact .self h h'

mutual

theorem mem_atomOccurrences_iff {a : Term} : ∀ t : Term, a ∈ t.atomOccurrences ↔ a.IsAtomOf t
  | bool b => by simp [atomOccurrences, not_isAtomOf_bool]
  | neg t => by
    rw [atomOccurrences, mem_atomOccurrences_iff t, isAtomOf_connective (t := neg t) rfl]
    simp [children]
  | conj ts => by
    rw [atomOccurrences, mem_atomOccurrencesAll_iff ts, isAtomOf_connective rfl, children]
  | disj ts => by
    rw [atomOccurrences, mem_atomOccurrencesAll_iff ts, isAtomOf_connective rfl, children]
  | implies t u => by
    rw [atomOccurrences, List.mem_append, mem_atomOccurrences_iff t, mem_atomOccurrences_iff u,
      isAtomOf_connective (t := implies t u) rfl]
    simp [children]
  | var _ | const _ | sum _ | prod _ | rel _ _ _ | ite _ _ _ => by
    rw [atomOccurrences, List.mem_singleton, isAtomOf_atomic rfl rfl]
    all_goals simp

theorem mem_atomOccurrencesAll_iff {a : Term} :
    ∀ ts : List Term, a ∈ atomOccurrencesAll ts ↔ ∃ t ∈ ts, a.IsAtomOf t
  | [] => by simp [atomOccurrencesAll]
  | t :: ts => by
    simp [atomOccurrencesAll, mem_atomOccurrences_iff t, mem_atomOccurrencesAll_iff ts]

end

theorem mem_atoms_iff {a t : Term} : a ∈ t.atoms ↔ a.IsAtomOf t := by
  rw [atoms, List.mem_eraseDups, mem_atomOccurrences_iff]

/-- The list of atoms has as many entries as there are atoms. -/
theorem encard_atoms (t : Term) : {a | IsAtomOf a t}.encard = t.atoms.length := by
  have hset : {a | IsAtomOf a t} = (t.atoms.toFinset : Set Term) := by
    ext a
    rw [Set.mem_ofPred_eq, Finset.mem_coe, List.mem_toFinset, mem_atoms_iff]
  have hnodup : t.atoms.Nodup := nodup_eraseDups _
  rw [hset, Set.encard_coe_eq_coe_finsetCard, List.toFinset_card_of_nodup hnodup]

/-! ## Assignments -/

/-- The formula is true under an assignment, given by the set of the atoms that are true. -/
def TrueUnder (assignment : Set Term) : Term → Prop
  | bool b => b = true
  | neg t => ¬ t.TrueUnder assignment
  | conj ts => ∀ t ∈ ts, t.TrueUnder assignment
  | disj ts => ∃ t, ∃ _ : t ∈ ts, t.TrueUnder assignment
  | implies t u => t.TrueUnder assignment → u.TrueUnder assignment
  | t => t ∈ assignment
termination_by t => t

mutual

/-- The truth value of a formula tells whether it is true under the assignment of its atoms. -/
theorem truth_iff (value : Term → Bool) :
    ∀ t : Term, t.truth value = true ↔ t.TrueUnder {a | value a = true}
  | bool b => by rw [truth, TrueUnder]
  | neg t => by rw [truth, TrueUnder, ← truth_iff value t, Bool.not_eq_true', Bool.not_eq_true]
  | conj ts => by rw [truth, TrueUnder, truthAll_iff value ts]
  | disj ts => by
    rw [truth, TrueUnder, truthAny_iff value ts]
    simp only [exists_prop]
  | implies t u => by
    rw [truth, TrueUnder, ← truth_iff value t, ← truth_iff value u, Bool.or_eq_true,
      Bool.not_eq_true', ← Bool.not_eq_true, imp_iff_not_or]
  | var _ | const _ | sum _ | prod _ | rel _ _ _ | ite _ _ _ => by
    rw [truth, TrueUnder, Set.mem_ofPred_eq]
    all_goals simp

theorem truthAll_iff (value : Term → Bool) :
    ∀ ts : List Term, truthAll value ts = true ↔ ∀ t ∈ ts, t.TrueUnder {a | value a = true}
  | [] => by simp [truthAll]
  | t :: ts => by
    rw [truthAll, Bool.and_eq_true, truth_iff value t, truthAll_iff value ts, List.forall_mem_cons]

theorem truthAny_iff (value : Term → Bool) :
    ∀ ts : List Term, truthAny value ts = true ↔ ∃ t ∈ ts, t.TrueUnder {a | value a = true}
  | [] => by simp [truthAny]
  | t :: ts => by
    rw [truthAny, Bool.or_eq_true, truth_iff value t, truthAny_iff value ts,
      List.exists_mem_cons_iff]

end

/-- A formula has the value true for all values of its atoms exactly if it is true under every
assignment. -/
theorem forall_truth_iff {t : Term} :
    (∀ value : Term → Bool, t.truth value = true) ↔ ∀ assignment, t.TrueUnder assignment := by
  classical
  constructor
  · intro h assignment
    have hset : {a | decide (a ∈ assignment) = true} = assignment := by simp
    exact hset ▸ (truth_iff _ t).mp (h fun a => decide (a ∈ assignment))
  · exact fun h value => (truth_iff value t).mpr (h _)

section Congruence

variable {v w : Term → Bool}

mutual

/-- The truth of a formula depends on the truth of its atoms only. -/
theorem truth_congr : ∀ t : Term, (∀ a ∈ t.atomOccurrences, v a = w a) → t.truth v = t.truth w
  | bool _, _ => rfl
  | neg t, h => congrArg not (truth_congr t h)
  | conj ts, h => truthAll_congr ts h
  | disj ts, h => truthAny_congr ts h
  | implies t u, h => by
    simp only [atomOccurrences, List.mem_append] at h
    rw [truth, truth, truth_congr t fun a ha => h a (.inl ha),
      truth_congr u fun a ha => h a (.inr ha)]
  | var _, h | const _, h | sum _, h | prod _, h | rel _ _ _, h | ite _ _ _, h =>
    h _ (by simp [atomOccurrences])

theorem truthAll_congr :
    ∀ ts : List Term, (∀ a ∈ atomOccurrencesAll ts, v a = w a) → truthAll v ts = truthAll w ts
  | [], _ => rfl
  | t :: ts, h => by
    simp only [atomOccurrencesAll, List.mem_append] at h
    rw [truthAll, truthAll, truth_congr t fun a ha => h a (.inl ha),
      truthAll_congr ts fun a ha => h a (.inr ha)]

theorem truthAny_congr :
    ∀ ts : List Term, (∀ a ∈ atomOccurrencesAll ts, v a = w a) → truthAny v ts = truthAny w ts
  | [], _ => rfl
  | t :: ts, h => by
    simp only [atomOccurrencesAll, List.mem_append] at h
    rw [truthAny, truthAny, truth_congr t fun a ha => h a (.inl ha),
      truthAny_congr ts fun a ha => h a (.inr ha)]

end

end Congruence

end Term

namespace TruthTable

open Term

/-! ## Counters -/

/-- The shift and the mask read one binary digit. -/
theorem bit_eq_testBit (counter : UInt64) {place : Nat} (h : place < 64) :
    bit counter place = counter.toNat.testBit place := by
  have hmod : place % 64 = place := Nat.mod_eq_of_lt h
  simp [bit, ← UInt64.toNat_inj, Bool.beq_eq_decide_eq, UInt64.toNat_shiftRight, hmod,
    Nat.testBit_eq_decide_div_mod_eq, Nat.shiftRight_eq_div_pow]

/-- The power of two does not overflow up to the limit. -/
theorem toNat_assignments {atoms : List Term} (h : atoms.length ≤ enumerable) :
    (assignments atoms).toNat = 2 ^ atoms.length := by
  have hlt : atoms.length < 64 := Nat.lt_succ_of_le h
  have hmod : atoms.length % 64 = atoms.length := Nat.mod_eq_of_lt hlt
  have hpow : 2 ^ atoms.length < 2 ^ 64 := Nat.pow_lt_pow_right (by decide) hlt
  have hplace : (atoms.length.toUInt64).toNat % 64 = atoms.length := by simp [hmod]
  rw [assignments, UInt64.toNat_shiftLeft, hplace, Nat.shiftLeft_eq, UInt64.toNat_one, Nat.one_mul,
    Nat.mod_eq_of_lt hpow]

/-- Every assignment of truth values to the atoms is that of a counter. -/
theorem exists_counter {atoms : List Term} (h : atoms.length ≤ enumerable)
    (value : Term → Bool) :
    ∃ i < (assignments atoms).toNat, ∀ a ∈ atoms, assignment atoms (.ofNat i) a = value a := by
  let digits : Fin atoms.length → Bool := fun k => value (atoms.get k)
  have hlt : Nat.ofBits digits < 2 ^ atoms.length := Nat.ofBits_lt_two_pow digits
  have hpow : 2 ^ atoms.length ≤ 2 ^ enumerable := Nat.pow_le_pow_right (by decide) h
  refine ⟨Nat.ofBits digits, (toNat_assignments h).symm ▸ hlt, fun a ha => ?_⟩
  have hplace : atoms.idxOf a < atoms.length := List.idxOf_lt_length_of_mem ha
  have hcounter : (UInt64.ofNat (Nat.ofBits digits)).toNat = Nat.ofBits digits :=
    UInt64.toNat_ofNat_of_lt' (hlt.trans_le (hpow.trans (by decide)))
  rw [assignment, bit_eq_testBit _ (hplace.trans_le (h.trans (by decide))), hcounter,
    Nat.testBit_ofBits_lt digits _ hplace]
  exact congrArg value (List.getElem_idxOf hplace)

/-- The counters enumerate all assignments. -/
theorem all_counters_iff {t : Term} (h : t.atoms.length ≤ enumerable) :
    ((assignments t.atoms).toNat.all fun i _ => t.truth (assignment t.atoms (.ofNat i))) = true ↔
      ∀ value : Term → Bool, t.truth value = true := by
  rw [Nat.all_eq_finRange_all, List.all_eq_true]
  constructor
  · intro hall value
    obtain ⟨i, hi, hvalue⟩ := exists_counter h value
    rw [← hall ⟨i, hi⟩ (List.mem_finRange _)]
    exact truth_congr t fun a ha => (hvalue a (List.mem_eraseDups.mpr ha)).symm
  · intro hall i _
    exact hall _

theorem isValid_iff {o : TruthTable} {t : Term} :
    o.isValid t = true ↔
      t.atoms.length ≤ min o.maxAtoms enumerable ∧ ∀ value : Term → Bool, t.truth value = true := by
  rw [isValid, Bool.and_eq_true, decide_eq_true_iff]
  exact and_congr_right fun h => all_counters_iff (h.trans (Nat.min_le_right _ _))

/-- What a truth table confirms is valid. -/
theorem valid_of_isValid {o : TruthTable} {t : Term} (h : o.isValid t = true) : t.Valid :=
  valid_of_truth (isValid_iff.mp h).2

/-- A formula is confirmed exactly if it has at most as many atoms as allowed, and never more than
63, and is true under every assignment of truth values to them. It is then true under every
interpretation. -/
theorem isValid_exact (o : TruthTable) (t : Term) :
    (o.isValid t = true ↔
      {a | IsAtomOf a t}.encard ≤ (min o.maxAtoms 63 : Nat) ∧
        ∀ assignment : Set Term, t.TrueUnder assignment) ∧
    (o.isValid t = true → ∀ I : Interpretation, I.holds t = true) := by
  refine ⟨?_, valid_of_isValid⟩
  rw [isValid_iff, encard_atoms, Nat.cast_le, enumerable, forall_truth_iff]

example :
    let (p, q) := (var "p", rel .lt (var "x") (var "y"))
    (TruthTable.mk 2).isValid (disj [conj [p, q], neg p, neg q]) = true := by decide +kernel

end TruthTable

end LinearArithmetic
