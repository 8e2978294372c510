import LinearArithmetic.Learning
import LinearArithmetic.Proofs.Validity

/-!
# What is learned from a formula follows from it

The bounds on `ite` terms are valid. The restrictions of a variable to finitely many values follow
from the formula: where it is true, so are its conjuncts `(=> A (= v k))`, some of the conditions
holds because the oracle confirms their disjunction, and so the variable has one of the values.
-/

namespace LinearArithmetic.Term

variable {I : Interpretation} {t v : Term}

/-! ## Minimum and maximum -/

/-- The comparison orders its sides as its sign says, and the other way round when it fails. -/
theorem ordered_of_lhsIsSmaller? {r : Relation} {smaller : Bool}
    (h : lhsIsSmaller? r = some smaller) (x y : ℚ) :
    if r.holds x y = smaller then x ≤ y else y ≤ x := by
  cases r <;> grind [lhsIsSmaller?, Relation.holds]

/-- Of two ordered numbers the smaller one is picked, or the larger one. -/
theorem bounds_of_pick (picksLhs : Bool) {x y : ℚ} {outcome smaller : Bool}
    (h : if outcome = smaller then x ≤ y else y ≤ x) :
    let z := if outcome = picksLhs then x else y
    if smaller = picksLhs then z ≤ x ∧ z ≤ y else x ≤ z ∧ y ≤ z := by
  cases outcome <;> cases smaller <;> cases picksLhs <;> simp_all

/-- The side of its own comparison that an `ite` picks. -/
theorem value_of_picksLhs? {r : Relation} {lhs rhs a b : Term} {picksLhs : Bool}
    (h : picksLhs? lhs rhs a b = some picksLhs) :
    I.value (ite (rel r lhs rhs) a b) =
      if r.holds (I.value lhs) (I.value rhs) = picksLhs then I.value lhs else I.value rhs := by
  rw [I.value_ite, I.holds_rel]
  unfold picksLhs? at h
  split at h
  · rename_i hsides
    obtain ⟨rfl, rfl⟩ := hsides
    rw [← Option.some.inj h]
  · split at h
    · rename_i hsides
      obtain ⟨rfl, rfl⟩ := hsides
      rw [← Option.some.inj h]
      cases r.holds (I.value b) (I.value a) <;> rfl
    · cases h

/-- One of two ordered numbers lies between them. -/
theorem between_of_eq_or_eq {a b q : ℚ} (hle : a ≤ b) (h : q = a ∨ q = b) : a ≤ q ∧ q ≤ b := by
  rcases h with rfl | rfl
  · exact ⟨le_rfl, hle⟩
  · exact ⟨hle, le_rfl⟩

/-- What is learned from an `ite` is valid. -/
theorem valid_of_learnIte? {l : Term} (h : learnIte? t = some l) : l.Valid := by
  intro I
  unfold learnIte? at h
  split at h
  · rename_i c a b
    have hvalue : I.value (ite c (const a) (const b)) = a ∨
        I.value (ite c (const a) (const b)) = b := by
      rw [I.value_ite, I.value_const, I.value_const]
      split
      · exact .inl rfl
      · exact .inr rfl
    by_cases hle : a ≤ b
    · rw [if_pos hle] at h
      obtain rfl := Option.some.inj h
      simpa [Relation.holds] using between_of_eq_or_eq hle hvalue
    · rw [if_neg hle] at h
      obtain rfl := Option.some.inj h
      simpa [Relation.holds] using between_of_eq_or_eq (le_of_not_ge hle) hvalue.symm
  · rename_i r lhs rhs a b _
    simp only [Option.bind_eq_bind, Option.bind_eq_some_iff] at h
    obtain ⟨smaller, hsmaller, picksLhs, hpicks, h⟩ := h
    obtain rfl := Option.some.inj h
    have hbounds := bounds_of_pick picksLhs
      (ordered_of_lhsIsSmaller? hsmaller (I.value lhs) (I.value rhs))
    rw [← value_of_picksLhs? hpicks] at hbounds
    split at hbounds
    · rename_i hsame
      rw [if_pos hsame]
      simpa [Relation.holds] using hbounds
    · rename_i hother
      rw [if_neg hother]
      simpa [Relation.holds] using hbounds
  · cases h

/-! ## Conditional values -/

mutual

/-- A conjunction is true exactly if all its conjuncts are. -/
theorem all_conjuncts (I : Interpretation) : ∀ t : Term, t.conjuncts.all I.holds = I.holds t
  | conj ts => by rw [conjuncts, I.holds_conj, all_conjunctsAll I ts]
  | var _ | const _ | bool _ | sum _ | prod _ | rel _ _ _ | neg _ | disj _ | implies _ _
  | ite _ _ _ => by simp [conjuncts]

theorem all_conjunctsAll (I : Interpretation) :
    ∀ ts : List Term, (conjunctsAll ts).all I.holds = ts.all I.holds
  | [] => rfl
  | t :: ts => by
    rw [conjunctsAll, List.all_append, List.all_cons, all_conjuncts I t, all_conjunctsAll I ts]

end

theorem value_of_variableEquation? {e : Term} {k : ℚ} (h : variableEquation? e = some (v, k))
    (he : I.holds e = true) : I.value v = k := by
  unfold variableEquation? at h
  split at h
  · cases h
    simpa [Relation.holds] using he
  · cases h
    simpa [Relation.holds, eq_comm] using he
  · cases h

/-- Under its condition a true conditional equation says what the value of the variable is. -/
theorem value_of_conditionalValue? {a : Term} {k : ℚ} (h : conditionalValue? t = some (a, v, k))
    (ht : I.holds t = true) (ha : I.holds a = true) : I.value v = k := by
  unfold conditionalValue? at h
  split at h
  · obtain ⟨⟨v, k⟩, he, heq⟩ := Option.map_eq_some_iff.mp h
    cases heq
    exact value_of_variableEquation? he (by simpa [ha] using ht)
  · obtain ⟨⟨v, k⟩, he, heq⟩ := Option.map_eq_some_iff.mp h
    cases heq
    exact value_of_variableEquation? he (by simpa [ha] using ht)
  · cases h

/-! ## Domains -/

/-- Every condition, its variable and the value are related. -/
def EachCase (P : Term × Term × Rat → Prop) (ds : List (Term × List (Term × Rat))) : Prop :=
  ∀ d ∈ ds, ∀ c ∈ d.2, P (c.1, d.1, c.2)

theorem EachCase.addCase {P : Term × Term × Rat → Prop} {ds : List (Term × List (Term × Rat))}
    {a : Term} {k : ℚ} (h : EachCase P ds) (hnew : P (a, v, k)) :
    EachCase P (Term.addCase v (a, k) ds) := by
  induction ds with
  | nil => simpa [EachCase, Term.addCase] using hnew
  | cons d ds ih =>
    obtain ⟨u, cases⟩ := d
    obtain ⟨hd, hds⟩ := List.forall_mem_cons.mp h
    rw [Term.addCase]
    split
    · rename_i heq
      subst heq
      refine List.forall_mem_cons.mpr ⟨fun c hc => ?_, hds⟩
      rcases List.mem_append.mp hc with hc | hc
      · exact hd c hc
      · rw [List.mem_singleton.mp hc]
        exact hnew
    · exact List.forall_mem_cons.mpr ⟨hd, ih hds⟩

/-- The cases of the domains are read off conjuncts. -/
theorem eachCase_domains (t : Term) :
    EachCase (fun c => ∃ u ∈ t.conjuncts, conditionalValue? u = some c) t.domains := by
  refine List.foldlRecOn _ _ (fun d hd => nomatch hd) fun ds hds c hc => ?_
  exact hds.addCase (List.mem_filterMap.mp hc)

/-! ## Finitely many values -/

theorem mem_caseValues_iff {cases : List (Term × Rat)} {q : ℚ} :
    q ∈ caseValues cases ↔ ∃ c ∈ cases, c.2 = q := by
  have hfold (s : SortedSet Rat) :
      q ∈ (cases.foldl (fun (s : SortedSet Rat) c => s.insert c.2 ()) s).keys ↔
        q ∈ s.keys ∨ ∃ c ∈ cases, c.2 = q := by
    induction cases generalizing s with
    | nil => simp
    | cons c cases ih =>
      rw [List.foldl_cons, ih, SortedMap.mem_keys_insert_iff, List.exists_mem_cons_iff,
        eq_comm (a := q), or_assoc, or_left_comm]
  exact (hfold ∅).trans (or_iff_right List.not_mem_nil)

theorem sorted_caseValues (cases : List (Term × Rat)) : (caseValues cases).Pairwise (· < ·) :=
  SortedMap.sorted_keys _

/-- No element of an increasing list lies strictly between two neighbours. -/
theorem outside_gap {values : List ℚ} (h : values.Pairwise (· < ·)) {a b q : ℚ}
    (hgap : (a, b) ∈ values.zip values.tail) (hq : q ∈ values) : q ≤ a ∨ b ≤ q := by
  induction values with
  | nil => cases hq
  | cons x values ih =>
    cases values with
    | nil => cases hgap
    | cons y values =>
      obtain ⟨hx, htail⟩ := List.pairwise_cons.mp h
      have hsplit : (a, b) = (x, y) ∨ (a, b) ∈ (y :: values).zip values := List.mem_cons.mp hgap
      rcases hsplit with heq | hlater
      · cases heq
        rcases List.mem_cons.mp hq with rfl | hq
        · exact .inl le_rfl
        · exact .inr ((htail.imp le_of_lt).rel_head hq)
      · rcases List.mem_cons.mp hq with rfl | hq
        · exact .inl (hx a (List.of_mem_zip hlater).1).le
        · exact ih htail hlater hq

/-- What is said of a variable with finitely many values is true if it has one of them. -/
theorem holds_of_mem_domainLemmas {values : List ℚ} (h : values.Pairwise (· < ·))
    (hv : I.value v ∈ values) {l : Term} (hl : l ∈ domainLemmas v values) : I.holds l = true := by
  have hle : values.Pairwise (· ≤ ·) := h.imp le_of_lt
  have hne : values ≠ [] := List.ne_nil_of_mem hv
  rw [domainLemmas, List.head?_eq_some_head hne, List.getLast?_eq_some_getLast hne] at hl
  rcases List.mem_cons.mp hl with rfl | hl
  · simpa [Relation.holds] using ⟨hle.rel_head hv, hle.rel_getLast hv⟩
  · obtain ⟨⟨a, b⟩, hgap, rfl⟩ := List.mem_map.mp hl
    simpa [Relation.holds] using outside_gap h hgap hv

/-- If some condition of a domain holds, the variable has one of its values. -/
theorem value_mem_caseValues {d : Term × List (Term × Rat)} (hd : d ∈ t.domains)
    (ht : I.holds t = true) (hcovered : I.holds (any (d.2.map Prod.fst)) = true) :
    I.value d.1 ∈ caseValues d.2 := by
  rw [I.holds_any, List.any_map, List.any_eq_true] at hcovered
  obtain ⟨c, hc, ha⟩ := hcovered
  obtain ⟨u, hu, hcase⟩ := eachCase_domains t d hd c hc
  rw [← all_conjuncts, List.all_eq_true] at ht
  exact mem_caseValues_iff.mpr ⟨c, hc, (value_of_conditionalValue? hcase (ht u hu) ha).symm⟩

/-! ## Asking an oracle -/

section Oracle

variable {σ : Type} {isValid : Term → StateM σ Bool}

/-- What is learned of a variable has been confirmed by the oracle. -/
theorem confirmed_of_mem_learnDomain {cases : List (Term × Rat)} {s : σ} {l : Term}
    (hl : l ∈ ((learnDomain isValid v cases).run s).1) :
    l ∈ domainLemmas v (caseValues cases) ∧
      ((isValid (any (cases.map Prod.fst))).run s).1 = true := by
  unfold learnDomain at hl
  split at hl
  · cases hl
  · let answer := (isValid (any (cases.map Prod.fst))).run s
    have hanswer : l ∈ ((if answer.1 then pure (domainLemmas v (caseValues cases)) else pure [] :
        StateM σ (List Term)).run answer.2).1 := hl
    split at hanswer
    · rename_i hconfirmed
      exact ⟨hanswer, hconfirmed⟩
    · cases hanswer

theorem learnDomains_cons (d : Term × List (Term × Rat)) (ds : List (Term × List (Term × Rat)))
    (s : σ) : ((learnDomains isValid (d :: ds)).run s).1 =
      ((learnDomain isValid d.1 d.2).run s).1 ++
        ((learnDomains isValid ds).run ((learnDomain isValid d.1 d.2).run s).2).1 := by
  rw [learnDomains, learnDomains, List.mapM_cons]
  rfl

/-- What is learned of some domains is learned of one of them, in some state of the oracle. -/
theorem confirmed_of_mem_learnDomains {ds : List (Term × List (Term × Rat))} {s : σ} {l : Term}
    (hl : l ∈ ((learnDomains isValid ds).run s).1) :
    ∃ d ∈ ds, l ∈ domainLemmas d.1 (caseValues d.2) ∧
      ∃ s', ((isValid (any (d.2.map Prod.fst))).run s').1 = true := by
  induction ds generalizing s with
  | nil => cases hl
  | cons d ds ih =>
    rw [learnDomains_cons] at hl
    rcases List.mem_append.mp hl with hl | hl
    · obtain ⟨hlemma, hconfirmed⟩ := confirmed_of_mem_learnDomain hl
      exact ⟨d, List.mem_cons_self, hlemma, s, hconfirmed⟩
    · obtain ⟨d', hd, hlemma, hconfirmed⟩ := ih hl
      exact ⟨d', List.mem_cons_of_mem _ hd, hlemma, hconfirmed⟩

theorem learnDomains_entailed
    (h : ∀ (formula : Term) (s : σ), ((isValid formula).run s).1 = true → formula.Valid) {s : σ}
    {l : Term} (hl : l ∈ ((learnDomains isValid t.domains).run s).1) : t.Entails l := by
  intro I ht
  obtain ⟨d, hd, hlemma, s', hconfirmed⟩ := confirmed_of_mem_learnDomains hl
  have hvalue := value_mem_caseValues hd ht (h _ s' hconfirmed I)
  exact holds_of_mem_domainLemmas (sorted_caseValues d.2) hvalue hlemma

/-- With an oracle that confirms only valid formulas, learning keeps the formulas given and adds
to them what follows from the term. What comes from `ite` subterms is valid. -/
theorem staticLearning_sound
    (h : ∀ (formula : Term) (s : σ), ((isValid formula).run s).1 = true → formula.Valid)
    (learned : List Term) (t : Term) (s : σ) :
    ∃ restrictions : List Term,
      ((staticLearning isValid learned t).run s).1 = learned ++ (t.learnItes ++ restrictions) ∧
      (∀ l ∈ t.learnItes, l.Valid) ∧ ∀ l ∈ t.learnItes ++ restrictions, t.Entails l := by
  have hites : ∀ l ∈ t.learnItes, l.Valid := by
    intro l hl
    obtain ⟨u, -, hu⟩ := List.mem_filterMap.mp hl
    exact valid_of_learnIte? hu
  refine ⟨((learnDomains isValid t.domains).run s).1, rfl, hites, fun l hl => ?_⟩
  rcases List.mem_append.mp hl with hl | hl
  · exact (hites l hl).entailed t
  · exact learnDomains_entailed h hl

/-- A minimum, and three cases that cover each other. -/
def coveredCases : Term :=
  let (p, q, x, y) := (var "p", var "q", var "x", var "y")
  conj [
    implies p (rel .eq x (const 3)),
    disj [neg (conj [neg p, q]), rel .eq (const 0) x],
    implies (conj [neg p, neg q]) (rel .eq x (const 1)),
    rel .ge (ite (rel .le x y) x y) (const (-5))]

/-- What is learned from the cases. -/
def coveredLemmas : List Term :=
  let (x, y) := (var "x", var "y")
  let least := ite (rel .le x y) x y
  [conj [rel .le least x, rel .le least y],
    conj [rel .ge x (const 0), rel .le x (const 3)],
    disj [rel .le x (const 0), rel .ge x (const 1)],
    disj [rel .le x (const 1), rel .ge x (const 3)]]

theorem staticLearning_sound_coveredCases :
    let isValid : Term → StateM Unit Bool := fun formula => pure (TruthTable.isValid {} formula)
    (∀ formula s, ((isValid formula).run s).1 = true → formula.Valid) ∧
      ((staticLearning isValid [var "r"] coveredCases).run ()).1 = var "r" :: coveredLemmas ∧
      ∀ l ∈ coveredLemmas, coveredCases.Entails l := by
  intro isValid
  have hsound : ∀ formula s, ((isValid formula).run s).1 = true → formula.Valid :=
    fun _ _ => TruthTable.valid_of_isValid
  have hrun : ((staticLearning isValid [var "r"] coveredCases).run ()).1 =
      var "r" :: coveredLemmas := by decide +kernel
  obtain ⟨restrictions, hlearned, -, hentailed⟩ :=
    staticLearning_sound hsound [var "r"] coveredCases ()
  have hadded : coveredCases.learnItes ++ restrictions = coveredLemmas :=
    (List.cons.inj (hlearned.symm.trans hrun)).2
  exact ⟨hsound, hrun, hadded ▸ hentailed⟩

end Oracle

end LinearArithmetic.Term
