import LinearArithmetic.LinearSum
import LinearArithmetic.Proofs.Checked
import LinearArithmetic.Proofs.Statement
import Mathlib.Algebra.BigOperators.Group.List.Basic
import Mathlib.Algebra.BigOperators.Ring.List
import Mathlib.Algebra.Order.Field.Basic

/-!
# The meaning of linear terms and literals

An assignment gives a rational to every leaf. The leaves are unknowns that do not depend on each
other, also where one is a product with factors that are leaves. The linear sum of a term has the
value of the term, and a comparison holds exactly when its linear atom does.
-/

namespace LinearArithmetic

namespace Term

/-! ## Leaves and values -/

/-- The factors of a product that are not constants. -/
def variableFactors (ts : List Term) : List Term := ts.filter fun t => t.constant?.isNone

/-- The product of the constants among some factors. -/
def constantFactor (ts : List Term) : ℚ := (ts.filterMap constant?).prod

/-- The term is an unknown of its own: a variable, an `ite`, or a product of several factors none
of which is a constant. -/
def IsLeaf : Term → Prop
  | var _ | ite _ _ _ => True
  | prod ts => 2 ≤ ts.length ∧ variableFactors ts = ts
  | _ => False

section Value

variable (ρ : Term → ℚ)

mutual

/-- The value of an arithmetic term when `ρ` gives the values of the leaves. -/
def linearValue : Term → ℚ
  | const q => q
  | sum ts => sumValue ts
  | prod ts =>
    if (variableFactors ts).length ≤ 1 then prodValue ts
    else constantFactor ts * ρ (prod (variableFactors ts))
  | t => ρ t

/-- The sum of the values of some terms. -/
def sumValue : List Term → ℚ
  | [] => 0
  | t :: ts => linearValue t + sumValue ts

/-- The product of the values of some terms. -/
def prodValue : List Term → ℚ
  | [] => 1
  | t :: ts => linearValue t * prodValue ts

end

/-- The literal holds when `ρ` gives the values of the leaves. -/
def Holds : Term → Prop
  | rel r a b => r.holds (linearValue ρ a) (linearValue ρ b) = true
  | neg t => ¬ Holds t
  | _ => False

end Value

theorem constantFactor_variableFactors (ts : List Term) :
    constantFactor (variableFactors ts) = 1 := by
  have hnone : (variableFactors ts).filterMap constant? = [] := by
    rw [List.filterMap_eq_nil_iff]
    intro t ht
    simpa using (List.mem_filter.mp ht).2
  rw [constantFactor, hnone, List.prod_nil]

/-- A leaf has the value it is assigned. -/
theorem IsLeaf.linearValue_eq {t : Term} (h : t.IsLeaf) (ρ : Term → ℚ) :
    t.linearValue ρ = ρ t := by
  cases t with
  | var _ => rfl
  | ite _ _ _ => rfl
  | prod ts =>
    obtain ⟨hlen, hall⟩ := h
    have hconst : constantFactor ts = 1 := by rw [← hall, constantFactor_variableFactors]
    rw [linearValue, hall, if_neg (by omega), hconst, one_mul]
  | _ => exact h.elim

theorem variableFactors_variableFactors (ts : List Term) :
    variableFactors (variableFactors ts) = variableFactors ts := by
  rw [variableFactors, variableFactors, List.filter_filter]
  simp

/-- A product is that of the constants times that of the other factors. -/
theorem prod_map_eq {f : Term → ℚ} (hf : ∀ q, f (const q) = q) (ts : List Term) :
    (ts.map f).prod = constantFactor ts * ((variableFactors ts).map f).prod := by
  induction ts with
  | nil => simp [constantFactor, variableFactors]
  | cons t ts ih =>
    rw [List.map_cons, List.prod_cons, ih]
    cases hc : t.constant? with
    | some q =>
      have ht : t = const q := by cases t <;> simp_all [constant?]
      subst ht
      simp only [constantFactor, variableFactors, List.filterMap_cons, List.filter_cons, hc, hf,
        List.prod_cons, Option.isNone_some]
      simp [mul_assoc]
    | none =>
      simp only [constantFactor, variableFactors, List.filterMap_cons, List.filter_cons, hc,
        Option.isNone_none, if_true, List.map_cons, List.prod_cons]
      ring

theorem prodValue_eq (ρ : Term → ℚ) (ts : List Term) :
    prodValue ρ ts = constantFactor ts * ((variableFactors ts).map (linearValue ρ)).prod := by
  have hprod : prodValue ρ ts = (ts.map (linearValue ρ)).prod := by
    induction ts with
    | nil => rw [prodValue, List.map_nil, List.prod_nil]
    | cons t ts ih => rw [prodValue, ih, List.map_cons, List.prod_cons]
  rw [hprod, prod_map_eq fun q => by rw [linearValue]]

theorem holds_negate {t : Term} (h : t.isLiteral = true) (ρ : Term → ℚ) :
    t.negate.Holds ρ ↔ ¬ t.Holds ρ := by
  cases t with
  | neg u => simp [negate, Holds]
  | _ => simp_all [negate, Holds]

end Term

/-! ## Linear sums -/

namespace LinearSum

/-- The value of a linear sum. -/
def eval (ρ : Term → ℚ) (s : LinearSum) : ℚ := s.constant + (s.terms.map fun e => e.2 * ρ e.1).sum

theorem sum_addEntry (ρ : Term → ℚ) (leaf : Term) (c : ℚ) (l : List (Term × ℚ)) :
    ((addEntry leaf c l).map fun e => e.2 * ρ e.1).sum =
      (l.map fun e => e.2 * ρ e.1).sum + c * ρ leaf := by
  induction l with
  | nil => simp [addEntry]
  | cons e l ih =>
    obtain ⟨t, d⟩ := e
    rw [addEntry]
    split
    · rename_i ht
      subst ht
      simp only [List.map_cons, List.sum_cons]
      ring
    · simp only [List.map_cons, List.sum_cons, ih]
      ring

theorem eval_addLeaf (ρ : Term → ℚ) (leaf : Term) (c : ℚ) (s : LinearSum) :
    (s.addLeaf leaf c).eval ρ = s.eval ρ + c * ρ leaf := by
  rw [eval, eval, addLeaf, sum_addEntry]
  ring

theorem eval_addConstant (ρ : Term → ℚ) (q : ℚ) (s : LinearSum) :
    (s.addConstant q).eval ρ = s.eval ρ + q := by
  rw [eval, eval, addConstant]
  ring

/-- Only leaves are entries of the sum. -/
def OverLeaves (s : LinearSum) : Prop := ∀ e ∈ s.terms, e.1.IsLeaf

theorem mem_addEntry {leaf : Term} {c : ℚ} {l : List (Term × ℚ)} {e : Term × ℚ}
    (h : e ∈ addEntry leaf c l) : e.1 = leaf ∨ ∃ d, (e.1, d) ∈ l := by
  induction l with
  | nil =>
    rw [addEntry, List.mem_singleton] at h
    exact .inl (h ▸ rfl)
  | cons f l ih =>
    obtain ⟨t, d⟩ := f
    rw [addEntry] at h
    split at h
    · rcases List.mem_cons.mp h with rfl | h
      · exact .inr ⟨d, List.mem_cons_self⟩
      · exact .inr ⟨e.2, List.mem_cons_of_mem _ h⟩
    · rcases List.mem_cons.mp h with rfl | h
      · exact .inr ⟨d, List.mem_cons_self⟩
      · rcases ih h with h | ⟨d', h⟩
        · exact .inl h
        · exact .inr ⟨d', List.mem_cons_of_mem _ h⟩

theorem OverLeaves.addLeaf {s : LinearSum} (h : s.OverLeaves) {leaf : Term} (hl : leaf.IsLeaf)
    (c : ℚ) : (s.addLeaf leaf c).OverLeaves := by
  intro e he
  rcases mem_addEntry he with he | ⟨d, hd⟩
  · exact he ▸ hl
  · exact h (e.1, d) hd

theorem sum_leaves (ρ : Term → ℚ) (s : LinearSum) :
    (s.leaves.map fun e => e.2 * ρ e.1).sum = (s.terms.map fun e => e.2 * ρ e.1).sum := by
  rw [leaves]
  induction s.terms with
  | nil => rfl
  | cons e l ih =>
    rw [List.filter_cons]
    by_cases he : e.2 = 0
    · rw [if_neg (by simp [he]), ih, List.map_cons, List.sum_cons, he, zero_mul, zero_add]
    · rw [if_pos (by simp [he]), List.map_cons, List.sum_cons, ih, List.map_cons, List.sum_cons]

end LinearSum

namespace Term

theorem splitFactors_cons {t : Term} (h : t.constant? = none) (ts : List Term) :
    splitFactors (t :: ts) = (do
      if !t.isArithmetic then throw (.notArithmetic t)
      let (c, rest) ← splitFactors ts
      return (c, t :: rest)) := by
  cases t <;> first | rfl | simp_all [constant?]

/-- Splitting off the constant factors of a product. -/
theorem splitFactors_eq_ok {ts : List Term} {p : ℚ × List Term} (h : splitFactors ts = .ok p) :
    p = (constantFactor ts, variableFactors ts) := by
  induction ts generalizing p with
  | nil =>
    rw [splitFactors, Except.ok.injEq] at h
    rw [← h]
    rfl
  | cons t ts ih =>
    cases hc : t.constant? with
    | some q =>
      have ht : t = const q := by cases t <;> simp_all [constant?]
      subst ht
      rw [splitFactors] at h
      obtain ⟨p', hp', h⟩ := bind_eq_ok.mp h
      rw [← Except.ok.inj h, ih hp']
      simp [constantFactor, variableFactors, hc]
    | none =>
      rw [splitFactors_cons hc] at h
      cases ha : t.isArithmetic with
      | false => rw [ha] at h; cases h
      | true =>
        rw [ha] at h
        obtain ⟨p', hp', h⟩ := bind_eq_ok.mp h
        rw [← Except.ok.inj h, ih hp']
        simp [constantFactor, variableFactors, hc]

/-- The factors that are not constants are split off from nothing. -/
theorem splitFactors_variableFactors {ts : List Term} {p : ℚ × List Term}
    (h : splitFactors ts = .ok p) :
    splitFactors (variableFactors ts) = .ok (1, variableFactors ts) := by
  suffices hexists : ∃ q, splitFactors (variableFactors ts) = .ok q by
    obtain ⟨q, hq⟩ := hexists
    rw [hq, splitFactors_eq_ok hq, constantFactor_variableFactors, variableFactors_variableFactors]
  induction ts generalizing p with
  | nil => exact ⟨_, h⟩
  | cons t ts ih =>
    cases hc : t.constant? with
    | some q =>
      have ht : t = const q := by cases t <;> simp_all [constant?]
      subst ht
      rw [splitFactors] at h
      obtain ⟨p', hp', _⟩ := bind_eq_ok.mp h
      exact ih hp'
    | none =>
      have hcons : variableFactors (t :: ts) = t :: variableFactors ts := by
        simp [variableFactors, hc]
      rw [splitFactors_cons hc] at h
      rw [hcons, splitFactors_cons hc]
      cases ha : t.isArithmetic with
      | false =>
        rw [ha] at h
        cases h
      | true =>
        rw [ha] at h
        obtain ⟨p', hp', _⟩ := bind_eq_ok.mp h
        obtain ⟨q, hq⟩ := ih hp'
        rw [hq]
        exact ⟨_, rfl⟩

/-- A linear sum after adding a multiple of a value, still over leaves. -/
structure Adds (x : (Term → ℚ) → ℚ) (s s' : LinearSum) : Prop where
  eval : ∀ ρ, s'.eval ρ = s.eval ρ + x ρ
  overLeaves : s.OverLeaves → s'.OverLeaves

theorem adds_leaf {t : Term} (h : t.IsLeaf) (k : ℚ) (s : LinearSum) :
    Adds (fun ρ => k * t.linearValue ρ) s (s.addLeaf t k) where
  eval ρ := by rw [LinearSum.eval_addLeaf, h.linearValue_eq]
  overLeaves hs := hs.addLeaf h k

theorem adds_constant (q : ℚ) (s : LinearSum) : Adds (fun _ => q) s (s.addConstant q) where
  eval ρ := LinearSum.eval_addConstant ρ q s
  overLeaves hs := hs

theorem Adds.congr {x y : (Term → ℚ) → ℚ} {s s' : LinearSum} (h : Adds x s s')
    (hxy : ∀ ρ, x ρ = y ρ) : Adds y s s' :=
  (funext hxy : x = y) ▸ h

/-- Products whose factors that are not constants are several have a leaf as their value. -/
theorem isLeaf_prod {ts : List Term} (h : ¬ (variableFactors ts).length ≤ 1) :
    (prod (variableFactors ts)).IsLeaf :=
  ⟨by omega, variableFactors_variableFactors ts⟩

theorem addFactorTo_cons (t : Term) (ts : List Term) (k : ℚ) (s : LinearSum) :
    addFactorTo (t :: ts) k s =
      if t.constant?.isSome then addFactorTo ts k s else t.addTo k s := by
  cases t <;> rfl

/-- What adding a multiple of a product does: without factors other than constants it adds a
constant, with one a multiple of that factor, and with several a multiple of a leaf. -/
theorem addTo_prod {ts : List Term} {p : ℚ × List Term} (h : splitFactors ts = .ok p) (k : ℚ)
    (s : LinearSum) : (prod ts).addTo k s =
      match variableFactors ts with
      | [] => .ok (s.addConstant (k * constantFactor ts))
      | [_] => addFactorTo ts (k * constantFactor ts) s
      | factors => .ok (s.addLeaf (prod factors) (k * constantFactor ts)) := by
  rw [addTo, h, splitFactors_eq_ok h]
  cases variableFactors ts with
  | nil => rfl
  | cons f fs => cases fs <;> rfl

theorem addTo_prod_eq_ok {ts : List Term} {k : ℚ} {s s' : LinearSum}
    (h : (prod ts).addTo k s = .ok s') :
    variableFactors ts = [] ∧ s' = s.addConstant (k * constantFactor ts) ∨
      (∃ f, variableFactors ts = [f] ∧ addFactorTo ts (k * constantFactor ts) s = .ok s') ∨
      ¬ (variableFactors ts).length ≤ 1 ∧ (∃ p, splitFactors ts = .ok p) ∧
        s' = s.addLeaf (prod (variableFactors ts)) (k * constantFactor ts) := by
  cases hs : splitFactors ts with
  | error e =>
    rw [addTo, hs] at h
    cases h
  | ok p =>
    rw [addTo_prod hs] at h
    match hv : variableFactors ts, h with
    | [], h => exact .inl ⟨rfl, (Except.ok.inj h).symm⟩
    | [f], h => exact .inr (.inl ⟨f, rfl, h⟩)
    | f :: g :: fs, h => exact .inr (.inr ⟨by simp, ⟨p, rfl⟩, (Except.ok.inj h).symm⟩)

/-- A product of several factors that are not constants stands for itself. -/
theorem linearSum_variableFactors {ts : List Term} {p : ℚ × List Term}
    (h : splitFactors ts = .ok p) (hlen : ¬ (variableFactors ts).length ≤ 1) :
    (prod (variableFactors ts)).linearSum =
      .ok { terms := [(prod (variableFactors ts), 1)] } := by
  rw [linearSum, addTo_prod (splitFactors_variableFactors h), variableFactors_variableFactors,
    constantFactor_variableFactors]
  match hv : variableFactors ts, hlen with
  | [], hlen | [_], hlen => exact absurd (by simp) hlen
  | f :: g :: fs, _ => simp [LinearSum.addLeaf, LinearSum.addEntry]

mutual

/-- Adding a multiple of a term to a linear sum adds the multiple of its value. -/
theorem addTo_eq_ok : ∀ (t : Term) (k : ℚ) {s s' : LinearSum}, t.addTo k s = .ok s' →
    Adds (fun ρ => k * t.linearValue ρ) s s'
  | const q, k, s, s', h => by
    rw [addTo, Except.ok.injEq] at h
    exact h ▸ (adds_constant (k * q) s).congr fun ρ => by rw [linearValue]
  | sum ts, k, s, s', h => by
    rw [addTo] at h
    exact (addAllTo_eq_ok ts k h).congr fun ρ => by rw [linearValue]
  | prod ts, k, s, s', h => by
    have hprod := fun ρ => prodValue_eq ρ ts
    rcases addTo_prod_eq_ok h with ⟨hv, rfl⟩ | ⟨f, hv, h⟩ | ⟨hlen, _, rfl⟩
    · refine (adds_constant _ s).congr fun ρ => ?_
      rw [linearValue, hv, if_pos (by simp), hprod, hv, List.map_nil, List.prod_nil, mul_one]
    · refine (addFactorTo_eq_ok ts _ h).congr fun ρ => ?_
      rw [linearValue, hv, if_pos (by simp), hprod, hv, List.map_singleton, List.prod_singleton]
      simp [mul_assoc]
    · refine (adds_leaf (isLeaf_prod hlen) _ s).congr fun ρ => ?_
      rw [(isLeaf_prod hlen).linearValue_eq, linearValue, if_neg hlen, mul_assoc]
  | var name, k, s, s', h => by
    rw [addTo, Except.ok.injEq] at h
    exact h ▸ adds_leaf (t := var name) trivial k s
  | ite c a b, k, s, s', h => by
    rw [addTo, Except.ok.injEq] at h
    exact h ▸ adds_leaf (t := ite c a b) trivial k s
  | bool _, k, s, s', h => nomatch h
  | rel _ _ _, k, s, s', h => nomatch h
  | neg _, k, s, s', h => nomatch h
  | conj _, k, s, s', h => nomatch h
  | disj _, k, s, s', h => nomatch h
  | implies _ _, k, s, s', h => nomatch h

theorem addAllTo_eq_ok : ∀ (ts : List Term) (k : ℚ) {s s' : LinearSum}, addAllTo ts k s = .ok s' →
    Adds (fun ρ => k * sumValue ρ ts) s s'
  | [], k, s, s', h => by
    rw [addAllTo, Except.ok.injEq] at h
    exact h ▸ ⟨fun ρ => by simp [sumValue], id⟩
  | t :: ts, k, s, s', h => by
    rw [addAllTo] at h
    obtain ⟨s₁, ht, h⟩ := bind_eq_ok.mp h
    have h₁ := addTo_eq_ok t k ht
    have h₂ := addAllTo_eq_ok ts k h
    refine ⟨fun ρ => ?_, h₂.overLeaves ∘ h₁.overLeaves⟩
    rw [h₂.eval, h₁.eval, sumValue]
    ring

theorem addFactorTo_eq_ok : ∀ (ts : List Term) (k : ℚ) {s s' : LinearSum},
    addFactorTo ts k s = .ok s' →
      Adds (fun ρ => k * ((variableFactors ts).head?.map (linearValue ρ)).getD 1) s s'
  | [], k, s, s', h => by
    rw [addFactorTo, Except.ok.injEq] at h
    exact h ▸ (adds_constant k s).congr fun ρ => by simp [variableFactors]
  | t :: ts, k, s, s', h => by
    rw [addFactorTo_cons] at h
    cases hc : t.constant? with
    | some q =>
      rw [hc] at h
      exact (addFactorTo_eq_ok ts k h).congr fun ρ => by simp [variableFactors, hc]
    | none =>
      rw [hc] at h
      exact (addTo_eq_ok t k h).congr fun ρ => by simp [variableFactors, hc]

end

/-- The linear sum of a term has its value. -/
theorem linearSum_eq_ok {t : Term} {s : LinearSum} (h : t.linearSum = .ok s) :
    s.OverLeaves ∧ ∀ ρ, s.eval ρ = t.linearValue ρ := by
  have hadd := addTo_eq_ok t 1 h
  refine ⟨hadd.overLeaves fun e he => absurd he List.not_mem_nil, fun ρ => ?_⟩
  rw [hadd.eval, one_mul]
  simp [LinearSum.eval]

end Term

/-! ## Comparisons -/

/-- The atom holds when `ρ` gives the values of the leaves. -/
def LinearAtom.Holds (ρ : Term → ℚ) (a : LinearAtom) : Prop :=
  a.relation.holds (a.leaves.map fun e => e.2 * ρ e.1).sum a.bound = true

theorem Relation.holds_sub (r : Relation) (x y z w : ℚ) (h : x - y = z - w) :
    r.holds x y = r.holds z w := by
  cases r <;> simp only [Relation.holds, decide_eq_decide] <;> constructor <;> intro <;> linarith

/-- The linear atom of a comparison is read off the difference of its sides. -/
theorem Term.linearAtom_rel_eq_ok {r : Relation} {lhs rhs : Term} {a : LinearAtom}
    (h : (Term.rel r lhs rhs).linearAtom = .ok a) :
    ∃ left s, lhs.linearSum = .ok left ∧ rhs.addTo (-1) left = .ok s ∧
      a = ⟨r, s.leaves, -s.constant⟩ := by
  rw [linearAtom] at h
  obtain ⟨left, hl, h⟩ := bind_eq_ok.mp h
  obtain ⟨s, hr, h⟩ := bind_eq_ok.mp h
  exact ⟨left, s, hl, hr, (Except.ok.inj h).symm⟩

/-- A comparison and its linear atom hold for the same values of the leaves. -/
theorem Term.linearAtom_eq_ok {t : Term} {a : LinearAtom} (h : t.linearAtom = .ok a) :
    (∃ lhs rhs, t = .rel a.relation lhs rhs) ∧ (∀ e ∈ a.leaves, e.1.IsLeaf) ∧
      ∀ ρ, a.Holds ρ ↔ t.Holds ρ := by
  match t, h with
  | .rel r lhs rhs, h =>
    obtain ⟨left, s, hl, hr, rfl⟩ := linearAtom_rel_eq_ok h
    obtain ⟨hleft, heval⟩ := linearSum_eq_ok hl
    have hadd := addTo_eq_ok rhs (-1) hr
    have hover := hadd.overLeaves hleft
    refine ⟨⟨lhs, rhs, rfl⟩, fun e he => hover e (List.mem_filter.mp he).1, fun ρ => ?_⟩
    have hval : s.eval ρ = lhs.linearValue ρ - rhs.linearValue ρ := by
      rw [hadd.eval, heval]
      ring
    rw [LinearAtom.Holds, Term.Holds, LinearSum.sum_leaves]
    rw [LinearSum.eval] at hval
    rw [r.holds_sub _ _ (lhs.linearValue ρ) (rhs.linearValue ρ) (by rw [← hval]; ring)]

/-! ## Comparisons of one variable -/

/-- Dividing both sides of a comparison by a number, which turns it around if the number is
negative. -/
theorem Relation.holds_div (r : Relation) {lead : ℚ} (hlead : lead ≠ 0) (x y : ℚ) :
    r.holds (lead * x) y = (if lead < 0 then r.flip else r).holds x (y / lead) := by
  rcases lt_or_gt_of_ne hlead with hneg | hpos
  · rw [if_pos hneg]
    cases r <;> simp only [flip, holds, decide_eq_decide]
    · rw [div_lt_iff_of_neg hneg, mul_comm]
    · rw [div_le_iff_of_neg hneg, mul_comm]
    · rw [eq_div_iff hlead, mul_comm]
    · rw [le_div_iff_of_neg hneg, mul_comm]
    · rw [lt_div_iff_of_neg hneg, mul_comm]
  · rw [if_neg (not_lt.mpr hpos.le)]
    cases r <;> simp only [holds, decide_eq_decide]
    · rw [lt_div_iff₀ hpos, mul_comm]
    · rw [le_div_iff₀ hpos, mul_comm]
    · rw [eq_div_iff hlead, mul_comm]
    · rw [div_le_iff₀ hpos, mul_comm]
    · rw [div_lt_iff₀ hpos, mul_comm]

/-- The statement of a comparison with a rational holds at the rationals that the comparison
holds for. -/
theorem Relation.holds_statement (r : Relation) (v : Var) (x y : ℚ) :
    (Statement.mk v r.constraintKind (r.boundValue y)).Holds (.ofRat x) ↔ r.holds x y = true := by
  cases r <;> simp only [constraintKind, boundValue, Statement.Holds, DeltaRat.ofRat, holds,
    DeltaRat.le_def, decide_eq_true_eq, DeltaRat.mk.injEq, and_true]
  · constructor
    · rintro (h | ⟨_, h⟩)
      · exact h
      · norm_num at h
    · exact .inl
  · exact ⟨fun h => h.elim le_of_lt fun h => h.1.le,
      fun h => (lt_or_eq_of_le h).imp id (⟨·, le_rfl⟩)⟩
  · exact ⟨fun h => h.elim le_of_lt fun h => h.1.le,
      fun h => (lt_or_eq_of_le h).imp id (⟨·, le_rfl⟩)⟩
  · constructor
    · rintro (h | ⟨_, h⟩)
      · exact h
      · norm_num at h
    · exact .inl

theorem Relation.representable (r : Relation) (v : Var) (y : ℚ) :
    (Statement.mk v r.constraintKind (r.boundValue y)).Representable := by
  cases r <;> simp [constraintKind, boundValue, Statement.Representable]

end LinearArithmetic
