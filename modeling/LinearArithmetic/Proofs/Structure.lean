import LinearArithmetic.Proofs.Interpretation
import LinearArithmetic.Proofs.Readings

/-!
# Values from the structure of a term

Terms are evaluated through linear sums, in which leaves are merged, cancel, and lose their
constant factors. As long as no product has a variable, the result is the number that the term
stands for when the terms with variables stand for their values.
-/

namespace LinearArithmetic

namespace Interpretation

variable (I : Interpretation) (own : Term → Bool)

mutual

/-- The number an arithmetic term stands for when the interpretation gives the owned terms theirs,
however they are built. -/
def valueOver (t : Term) : ℚ :=
  if own t then I.number t
  else match t with
    | .const q => q
    | .sum ts => totalOver ts
    | .prod ts => productOver ts
    | .ite c a b => if holdsOver c then valueOver a else valueOver b
    | t => I.number t

/-- The sum of the values of some terms. -/
def totalOver : List Term → ℚ
  | [] => 0
  | t :: ts => valueOver t + totalOver ts

/-- The product of the values of some terms. -/
def productOver : List Term → ℚ
  | [] => 1
  | t :: ts => valueOver t * productOver ts

/-- The formula is true. -/
def holdsOver : Term → Bool
  | .bool b => b
  | .neg t => !holdsOver t
  | .conj ts => holdsAllOver ts
  | .disj ts => holdsSomeOver ts
  | .implies a b => !holdsOver a || holdsOver b
  | .rel r a b => r.holds (valueOver a) (valueOver b)
  | .ite c a b => if holdsOver c then holdsOver a else holdsOver b
  | t => I.truth t

/-- All formulas are true. -/
def holdsAllOver : List Term → Bool
  | [] => true
  | t :: ts => holdsOver t && holdsAllOver ts

/-- Some formula is true. -/
def holdsSomeOver : List Term → Bool
  | [] => false
  | t :: ts => holdsOver t || holdsSomeOver ts

end

variable {own}

theorem valueOver_owned {t : Term} (h : own t = true) : I.valueOver own t = I.number t := by
  cases t <;> simp only [valueOver, h, if_true]

theorem valueOver_const {q : ℚ} (h : own (.const q) = false) :
    I.valueOver own (.const q) = q := by
  rw [valueOver, if_neg (h ▸ Bool.false_ne_true)]

theorem valueOver_sum {ts : List Term} (h : own (.sum ts) = false) :
    I.valueOver own (.sum ts) = I.totalOver own ts := by
  rw [valueOver, if_neg (h ▸ Bool.false_ne_true)]

theorem productOver_eq_prod (ts : List Term) :
    I.productOver own ts = (ts.map (I.valueOver own)).prod := by
  induction ts with
  | nil => rw [productOver, List.map_nil, List.prod_nil]
  | cons t ts ih => rw [productOver, List.map_cons, List.prod_cons, ih]

theorem valueOver_prod {ts : List Term} (h : own (.prod ts) = false) :
    I.valueOver own (.prod ts) = (ts.map (I.valueOver own)).prod := by
  rw [valueOver, if_neg (h ▸ Bool.false_ne_true), productOver_eq_prod]

theorem valueOver_ite {c a b : Term} (h : own (.ite c a b) = false) :
    I.valueOver own (.ite c a b) =
      if I.holdsOver own c then I.valueOver own a else I.valueOver own b := by
  rw [valueOver, if_neg (h ▸ Bool.false_ne_true)]

theorem holdsOver_conj (ts : List Term) :
    I.holdsOver own (.conj ts) = ts.all (I.holdsOver own) := by
  rw [holdsOver]
  induction ts with
  | nil => rw [holdsAllOver, List.all_nil]
  | cons t ts ih => rw [holdsAllOver, List.all_cons, ih]

theorem holdsOver_disj (ts : List Term) :
    I.holdsOver own (.disj ts) = ts.any (I.holdsOver own) := by
  rw [holdsOver]
  induction ts with
  | nil => rw [holdsSomeOver, List.any_nil]
  | cons t ts ih => rw [holdsSomeOver, List.any_cons, ih]

end Interpretation

namespace Term

/-- No constant, sum or product is owned. -/
structure Plain (own : Term → Bool) : Prop where
  const : ∀ q, own (const q) = false
  sum : ∀ ts, own (sum ts) = false
  prod : ∀ ts, own (prod ts) = false

variable {own : Term → Bool}

/-! ## Linear sums -/

mutual

/-- When each leaf has the number that it stands for, also a product that has lost its constant
factors, a term has the number that it stands for. -/
theorem linearValue_valueOver (h : Plain own) (I : Interpretation) :
    ∀ t : Term, t.linearValue (I.valueOver own) = I.valueOver own t
  | const q => by rw [linearValue, I.valueOver_const (h.const q)]
  | sum ts => by rw [linearValue, I.valueOver_sum (h.sum ts), sumValue_valueOver h I ts]
  | prod ts => by
    rw [linearValue, I.valueOver_prod (h.prod ts)]
    split
    · exact prodValue_valueOver h I ts
    -- the constant factors are in front of the leaf, which is the product of the others
    · rw [I.valueOver_prod (h.prod _), ← prod_map_eq fun q => I.valueOver_const (h.const q)]
  | var _ | ite _ _ _ | bool _ | rel _ _ _ | neg _ | conj _ | disj _ | implies _ _ => by
    simp only [linearValue]

theorem sumValue_valueOver (h : Plain own) (I : Interpretation) :
    ∀ ts : List Term, sumValue (I.valueOver own) ts = I.totalOver own ts
  | [] => by rw [sumValue, Interpretation.totalOver]
  | t :: ts => by
    rw [sumValue, Interpretation.totalOver, linearValue_valueOver h I t,
      sumValue_valueOver h I ts]

theorem prodValue_valueOver (h : Plain own) (I : Interpretation) :
    ∀ ts : List Term, prodValue (I.valueOver own) ts = (ts.map (I.valueOver own)).prod
  | [] => by rw [prodValue, List.map_nil, List.prod_nil]
  | t :: ts => by
    rw [prodValue, List.map_cons, List.prod_cons, linearValue_valueOver h I t,
      prodValue_valueOver h I ts]

end

/-! ## Evaluations -/

section Evaluation

variable {owned : Term → Option ℚ} {I : Interpretation}

/-- What an evaluation of limited depth finds is what the terms stand for. -/
structure Finds (owned : Term → Option ℚ) (own : Term → Bool) (I : Interpretation) (n : Nat) :
    Prop where
  rational : ∀ t q, rationalWithin owned n t = .ok q → I.valueOver own t = q
  leaf : ∀ t q, leafWithin owned n t = .ok q → I.valueOver own t = q
  truth : ∀ t b, truthWithin owned n t = .ok b → I.holdsOver own t = b

variable (hplain : Plain own) (hown : ∀ t, (owned t).isSome = own t)
  (hI : ∀ t q, owned t = some q → I.number t = q)

include hown hI in
theorem valueOver_of_owned {t : Term} {q : ℚ} (h : owned t = some q) : I.valueOver own t = q := by
  rw [I.valueOver_owned (by rw [← hown, h, Option.isSome_some]), hI t q h]

section Step

variable {n : Nat} (h : Finds owned own I n)

include h

theorem Finds.product {ts : List Term} {x q : ℚ}
    (hq : ts.foldlM (fun x u => do return x * (← rationalWithin owned n u)) x = .ok q) :
    x * (ts.map (I.valueOver own)).prod = q := by
  induction ts generalizing x with
  | nil =>
    rw [List.map_nil, List.prod_nil, mul_one]
    exact Except.ok.inj hq
  | cons t ts ih =>
    obtain ⟨z, hz, hq⟩ := bind_eq_ok.mp (List.foldlM_cons.symm.trans hq)
    obtain ⟨y, hy, hz⟩ := bind_eq_ok.mp hz
    obtain rfl := Except.ok.inj hz
    rw [List.map_cons, List.prod_cons, h.rational t y hy, ← mul_assoc]
    exact ih hq

theorem Finds.all {ts : List Term} {b : Bool} (hb : ts.allM (truthWithin owned n) = .ok b) :
    ts.all (I.holdsOver own) = b := by
  induction ts with
  | nil => exact Except.ok.inj hb
  | cons t ts ih =>
    rw [List.allM_cons] at hb
    obtain ⟨c, hc, hb⟩ := bind_eq_ok.mp hb
    rw [List.all_cons, h.truth t c hc]
    cases c with
    | false => exact Except.ok.inj hb
    | true => exact ih hb

theorem Finds.any {ts : List Term} {b : Bool} (hb : ts.anyM (truthWithin owned n) = .ok b) :
    ts.any (I.holdsOver own) = b := by
  induction ts with
  | nil => exact Except.ok.inj hb
  | cons t ts ih =>
    rw [List.anyM_cons] at hb
    obtain ⟨c, hc, hb⟩ := bind_eq_ok.mp hb
    rw [List.any_cons, h.truth t c hc]
    cases c with
    | false => exact ih hb
    | true => exact Except.ok.inj hb

theorem Finds.truth_succ {t : Term} {b : Bool} (hb : truthWithin owned (n + 1) t = .ok b) :
    I.holdsOver own t = b := by
  cases t with
  | bool x =>
    simp only [truthWithin] at hb
    rw [Interpretation.holdsOver]
    exact Except.ok.inj hb
  | neg u =>
    rw [truthWithin] at hb
    obtain ⟨x, hx, hb⟩ := bind_eq_ok.mp hb
    rw [Interpretation.holdsOver, h.truth u x hx]
    exact Except.ok.inj hb
  | conj ts =>
    rw [truthWithin] at hb
    rw [I.holdsOver_conj]
    exact h.all hb
  | disj ts =>
    rw [truthWithin] at hb
    rw [I.holdsOver_disj]
    exact h.any hb
  | implies u v =>
    rw [truthWithin] at hb
    obtain ⟨x, hx, hb⟩ := bind_eq_ok.mp hb
    rw [Interpretation.holdsOver, h.truth u x hx]
    cases x with
    | false => exact Except.ok.inj hb
    | true => exact h.truth v b hb
  | ite c u v =>
    rw [truthWithin] at hb
    obtain ⟨x, hx, hb⟩ := bind_eq_ok.mp hb
    rw [Interpretation.holdsOver, h.truth c x hx]
    cases x with
    | false => exact h.truth v b hb
    | true => exact h.truth u b hb
  | rel r u v =>
    rw [truthWithin] at hb
    obtain ⟨x, hx, hb⟩ := bind_eq_ok.mp hb
    obtain ⟨y, hy, hb⟩ := bind_eq_ok.mp hb
    rw [Interpretation.holdsOver, h.rational u x hx, h.rational v y hy]
    exact Except.ok.inj hb
  | _ =>
    simp only [truthWithin] at hb
    cases hb

include hown hI

theorem Finds.leaf_succ {t : Term} {q : ℚ} (hq : leafWithin owned (n + 1) t = .ok q) :
    I.valueOver own t = q := by
  cases ho : owned t with
  | some x =>
    rw [valueOver_of_owned hown hI ho]
    exact Except.ok.inj ((leafWithin_owned ho n).symm.trans hq)
  | none =>
    have hfree : own t = false := by rw [← hown, ho, Option.isSome_none]
    cases t with
    | prod ts =>
      simp only [leafWithin, ho] at hq
      rw [I.valueOver_prod hfree, ← one_mul (ts.map _).prod]
      exact h.product hq
    | ite c a b =>
      simp only [leafWithin, ho] at hq
      obtain ⟨d, hd, hq⟩ := bind_eq_ok.mp hq
      rw [I.valueOver_ite hfree, h.truth c d hd]
      cases d with
      | true => exact h.rational a q hq
      | false => exact h.rational b q hq
    | _ =>
      simp only [leafWithin, ho] at hq
      cases hq

include hplain in
theorem Finds.rational_succ {t : Term} {q : ℚ} (hq : rationalWithin owned (n + 1) t = .ok q) :
    I.valueOver own t = q := by
  cases ho : owned t with
  | some x =>
    rw [valueOver_of_owned hown hI ho]
    exact Except.ok.inj ((rationalWithin_owned ho n).symm.trans hq)
  | none =>
    cases t with
    | const x =>
      simp only [rationalWithin, ho, Except.ok.injEq] at hq
      rw [I.valueOver_const (hplain.const x), hq]
    | sum ts | prod ts =>
      simp only [rationalWithin, ho] at hq
      rw [← linearValue_valueOver hplain]
      exact linearValue_of_leafWithin h.leaf hq
    | ite c a b =>
      simp only [rationalWithin, ho] at hq
      exact h.leaf _ q hq
    | _ =>
      simp only [rationalWithin, ho] at hq
      cases hq

end Step

include hplain hown hI

theorem finds (n : Nat) : Finds owned own I n := by
  induction n with
  | zero =>
    refine ⟨fun t q hq => ?_, fun t q hq => ?_, fun t b hb => ?_⟩
    · rw [rationalWithin] at hq
      cases hq
    · rw [leafWithin] at hq
      cases hq
    · rw [truthWithin] at hb
      cases hb
  | succ n ih =>
    exact ⟨fun _ _ => ih.rational_succ hplain hown hI, fun _ _ => ih.leaf_succ hown hI,
      fun _ _ => ih.truth_succ⟩

end Evaluation

end Term

namespace Theory

/-- As long as no product has a variable, only variables and `ite` terms have one. -/
theorem Sane.plain {s : Theory} (hs : s.Sane) (hprod : ∀ ts, s.owns (.prod ts) = false) :
    Term.Plain s.owns :=
  ⟨fun _ => Bool.of_not_eq_true fun h => hs.isLeaf_of_owns h,
    fun _ => Bool.of_not_eq_true fun h => hs.isLeaf_of_owns h, hprod⟩

/-- In every state in which no product has a variable, the value of a term is the number that it
stands for when the leaves with variables stand for their values. -/
theorem valueOver_of_rationalValue {o : Options} {ops : List Operation} {as : List Answer}
    {s s' : Theory} (hrun : (start o).run ops = .ok (s, as)) (hstage : Stage s s')
    (hprod : ∀ ts, s'.owns (.prod ts) = false) {t : Term} {q : ℚ}
    (hvalue : s'.rationalValue t = .ok q) (I : Interpretation)
    (hI : ∀ leaf x, s'.owns leaf = true → s'.rationalValue leaf = .ok x → I.number leaf = x) :
    I.valueOver s'.owns t = q := by
  have hs := hstage.sane (running_of_run hrun).sane
  obtain ⟨values, hvalues⟩ := leafValues_of_rationalValue hvalue
  rw [rationalValue_eq_ok hvalues] at hvalue
  have hown := hs.isSome_lookup hvalues
  refine (Term.finds (hs.plain hprod) hown (fun leaf x hx => ?_) _).rational t q hvalue
  refine hI leaf x (by rw [← hown, hx, Option.isSome_some]) ?_
  rw [rationalValue_eq_ok hvalues]
  exact Term.rationalValue_owned hx

/-- An `ite` that gets a variable. -/
def chosen : Term := .ite (.rel .ge (.var "x") (.const 1)) (.var "y") (.const 0)

/-- A product with a zero factor, one with a constant factor, one with a factor that is a constant
only after it is added up, an `ite` with a variable, and one without. -/
def assorted : Term :=
  .sum [.prod [.const 0, .prod [.var "x", .var "y"]], .prod [.var "x", .const 2, .var "y"],
    .prod [.sum [.const 1, .const 1], .var "x"], chosen,
    .ite (.rel .ge (.var "x") (.const 3)) (.var "x") (.prod [.var "x", .var "x"])]

/-- The values are `x = 1` and `y = 2`, and that of the `ite` with a variable is not the one of its
branch. -/
def assigned : Interpretation where
  number t := if t = .var "x" then 1 else if t = .var "y" then 2 else if t = chosen then 0 else 9
  truth _ := true

theorem valueOver_assorted :
    ∃ s as, (start {}).run [.assert (.rel .ge (.var "x") (.const 1)),
        .assert (.rel .eq (.var "y") (.const 2)), .register (.rel .le chosen (.const 7)),
        .check .full] = .ok (s, as) ∧
      assigned.valueOver s.owns assorted = 7 := by
  have h : ((start {}).run [.assert (.rel .ge (.var "x") (.const 1)),
      .assert (.rel .eq (.var "y") (.const 2)), .register (.rel .le chosen (.const 7)),
      .check .full] >>= fun p => Except.ok (p.1.leaves.map Prod.fst,
        [.var "x", .var "y", chosen].map (p.1.rationalValue ·), p.1.rationalValue assorted)) =
      .ok ([.var "x", .var "y", chosen], [.ok 1, .ok 2, .ok 0], .ok 7) := by decide +kernel
  obtain ⟨⟨s, as⟩, hrun, h⟩ := bind_eq_ok.mp h
  simp only [Except.ok.injEq, Prod.mk.injEq, List.map_cons, List.map_nil, List.cons.injEq,
    and_true] at h
  obtain ⟨hleaves, ⟨hx, hy, hchosen⟩, hvalue⟩ := h
  refine ⟨s, as, hrun, valueOver_of_rationalValue hrun .start (fun ts => ?_) hvalue _
    fun leaf x hown hleaf => ?_⟩
  · refine Bool.of_not_eq_true fun hown => ?_
    rw [owns_iff, hleaves] at hown
    simp [chosen] at hown
  · rw [owns_iff, hleaves] at hown
    simp only [List.mem_cons, List.not_mem_nil, or_false] at hown
    obtain rfl | rfl | rfl := hown
    · exact Except.ok.inj (hx.symm.trans hleaf)
    · exact Except.ok.inj (hy.symm.trans hleaf)
    · exact Except.ok.inj (hchosen.symm.trans hleaf)

end Theory

end LinearArithmetic
