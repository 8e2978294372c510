import LinearArithmetic.Proofs.Refusals

/-!
# Terms that can be registered

A term other than a literal can be registered exactly if every term that its linear sum looks at is
arithmetic. These are the terms under sums, the factors of products, and what stands under the only
factor of a product that is not a constant. A product with several such factors is an unknown of its
own: only the heads of its factors are looked at, and what they are built from is not.
-/

namespace LinearArithmetic

namespace Term

/-- A term that can be reached through sums and products. -/
inductive Reaches : Term → Term → Prop
  | refl (t : Term) : Reaches t t
  | sum {ts : List Term} {t u : Term} (ht : t ∈ ts) (h : Reaches t u) : Reaches (sum ts) u
  | prod {ts : List Term} {t u : Term} (ht : t ∈ ts) (h : Reaches t u) : Reaches (prod ts) u

/-- A term that the linear sum looks at. -/
inductive Inspects : Term → Term → Prop
  | refl (t : Term) : Inspects t t
  | sum {ts : List Term} {t u : Term} (ht : t ∈ ts) (h : Inspects t u) : Inspects (sum ts) u
  | factor {ts : List Term} {t : Term} (ht : t ∈ ts) : Inspects (prod ts) t
  | within {ts : List Term} {t u : Term} (ht : variableFactors ts = [t]) (h : Inspects t u) :
    Inspects (prod ts) u

/-- A term that stands below a factor of a product with several factors that are not constants. -/
def Hides (t u : Term) : Prop :=
  ∃ ts f, t.Reaches (prod ts) ∧ 2 ≤ (variableFactors ts).length ∧ f ∈ ts ∧ f ≠ u ∧ f.Reaches u

theorem Reaches.trans {t u w : Term} (h : t.Reaches u) (k : u.Reaches w) : t.Reaches w := by
  induction h with
  | refl => exact k
  | sum ht _ ih => exact .sum ht (ih k)
  | prod ht _ ih => exact .prod ht (ih k)

theorem mem_of_variableFactors {ts : List Term} {t : Term} (h : variableFactors ts = [t]) :
    t ∈ ts :=
  List.mem_of_mem_filter (h ▸ List.mem_singleton_self t : t ∈ variableFactors ts)

theorem Inspects.reaches {t u : Term} (h : t.Inspects u) : t.Reaches u := by
  induction h with
  | refl t => exact .refl t
  | sum ht _ ih => exact .sum ht ih
  | factor ht => exact .prod ht (.refl _)
  | within ht _ ih => exact .prod (mem_of_variableFactors ht) ih

theorem Hides.of_reaches {t t' u : Term} (h : t'.Hides u) (ht : t.Reaches t') : t.Hides u := by
  obtain ⟨ts, f, hts, hlen, hf, hne, hu⟩ := h
  exact ⟨ts, f, ht.trans hts, hlen, hf, hne, hu⟩

theorem Hides.reaches {t u : Term} (h : t.Hides u) : t.Reaches u := by
  obtain ⟨ts, f, hts, -, hf, -, hu⟩ := h
  exact hts.trans (.prod hf hu)

/-- Nothing stands below a factor that is a constant. -/
theorem eq_of_reaches_const {t u : Term} (ht : t.constant?.isNone = false) (h : t.Reaches u) :
    t = u := by
  cases h with
  | refl => rfl
  | sum | prod => cases ht

/-- What is not looked at is hidden. -/
theorem inspects_or_hides {t u : Term} (h : t.Reaches u) : t.Inspects u ∨ t.Hides u := by
  induction h with
  | refl t => exact .inl (.refl t)
  | sum ht _ ih => exact ih.imp (.sum ht) fun h => h.of_reaches (.sum ht (.refl _))
  | @prod ts t u ht h ih =>
    by_cases htu : t = u
    · exact .inl (htu ▸ .factor ht)
    have hvar : t ∈ variableFactors ts :=
      List.mem_filter.mpr ⟨ht, by
        by_contra hc
        exact htu (eq_of_reaches_const (Bool.eq_false_of_not_eq_true hc) h)⟩
    match hv : variableFactors ts with
    | [] => exact absurd (hv ▸ hvar) List.not_mem_nil
    | [f] =>
      obtain rfl : t = f := List.mem_singleton.mp (hv ▸ hvar)
      exact ih.imp (.within hv) fun h => h.of_reaches (.prod ht (.refl _))
    | f :: g :: fs =>
      exact .inr ⟨ts, t, .refl _, by rw [hv]; exact Nat.le_add_left 2 fs.length, ht, htu, h⟩

/-! ## What is refused -/

theorem exists_splitFactors_cons (t : Term) (ts : List Term) :
    ∃ f : ℚ × List Term → ℚ × List Term, splitFactors (t :: ts) =
      if t.isArithmetic then f <$> splitFactors ts else .error (.notArithmetic t) := by
  cases hc : t.constant? with
  | some q =>
    obtain rfl : t = const q := by cases t <;> simp_all [constant?]
    refine ⟨fun p => (q * p.1, p.2), ?_⟩
    rw [splitFactors]
    cases splitFactors ts <;> rfl
  | none =>
    refine ⟨fun p => (p.1, t :: p.2), ?_⟩
    rw [splitFactors_cons hc]
    cases t.isArithmetic <;> cases splitFactors ts <;> rfl

/-- Only a factor that is not arithmetic keeps a product from being split. -/
theorem splitFactors_cases (ts : List Term) :
    (∃ p, splitFactors ts = .ok p) ∧ (∀ t ∈ ts, t.isArithmetic = true) ∨
      ∃ u ∈ ts, splitFactors ts = .error (.notArithmetic u) ∧ u.isArithmetic = false := by
  induction ts with
  | nil => exact .inl ⟨⟨_, rfl⟩, fun _ h => absurd h List.not_mem_nil⟩
  | cons t ts ih =>
    obtain ⟨f, hcons⟩ := exists_splitFactors_cons t ts
    rw [hcons]
    cases ha : t.isArithmetic with
    | false => exact .inr ⟨t, List.mem_cons_self, rfl, ha⟩
    | true =>
      rcases ih with ⟨⟨p, hp⟩, hall⟩ | ⟨u, hu, herror, hau⟩
      · exact .inl ⟨⟨f p, by rw [hp]; rfl⟩, List.forall_mem_cons.mpr ⟨ha, hall⟩⟩
      · exact .inr ⟨u, List.mem_cons_of_mem t hu, by rw [herror]; rfl, hau⟩

/-- The only factor that is not a constant is the one that is added. -/
theorem addFactorTo_eq {ts : List Term} {t : Term} (h : variableFactors ts = [t]) (k : ℚ)
    (s : LinearSum) : addFactorTo ts k s = t.addTo k s := by
  induction ts with
  | nil => cases h
  | cons t' ts ih =>
    rw [addFactorTo_cons]
    cases hc : t'.constant? with
    | some q =>
      rw [variableFactors, List.filter_cons, hc] at h
      exact ih h
    | none =>
      rw [variableFactors, List.filter_cons, hc] at h
      rw [(List.cons.inj h).1]
      rfl

/-- Whatever the linear sum has looked at is arithmetic. -/
theorem Inspects.isArithmetic {t u : Term} (h : t.Inspects u) {k : ℚ} {s s' : LinearSum}
    (hok : t.addTo k s = .ok s') : u.isArithmetic = true := by
  induction h generalizing k s s' with
  | refl t => cases t <;> first | rfl | cases hok
  | @sum ts t u ht _ ih =>
    rw [addTo] at hok
    induction ts generalizing s with
    | nil => cases ht
    | cons t' ts ihs =>
      rw [addAllTo] at hok
      obtain ⟨s₁, hok₁, hok⟩ := bind_eq_ok.mp hok
      rcases List.mem_cons.mp ht with rfl | ht
      · exact ih hok₁
      · exact ihs ht hok
  | factor ht =>
    rcases splitFactors_cases _ with ⟨-, hall⟩ | ⟨_, _, herror, _⟩
    · exact hall _ ht
    · rw [addTo, herror] at hok
      cases hok
  | within ht _ ih =>
    rcases addTo_prod_eq_ok hok with ⟨hv, -⟩ | ⟨f, hv, hok⟩ | ⟨hlen, -⟩
    · rw [hv] at ht
      cases ht
    · rw [addFactorTo_eq ht] at hok
      exact ih hok
    · rw [ht] at hlen
      exact absurd (Nat.le_refl 1) hlen

/-- The refusal names a term that is not arithmetic among those with a property. -/
def Blames (P : Term → Prop) (why : Refusal) : Prop :=
  ∃ u, why = .notArithmetic u ∧ P u ∧ u.isArithmetic = false

theorem Blames.mono {P Q : Term → Prop} {why : Refusal} (h : Blames P why)
    (hPQ : ∀ u, P u → Q u) : Blames Q why := by
  obtain ⟨u, rfl, hu, ha⟩ := h
  exact ⟨u, rfl, hPQ u hu, ha⟩

mutual

/-- A refusal names a term that was looked at. -/
theorem blames_of_addTo : ∀ (t : Term) {k : ℚ} {s : LinearSum} {why : Refusal},
    t.addTo k s = .error why → Blames t.Inspects why
  | const _, _, _, _, h => nomatch h
  | var _, _, _, _, h => nomatch h
  | ite _ _ _, _, _, _, h => nomatch h
  | sum ts, k, s, why, h => by
    rw [addTo] at h
    refine (blames_of_addAllTo ts h).mono ?_
    rintro u ⟨t, ht, hu⟩
    exact .sum ht hu
  | prod ts, k, s, why, h => by
    rcases splitFactors_cases ts with ⟨⟨p, hs⟩, -⟩ | ⟨u, hu, herror, ha⟩
    · rw [addTo_prod hs] at h
      match hv : variableFactors ts, h with
      | [], h => cases h
      | _ :: _ :: _, h => cases h
      | [f], h =>
        refine (blames_of_addFactorTo ts h).mono ?_
        rintro u ⟨t, ht, hu⟩
        rw [hv, List.head?_cons, Option.some.injEq] at ht
        exact .within hv (ht ▸ hu)
    · rw [addTo, herror] at h
      exact ⟨u, (Except.error.inj h).symm, .factor hu, ha⟩
  | bool b, _, _, _, h => ⟨bool b, (Except.error.inj h).symm, .refl _, rfl⟩
  | rel r a b, _, _, _, h => ⟨rel r a b, (Except.error.inj h).symm, .refl _, rfl⟩
  | neg a, _, _, _, h => ⟨neg a, (Except.error.inj h).symm, .refl _, rfl⟩
  | conj ts, _, _, _, h => ⟨conj ts, (Except.error.inj h).symm, .refl _, rfl⟩
  | disj ts, _, _, _, h => ⟨disj ts, (Except.error.inj h).symm, .refl _, rfl⟩
  | implies a b, _, _, _, h => ⟨implies a b, (Except.error.inj h).symm, .refl _, rfl⟩

theorem blames_of_addAllTo : ∀ (ts : List Term) {k : ℚ} {s : LinearSum} {why : Refusal},
    addAllTo ts k s = .error why → Blames (fun u => ∃ t ∈ ts, t.Inspects u) why
  | [], _, _, _, h => nomatch h
  | t :: ts, k, s, why, h => by
    rw [addAllTo] at h
    cases ht : t.addTo k s with
    | error e =>
      rw [ht] at h
      obtain rfl := Except.error.inj h
      exact (blames_of_addTo t ht).mono fun u hu => ⟨t, List.mem_cons_self, hu⟩
    | ok s₁ =>
      rw [ht] at h
      refine (blames_of_addAllTo ts h).mono ?_
      rintro u ⟨t', ht', hu⟩
      exact ⟨t', List.mem_cons_of_mem t ht', hu⟩

theorem blames_of_addFactorTo : ∀ (ts : List Term) {k : ℚ} {s : LinearSum} {why : Refusal},
    addFactorTo ts k s = .error why →
      Blames (fun u => ∃ t, (variableFactors ts).head? = some t ∧ t.Inspects u) why
  | [], _, _, _, h => nomatch h
  | t :: ts, k, s, why, h => by
    rw [addFactorTo_cons] at h
    cases hc : t.constant? with
    | some q =>
      rw [hc] at h
      refine (blames_of_addFactorTo ts h).mono ?_
      rintro u ⟨t', ht', hu⟩
      exact ⟨t', by simpa [variableFactors, hc] using ht', hu⟩
    | none =>
      rw [hc] at h
      exact (blames_of_addTo t h).mono fun u hu => ⟨t, by simp [variableFactors, hc], hu⟩

end

/-- A term has a linear sum exactly if every term that is looked at is arithmetic. -/
theorem exists_linearSum_iff {t : Term} :
    (∃ s, t.linearSum = .ok s) ↔ ∀ u, t.Inspects u → u.isArithmetic = true := by
  constructor
  · rintro ⟨s, hs⟩ u hu
    exact hu.isArithmetic hs
  · intro h
    cases hs : t.linearSum with
    | ok s => exact ⟨s, rfl⟩
    | error why =>
      obtain ⟨u, -, hu, ha⟩ := blames_of_addTo t hs
      rw [h u hu] at ha
      cases ha

end Term

namespace Theory

/-! ## Registering -/

/-- A term other than a literal is registered, and everything that was looked at is arithmetic, or
it is refused for a term that was looked at and is not, and the state stays as it was. -/
theorem Sane.register_term {s : Theory} (hs : s.Sane) {t : Term} (ht : t.isLiteral = false) :
    (∃ s₁, s.step (.register t) = .ok (s₁, .done)) ∧ (∀ u, t.Inspects u → u.isArithmetic = true) ∨
      ∃ u, s.step (.register t) = .ok (s, .refused (.notArithmetic u)) ∧ t.Inspects u ∧
        u.isArithmetic = false := by
  have hregister : s.register t = t.linearSum.mapError .refusal >>= fun sum =>
      (s.requestVars sum.leaves).mapError .fault >>= fun p => .ok p.1 := by
    rw [register, ht]
    rfl
  cases hsum : t.linearSum with
  | error why =>
    obtain ⟨u, rfl, hu, ha⟩ := Term.blames_of_addTo t hsum
    refine .inr ⟨u, ?_, hu, ha⟩
    rw [step, hregister, hsum]
    rfl
  | ok sum =>
    refine .inl ⟨?_, Term.exists_linearSum_iff.mp ⟨sum, hsum⟩⟩
    rcases hs.register_spec t with ⟨why, hrefused⟩ | ⟨s₁, hok, -⟩
    · -- variables are never refused
      rw [hregister, hsum, mapError_ok, ok_bind] at hrefused
      cases hvars : s.requestVars sum.leaves with
      | error f =>
        rw [hvars] at hrefused
        cases hrefused
      | ok p =>
        rw [hvars] at hrefused
        cases hrefused
    · exact ⟨s₁, by rw [step, hok]; rfl⟩

/-- A term other than a literal is accepted exactly if everything that is looked at is arithmetic,
and a refusal names what is not. Of the terms under sums and products all are looked at, apart from
those below the factors of products with several factors that are not constants. -/
theorem register_iff_inspected {o : Options} {ops : List Operation} {as : List Answer}
    {s s' : Theory} (hrun : (start o).run ops = .ok (s, as)) (hstage : Stage s s') {t : Term}
    (ht : t.isLiteral = false) :
    ((∃ s₁, s'.step (.register t) = .ok (s₁, .done)) ↔
        ∀ u, t.Inspects u → u.isArithmetic = true) ∧
      ((∃ s₁, s'.step (.register t) = .ok (s₁, .done)) ∨
        ∃ u, s'.step (.register t) = .ok (s', .refused (.notArithmetic u)) ∧ t.Inspects u ∧
          u.isArithmetic = false) ∧
      ∀ u, t.Reaches u ↔ t.Inspects u ∨ t.Hides u := by
  have hs := hstage.sane (running_of_run hrun).sane
  have hreaches : ∀ u, t.Reaches u ↔ t.Inspects u ∨ t.Hides u := fun u =>
    ⟨Term.inspects_or_hides, fun h => h.elim Term.Inspects.reaches Term.Hides.reaches⟩
  rcases hs.register_term ht with ⟨hdone, hall⟩ | ⟨u, hrefused, hu, ha⟩
  · exact ⟨iff_of_true hdone hall, .inl hdone, hreaches⟩
  · refine ⟨iff_of_false ?_ ?_, .inr ⟨u, hrefused, hu, ha⟩, hreaches⟩
    · rintro ⟨s₁, hdone⟩
      cases hdone.symm.trans hrefused
    · intro hall
      rw [hall u hu] at ha
      cases ha

/-- The presolver has eliminated `x`, and it stays eliminated when `x` is the first summand of a
factor that is refused. -/
theorem register_of_inspected :
    ∃ s as, (start {}).run [.assert (.rel .le (.sum [.var "x", .var "y"]) (.const 10)),
        .check .full, .presolve] = .ok (s, as) ∧ s.isEliminated ⟨0⟩ = true ∧
      s.step (.register (.prod [.const 2, .sum [.var "x", .bool true]])) =
        .ok (s, .refused (.notArithmetic (.bool true))) := by
  have h : ((start {}).run [.assert (.rel .le (.sum [.var "x", .var "y"]) (.const 10)),
      .check .full, .presolve] >>= fun p =>
        p.1.step (.register (.prod [.const 2, .sum [.var "x", .bool true]])) >>= fun q =>
          Except.ok (p.1.isEliminated ⟨0⟩, match q.2 with
            | .refused why => some why
            | _ => none)) = .ok (true, some (.notArithmetic (.bool true))) := by
    decide +kernel
  obtain ⟨⟨s, as⟩, hrun, h⟩ := bind_eq_ok.mp h
  obtain ⟨⟨s₁, a⟩, hstep, h⟩ := bind_eq_ok.mp h
  simp only [Except.ok.injEq, Prod.mk.injEq] at h
  obtain ⟨hgone, hanswer⟩ := h
  refine ⟨s, as, hrun, hgone, ?_⟩
  obtain ⟨-, ⟨s₂, hdone⟩ | ⟨u, hrefused, -, -⟩, -⟩ := register_iff_inspected hrun .start
    (t := .prod [.const 2, .sum [.var "x", .bool true]]) rfl
  · cases hstep.symm.trans hdone
    cases hanswer
  · cases hstep.symm.trans hrefused
    cases hanswer
    exact hrefused

/-- A truth value below a factor is accepted beside another factor. -/
theorem register_of_hidden :
    ∃ s, (start {}).step (.register (.prod [.var "x", .sum [.var "y", .bool true]])) =
        .ok (s, .done) ∧
      (Term.prod [.var "x", .sum [.var "y", .bool true]]).Reaches (.bool true) ∧
      (Term.bool true).isArithmetic = false := by
  have h : (InPlace.register (.prod [.var "x", .sum [.var "y", .bool true]]) (start {}) >>= fun q =>
      Except.ok q.1) = .ok (.ok ()) := by decide +kernel
  obtain ⟨⟨r, s⟩, hregister, h⟩ := bind_eq_ok.mp h
  obtain rfl := Except.ok.inj h
  refine ⟨s, ?_, .prod (.tail _ (.head _)) (.sum (.tail _ (.head _)) (.refl _)), rfl⟩
  rw [((sane_start {}).allOrNothing_register _).step, hregister, ok_bind, InPlace.answer]

end Theory

end LinearArithmetic
