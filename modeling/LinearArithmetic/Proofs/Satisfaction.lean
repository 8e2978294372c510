import LinearArithmetic.Proofs.ConcreteDelta
import LinearArithmetic.Proofs.Conflicts
import LinearArithmetic.Proofs.Discipline
import LinearArithmetic.Proofs.Evaluation
import LinearArithmetic.Theory.Value

/-!
# Values that satisfy the asserted literals

When all values are within their bounds, a number for the infinitesimal is found under which they
stay so as rationals. The values of the leaves then satisfy every literal that has had its effect,
and so every literal that was asserted before a check without a conflict.
-/

namespace LinearArithmetic

/-- A rational on the inner side of a bound at the number found for `δ` is on the inner side of the
bound. -/
theorem Statement.Representable.inside_of_substitute {st : Statement} (h : st.Representable)
    {side : Side} (hkind : st.kind = side.kind ∨ st.kind = .equality) {d x : ℚ} (hd : 0 < d)
    (hx : side.Inside (.ofRat (st.value.substitute d)) (.ofRat x)) :
    side.Inside st.value (.ofRat x) := by
  obtain ⟨v, kind, ⟨c, i⟩⟩ := st
  have hi : i = 0 ∨ side = .lower ∧ i = 1 ∨ side = .upper ∧ i = -1 := by
    cases side <;> rcases hkind with hk | hk <;> simp only [Side.kind] at hk <;> subst hk <;>
      simp only [Representable] at h <;> simp [h]
  rcases hi with rfl | ⟨rfl, rfl⟩ | ⟨rfl, rfl⟩
  · simpa [DeltaRat.substitute, DeltaRat.ofRat] using hx
  · simp only [Side.Inside, DeltaRat.le_def, DeltaRat.ofRat, DeltaRat.substitute] at hx ⊢
    exact .inl (by linarith [hx.elim le_of_lt fun h => h.1.le])
  · simp only [Side.Inside, DeltaRat.le_def, DeltaRat.ofRat, DeltaRat.substitute] at hx ⊢
    exact .inl (by linarith [hx.elim le_of_lt fun h => h.1.le])

namespace Theory

/-- The values of the leaves when `d` stands for the infinitesimal, with which all bounds and the
disequalities that hold still do. -/
structure Valued (s : Theory) (values : List (Term × ℚ)) (d : ℚ) : Prop where
  pos : 0 < d
  lookup : ∀ t, values.lookup t = (s.varOf? t).map fun v => (s.currentOf v).substitute d
  inside : ∀ side v b, s.simplex.model.boundOf side v = some b →
    side.Inside (.ofRat (b.value.substitute d))
      (.ofRat ((s.simplex.model.valueOf v).substitute d))
  apart : ∀ c ∈ s.disequalities.toList, ∀ k, s.database.stored c = some k →
    s.simplex.model.valueOf k.statement.var ≠ k.statement.value →
    (s.simplex.model.valueOf k.statement.var).substitute d ≠ k.statement.value.substitute d

/-- Looking up a leaf among leaves with values computed from their variables. -/
theorem lookup_map_values (l : List (Term × Var)) (f : Var → ℚ) (t : Term) :
    (l.map fun e => (e.1, f e.2)).lookup t = (l.lookup t).map f := by
  induction l with
  | nil => rfl
  | cons e rest ih =>
    rw [List.map_cons, List.lookup_cons, List.lookup_cons, ih]
    cases t == e.1 <;> rfl

theorem Sane.excluded_eq_ok {s : Theory} (hs : s.Sane) :
    s.excluded = .ok (s.disequalities.toList.map s.aboutOf) := by
  refine Checked.mapM_eq_ok fun c hc => ?_
  obtain ⟨k, hk, habout⟩ := hs.exists_about hc
  simp only [Database.get_eq_ok hk, ok_bind, pure_eq_ok, habout]

/-- The number found for the infinitesimal. -/
def smallDelta (s : Theory) : ℚ :=
  s.simplex.model.smallDelta s.options.defaultDelta (s.disequalities.toList.map s.aboutOf)

theorem Sane.concreteDelta_eq_ok {s : Theory} (hs : s.Sane)
    (hdefault : 0 < s.options.defaultDelta) : s.concreteDelta = .ok s.smallDelta := by
  rw [concreteDelta, hs.excluded_eq_ok, ok_bind]
  refine Model.concreteDelta_eq_ok hdefault fun e he => ?_
  obtain ⟨c, hc, rfl⟩ := List.mem_map.mp he
  obtain ⟨hself, k, hk, _⟩ := hs.recorded.sound_now.disequalities c hc
  rw [aboutOf_of_stored hk]
  exact hs.lt_model hk (hs.live hk hself)

/-- The value of a variable can be computed. -/
theorem Sane.value_eq_ok {s : Theory} (hs : s.Sane) {v : Var} (hv : v.id < s.infos.size) :
    s.value v = .ok (s.currentOf v) :=
  hs.framed.toArranged.value_eq_ok (m := s.simplex.model) rfl (fun _ _ => rfl) hv

/-- The values of the leaves under a number for the infinitesimal. -/
noncomputable def valuesAt (s : Theory) (d : ℚ) : List (Term × ℚ) :=
  s.leaves.map fun e => (e.1, (s.currentOf e.2).substitute d)

theorem lookup_valuesAt (s : Theory) (d : ℚ) (t : Term) :
    (s.valuesAt d).lookup t = (s.varOf? t).map fun v => (s.currentOf v).substitute d :=
  lookup_map_values s.leaves (fun v => (s.currentOf v).substitute d) t

theorem Sane.leafValues_eq_ok {s : Theory} (hs : s.Sane) (hdefault : 0 < s.options.defaultDelta) :
    s.leafValues = .ok (s.valuesAt s.smallDelta) := by
  rw [leafValues, hs.concreteDelta_eq_ok hdefault, ok_bind]
  refine Checked.mapM_eq_ok fun e he => ?_
  simp only [hs.value_eq_ok (hs.named.listed e he), ok_bind, pure_eq_ok]

/-- A number that separates the bounds and the excluded values gives values to the leaves. -/
theorem valued_of_separates {s : Theory} {d : ℚ}
    (hsep : s.simplex.model.Separates (s.disequalities.toList.map s.aboutOf) d) :
    s.Valued (s.valuesAt d) d where
  pos := hsep.pos
  lookup := s.lookup_valuesAt d
  inside := hsep.inside
  apart c hc _ hk := hsep.apart _ (List.mem_map.mpr ⟨c, hc, aboutOf_of_stored hk⟩)

/-- Values within their bounds become values of the leaves. -/
theorem Sane.leafValues_spec {s : Theory} (hs : s.Sane) (hin : s.Inside)
    (hdefault : 0 < s.options.defaultDelta) :
    ∃ values d, s.leafValues = .ok values ∧ s.Valued values d :=
  ⟨_, _, hs.leafValues_eq_ok hdefault,
    valued_of_separates (Model.separates_smallDelta hin hdefault _)⟩

/-- Values within their bounds are those of some numbers for the leaves, whatever the options. -/
theorem Inside.exists_valued {s : Theory} (hin : s.Inside) : ∃ values d, s.Valued values d :=
  ⟨_, _, valued_of_separates (Model.separates_smallDelta hin one_pos _)⟩

section Valued

variable {s : Theory} {values : List (Term × ℚ)} {d : ℚ} (h : s.Valued values d) (hs : s.Sane)

include h hs

theorem Valued.isLeaf {t : Term} {q : ℚ} (ht : values.lookup t = some q) : t.IsLeaf := by
  rw [h.lookup] at ht
  obtain ⟨v, hv, _⟩ := Option.map_eq_some_iff.mp ht
  exact hs.named.leaf t v ((hs.named.leaves t v).mp hv)

/-- With the values of the leaves, a variable that is in use has its own value. -/
theorem Valued.interpret_eq {ρ : Term → ℚ} (hρ : ∀ t q, values.lookup t = some q → ρ t = q)
    {v : Var} (hv : ¬ s.Dormant v) :
    s.interpret ρ v = (s.simplex.model.valueOf v).substitute d := by
  rw [Dormant, not_or, not_not] at hv
  let σ : Var → ℚ := fun u => (s.currentOf u).substitute d
  have hreads : s.interpret ρ v = s.interpret (s.reading σ) v := by
    refine Row.eval_congr fun u hu => ?_
    have hleaf := hs.framed.toArranged.isLeaf_of_formOf hv.1.lt hu
    obtain ⟨t, ht⟩ := isLeaf_iff.mp hleaf
    rw [hs.named.reading_leafOf hleaf, leafOf_of_content? ht]
    exact hρ t _ (by rw [h.lookup, (hs.named.leaves t u).mpr ht]; rfl)
  have hσ : s.Solves σ := by
    obtain ⟨htableau, heliminated⟩ := hs.framed.solves_currentOf
    refine ⟨htableau.map (DeltaRat.substituteHom d), fun e he => ?_⟩
    have hvalue : σ e.1 = DeltaRat.substituteHom d (e.2.eval s.currentOf) :=
      congrArg (DeltaRat.substituteHom d) (heliminated e he)
    exact hvalue.trans (Row.map_eval _ _ _)
  rw [hreads, hs.named.interpret_of_defined hs.framed.toArranged ((hs.balanced ℚ σ).mp hσ) hv.1]
  have hown : s.currentOf v = s.simplex.model.valueOf v := extended_of_not_mem hv.2 _
  exact congrArg (DeltaRat.substitute d) hown

/-- What the bounds bring about holds for the values of the leaves. -/
theorem Valued.holds_of_inEffect {ρ : Term → ℚ}
    (hρ : ∀ t q, values.lookup t = some q → ρ t = q) {st : Statement} (hst : s.now.InEffect st) :
    st.Holds (.ofRat (s.interpret ρ st.var)) := by
  refine hst.holds fun side b hb => ?_
  obtain ⟨_, k, hk, _, hx, hkind⟩ := hs.recorded.sound_now.reasons side st.var b hb
  rw [h.interpret_eq hs hρ (hs.recorded.bounded side _ b hb), ← hx]
  refine (hs.linked.valid.representable _ k hk).inside_of_substitute hkind h.pos ?_
  rw [hx]
  exact h.inside side _ b hb

/-- A constraint with a proof holds for the values of the leaves, unless it was asserted as a
disequality. -/
theorem Valued.says_of_proven (hc : s.now.Complete s) {ρ : Term → ℚ}
    (hρ : ∀ t q, values.lookup t = some q → ρ t = q) {c : ConstraintId} {k : Constraint}
    (hk : s.database.stored c = some k) (hp : s.now.Proven c)
    (hdis : k.statement.kind = .disequality → c ∈ s.disequalities.toList →
      s.simplex.model.valueOf k.statement.var ≠ k.statement.value) :
    k.statement.Holds (.ofRat (s.interpret ρ k.statement.var)) := by
  obtain ⟨as, has⟩ := Option.ne_none_iff_exists'.mp hp
  cases as with
  | cons a as =>
    obtain ⟨_, _, l, _, ⟨hvar, himp⟩, heff⟩ := hs.recorded.sound_now.implied c k a as hk has
    rw [hvar]
    exact himp _ (h.holds_of_inEffect hs hρ heff)
  | nil =>
    obtain ⟨hbound, hexcluded⟩ := hc.effective c k hk has
    by_cases hkind : k.statement.kind = .disequality
    · obtain ⟨hmem, _⟩ := hexcluded hkind
      have hmem : c ∈ s.disequalities.toList := hmem
      have hne := h.apart c hmem k hk (hdis hkind hmem)
      have hrep := hs.linked.valid.representable c k hk
      rw [h.interpret_eq hs hρ (hs.recorded.excluded c hmem k hk)]
      rw [Statement.Holds, hkind]
      intro heq
      refine hne ?_
      rw [← heq]
      simp [DeltaRat.substitute, DeltaRat.ofRat]
    · exact h.holds_of_inEffect hs hρ (hbound hkind)

/-- A fact that is settled holds for the values of the leaves, unless it is a disequality. -/
theorem Valued.holds_of_settled (hc : s.now.Complete s) {ρ : Term → ℚ}
    (hρ : ∀ t q, values.lookup t = some q → ρ t = q) {t : Term} (ht : s.now.Settles s t)
    (hdis : t.IsDisequality → ∀ c k, s.database.lookup t = some c →
      s.database.stored c = some k → c ∈ s.disequalities.toList →
      s.simplex.model.valueOf k.statement.var ≠ k.statement.value) : t.Holds ρ := by
  rcases ht with ht | ⟨c, hlook, hp⟩
  · exact (hs.linked.holds_iff_constantTruth ht ρ).mpr rfl
  · obtain ⟨_, k, hk, _⟩ := hs.linked.valid.known t c hlook
    have hden := hs.linked.denotes t c k hlook hk
    rw [hden.holds]
    exact h.says_of_proven hs hc hρ hk hp fun hkind => hdis (hden.kind.mp hkind) c k hlook hk

end Valued

/-! ## Checks without a conflict -/

/-- The literal is not a disequality, or a full check that sent no formula has decided it: the
disequality is not marked as split, or a literal that implies it was asserted, such as one of its
strict sides. -/
def Decided (s : Theory) (j : Journal) (effort : Effort) (r : Report) (f : Term) : Prop :=
  ¬ f.IsDisequality ∨ effort = .full ∧ r.lemmas = [] ∧
    ((∀ c k, s.database.lookup f = some c → s.database.stored c = some k → k.split = false) ∨
      ∃ g, j.Asserts g ∧ ¬ g.IsDisequality ∧ ∀ ρ, g.Holds ρ → f.Holds ρ)

section Check

variable {o : Options} {ops : List Operation} {as : List Answer} {s s' : Theory} {effort : Effort}
  {r : Report} (hrun : (start o).run ops = .ok (s, as)) (hcheck : s.check effort = .ok (s', r))
  (hnone : r.conflicts = [])

include hrun hcheck hnone

/-- When no violation has got lost, the innermost scope fits after a check without a conflict. -/
theorem fit_of_heeded (hheeds : Journal.HeedsAll {} ops as)
    (hready : (Journal.of ops as).conflict = none) (hsight : Sight.of ops as ≠ .lost) :
    s'.Fit s'.level .inside := by
  have hv := verdict_of_run hrun hcheck
  have hh := hv.healthy (running_of_run hrun) (healthy_of_heeded hrun hheeds) hready
  have hfit := hh.fit (by rw [Journal.note, if_pos hnone]; exact hready) (Nat.le_refl s'.level)
  rwa [Sight.note_of_accepted hsight hnone] at hfit

/-- A check without a conflict has processed every fact. -/
theorem processed_of_check : s'.processed.toList = (Journal.of ops as).facts := by
  have hv := verdict_of_run hrun hcheck
  have hfacts := hv.facts.trans (running_of_run hrun).facts
  rwa [(hv.accepts hnone).done, List.append_nil] at hfacts

/-- When the innermost scope fits after a check without a conflict, every asserted literal is
settled. -/
theorem settles_of_fit (hfit : s'.Fit s'.level .inside) {t : Term}
    (ht : (Journal.of ops as).Asserts t) : s'.now.Complete s' ∧ s'.now.Settles s' t := by
  have hcomplete := hfit.complete
  rw [(verdict_of_run hrun hcheck).sane.recorded.levelled.ledgerAt_level] at hcomplete
  obtain ⟨e, he, rfl⟩ := ht
  rw [← processed_of_check hrun hcheck hnone] at he
  exact ⟨hcomplete, hcomplete.settled e he⟩

end Check

section Check

variable {o : Options} {ops : List Operation} {as : List Answer} {s s' : Theory} {effort : Effort}
  {r : Report} (hrun : (start o).run ops = .ok (s, as)) (hallows : Journal.AllowsAll {} ops as)
  (hready : (Journal.of ops as).Allows (.check effort)) (hcheck : s.check effort = .ok (s', r))
  (hnone : r.conflicts = [])

include hrun hallows hready hcheck hnone

/-- After a check without a conflict the innermost scope fits. -/
theorem fit_of_check : s'.Fit s'.level .inside := by
  refine fit_of_heeded hrun hcheck hnone hallows.heedsAll hready ?_
  intro hlost
  rw [Sight.of, Sight.noteAll_of_allowsAll hallows] at hlost
  cases hlost

/-- After a check without a conflict every asserted literal is settled. -/
theorem settles_of_check {t : Term} (ht : (Journal.of ops as).Asserts t) :
    s'.now.Complete s' ∧ s'.now.Settles s' t :=
  settles_of_fit hrun hcheck hnone (fit_of_check hrun hallows hready hcheck hnone) ht

/-- After a check without a conflict the leaves have values that make every asserted literal true
which the check has decided, and no such literal evaluates to anything else. -/
theorem satisfied_of_check (hdefault : 0 < o.defaultDelta) :
    ∃ values, s'.leafValues = .ok values ∧
      ∀ f, (Journal.of ops as).Asserts f → s'.Decided (Journal.of ops as) effort r f →
        (∀ ρ, (∀ t q, values.lookup t = some q → ρ t = q) → f.Holds ρ) ∧
          ∀ v, s'.evaluate f = .ok v → v = .truth true := by
  have hv := verdict_of_run hrun hcheck
  have hs := hv.sane
  have hfit := fit_of_check hrun hallows hready hcheck hnone
  have hsettles : ∀ g, (Journal.of ops as).Asserts g → s'.now.Complete s' ∧ s'.now.Settles s' g :=
    fun g hg => settles_of_check hrun hallows hready hcheck hnone hg
  have hoptions : s'.options = o := hv.continues.options.trans ((running_start o).options hrun)
  obtain ⟨values, d, hvalues, hvalued⟩ :=
    hs.leafValues_spec (hfit.inside_now hs.recorded) (hoptions ▸ hdefault)
  have hplain : ∀ g, (Journal.of ops as).Asserts g → ¬ g.IsDisequality → ∀ ρ,
      (∀ t q, values.lookup t = some q → ρ t = q) → g.Holds ρ := fun g hg hdis ρ hρ =>
    hvalued.holds_of_settled hs (hsettles g hg).1 hρ (hsettles g hg).2 fun h => absurd h hdis
  have hholds : ∀ f, (Journal.of ops as).Asserts f →
      s'.Decided (Journal.of ops as) effort r f → ∀ ρ,
      (∀ t q, values.lookup t = some q → ρ t = q) → f.Holds ρ := by
    rintro f hf (hdis | ⟨hfull, hlemmas, hsplit | ⟨g, hg, hdis, himp⟩⟩) ρ hρ
    · exact hplain f hf hdis ρ hρ
    · obtain ⟨hcomplete, hset⟩ := hsettles f hf
      refine hvalued.holds_of_settled hs hcomplete hρ hset fun _ c k hc hk hmem heq => ?_
      exact hv.decided hnone hfull hlemmas c hmem ⟨k, hk, hsplit c k hc hk, heq⟩
    · exact himp ρ (hplain g hg hdis ρ hρ)
  refine ⟨values, hvalues, fun f hf hsettled => ⟨hholds f hf hsettled, fun v hev => ?_⟩⟩
  -- the values of the leaves and those computed from their parts are one assignment
  obtain ⟨ρ, hρ⟩ := Term.exists_reads fun t => values.lookup t
  have hlit : f.isLiteral = true := by
    obtain ⟨e, he, rfl⟩ := hf
    rw [← processed_of_check hrun hcheck hnone] at he
    exact (hs.recorded.linear e (List.mem_append_left _ he)).isRelational
  have hev' : f.evaluate (fun t => values.lookup t) = .ok v := by
    have hvalue : (f.evaluate fun t => values.lookup t).mapError Failure.refusal = .ok v := by
      rwa [evaluate, hvalues] at hev
    cases hf' : f.evaluate fun t => values.lookup t with
    | error why =>
      rw [hf'] at hvalue
      cases hvalue
    | ok x =>
      rw [hf'] at hvalue
      rw [Except.ok.inj hvalue]
  obtain ⟨b, rfl, hb⟩ := hρ.evaluate (fun t q => hvalued.isLeaf hs) hlit hev'
  rw [hb.mpr (hholds f hf hsettled ρ fun t q => hρ.of_owned)]

end Check

/-- Assertions of `0 < x`, `x + y < 2`, `1 ≤ y` and `x ≠ 1/2`, two of them in a scope. -/
def strictlyBetween : List Operation :=
  [.assert (.rel .gt (.var "x") (.const 0)),
    .assert (.rel .lt (.sum [.var "x", .var "y"]) (.const 2)), .push,
    .assert (.rel .ge (.var "y") (.const 1)),
    .assert (.neg (.rel .eq (.var "x") (.const (1 / 2))))]

/-- The disequality is true for the values that the check leaves. -/
theorem satisfied_of_strictlyBetween :
    ∃ s as s' values, (start {}).run strictlyBetween = .ok (s, as) ∧
      s.check .full = .ok (s', {}) ∧ s'.leafValues = .ok values ∧
        (∀ ρ, (∀ t q, values.lookup t = some q → ρ t = q) →
          (Term.neg (.rel .eq (.var "x") (.const (1 / 2)))).Holds ρ) ∧
        ∀ v, s'.evaluate (.neg (.rel .eq (.var "x") (.const (1 / 2)))) = .ok v →
          v = .truth true := by
  let f : Term := .neg (.rel .eq (.var "x") (.const (1 / 2)))
  have h : ((start {}).run strictlyBetween >>= fun p => p.1.check .full >>= fun q =>
      Except.ok (q.2, p.2.all (·.isQuiet),
        ((Journal.of strictlyBetween p.2).facts.any (·.literal == f)),
        (q.1.database.lookup f).bind fun c => (q.1.database.stored c).map (·.split))) =
      .ok ({}, true, true, some false) := by decide +kernel
  obtain ⟨⟨s, as⟩, hrun, h⟩ := bind_eq_ok.mp h
  obtain ⟨⟨s', r⟩, hcheck, h⟩ := bind_eq_ok.mp h
  simp only [Except.ok.injEq, Prod.mk.injEq] at h
  obtain ⟨rfl, hquiet, hasserted, hsplit⟩ := h
  obtain ⟨hallows, hready⟩ : Journal.AllowsAll {} strictlyBetween as ∧
      (Journal.of strictlyBetween as).conflict = none := Journal.allowsAll_of_quiet rfl hquiet
  obtain ⟨e, he, hef⟩ := List.any_eq_true.mp hasserted
  obtain ⟨values, hvalues, hall⟩ :=
    satisfied_of_check hrun hallows hready hcheck rfl (by decide)
  refine ⟨s, as, s', values, hrun, hcheck, hvalues, hall f ⟨e, he, beq_iff_eq.mp hef⟩
    (.inr ⟨rfl, rfl, .inl fun c k hc hk => ?_⟩)⟩
  rw [hc, Option.bind_some, hk, Option.map_some] at hsplit
  exact Option.some.inj hsplit

end Theory

end LinearArithmetic
