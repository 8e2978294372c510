import LinearArithmetic.Proofs.Recording

/-!
# Effects of statements

The statement of an asserted constraint has its effect on the bounds or the disequalities, unless
it clashes with what is asserted already. Then the conflict names asserted constraints, and it
becomes a conjunction of literals of processed facts.
-/

namespace LinearArithmetic

theorem Theory.Clash.congr {s : Theory} {cs ds : List ConstraintId} (h : s.Clash cs)
    (hmem : ∀ c, c ∈ ds ↔ c ∈ cs) : s.Clash ds where
  unsat ρ := by
    obtain ⟨c, hc, hno⟩ := h.unsat ρ
    exact ⟨c, (hmem c).mpr hc, hno⟩
  minimal c hc := by
    obtain ⟨ρ, hρ⟩ := h.minimal c ((hmem c).mp hc)
    exact ⟨ρ, fun d hd hne => hρ d ((hmem d).mp hd) hne⟩
  shape := by
    rcases h.shape with hplain | ⟨d, hd, g, hg, e, he, hrest⟩
    · exact .inl fun c hc => hplain c ((hmem c).mp hc)
    · exact .inr ⟨d, (hmem d).mpr hd, g, (hmem g).mpr hg, e, (hmem e).mpr he, hrest⟩

namespace Theory

/-! ## Conflicts -/

/-- The term is the conjunction of literals of processed facts that cannot hold together, while
any of them can be left out. -/
def Blames (s : Theory) (t : Term) : Prop :=
  ∃ ls, t = .all ls ∧ Core ls ∧ Refuted (· ∈ ls) ∧
    ∀ l ∈ ls, ∃ f ∈ s.processed.toList, f.literal = l

/-- The conflict names constraints that are asserted and clash. -/
structure Clashes (s : Theory) (x : Conflict) : Prop where
  clash : s.Clash x.constraints
  nodup : x.constraints.Nodup
  asserted : ∀ c ∈ x.constraints, (s.database.marksOf c).proof = some []

theorem clashes_of {s : Theory} {cs ds : List ConstraintId} (h : s.Clash cs)
    (hmem : ∀ c, c ∈ ds ↔ c ∈ cs) (hself : ∀ c ∈ ds, (s.database.marksOf c).proof = some []) :
    s.Clashes (.of ds) where
  clash := h.congr fun c => by rw [Conflict.of, List.mem_eraseDups, hmem]
  nodup := nodup_eraseDups _
  asserted c hc := hself c (List.mem_eraseDups.mp hc)

/-- An asserted constraint explains itself with the literal of a processed fact. -/
theorem Recorded.selfExplained {s : Theory} (h : s.Recorded) {c : ConstraintId}
    (hc : (s.database.marksOf c).proof = some []) :
    ∃ t, s.database.SelfExplained c t ∧ s.database.lookup t = some c ∧
      ∃ f ∈ s.processed.toList, f.literal = t := by
  have hproven := proven_of_self hc
  obtain ⟨k, hk, _⟩ := h.sound_now.stored c hproven
  obtain ⟨t, ht, hlook, hf⟩ := h.sound_now.self c k hk hc
  have hm := Database.marksOf_of_stored hk
  rw [hm] at hc
  refine ⟨t, ⟨k, hk, hc, ?_⟩, hlook, hf⟩
  rw [Constraint.explainingLiteral?, ← ht, marks_now, hm]
  rfl

theorem Sane.conflictTerm_spec {s : Theory} (hs : s.Sane) {x : Conflict} (hx : s.Clashes x) :
    ∃ t, s.conflictTerm x = .ok t ∧ s.Blames t := by
  have hex : ∀ c, ∃ t, c ∈ x.constraints → s.database.SelfExplained c t ∧
      s.database.lookup t = some c ∧ ∃ f ∈ s.processed.toList, f.literal = t := by
    intro c
    by_cases hc : c ∈ x.constraints
    · obtain ⟨t, ht⟩ := hs.recorded.selfExplained (hx.asserted c hc)
      exact ⟨t, fun _ => ht⟩
    · exact ⟨.bool true, fun h => absurd h hc⟩
  choose lit hlit using hex
  have hexplain := Database.explanationLiterals_of_self hx.nodup lit fun c hc => (hlit c hc).1
  obtain ⟨hcore, href⟩ := hx.clash.core hs.linked lit (fun c hc => (hlit c hc).2.1) hx.nodup
  refine ⟨.all (x.constraints.map lit), ?_, _, rfl, hcore, href, fun l hl => ?_⟩
  · rw [conflictTerm, hexplain]
    rfl
  · obtain ⟨c, hc, rfl⟩ := List.mem_map.mp hl
    exact (hlit c hc).2.2

/-! ## Statements -/

/-- What asserting what a constraint states leads to: a conflict, or its effect on the records,
while other constraints keep theirs. -/
structure Enacts (s s' : Theory) (c : ConstraintId) (k : Constraint) (conflict : Option Conflict) :
    Prop where
  sane : s'.Sane
  proceeds : Proceeds s s'
  database : s'.database = s.database
  options : s'.options = s.options
  processed : s'.processed = s.processed
  pending : s'.pending = s.pending
  clashes : ∀ x, conflict = some x → s'.Clashes x
  fulfils : conflict = none → s'.now.Fulfils c k.statement
  others : conflict = none → ∀ d l, s.database.stored d = some l →
    (s.database.marksOf d).proof = some [] → s.now.Fulfils d l.statement →
      s'.now.Fulfils d l.statement

/-- A conflict leaves the state as it was. -/
theorem Sane.enacts_conflict {s : Theory} (hs : s.Sane) {c : ConstraintId} {k : Constraint}
    {x : Conflict} (hx : s.Clashes x) : Enacts s s c k (some x) where
  sane := hs
  proceeds := .refl s
  database := rfl
  options := rfl
  processed := rfl
  pending := rfl
  clashes _ hy := Option.some.inj hy ▸ hx
  fulfils h := nomatch h
  others h := nomatch h

/-- An equality and a disequality with the same number are not both asserted. -/
theorem Sane.kind_ne_equality {s : Theory} (hs : s.Sane) {d e : ConstraintId}
    {kd ke : Constraint} (hd : s.database.stored d = some kd)
    (he : s.database.stored e = some ke) (hdself : (s.database.marksOf d).proof = some [])
    (heself : (s.database.marksOf e).proof = some [])
    (hdkind : kd.statement.kind = .disequality) (hvar : ke.statement.var = kd.statement.var)
    (hvalue : ke.statement.value = kd.statement.value) : ke.statement.kind ≠ .equality := by
  intro hekind
  obtain ⟨kn, hkn, _, hneg, hlive⟩ := hs.linked.valid.negation e ke he
  have hst : kn.statement = kd.statement := by
    rw [Statement.negation?, hekind] at hneg
    rw [← Option.some.inj hneg, ← hdkind, hvar, hvalue]
  have heq := hs.linked.valid.eq_of_statement_eq hkn hd (hlive.trans (hs.live he heself))
    (hs.live hd hdself) hst
  refine hs.recorded.sound_now.consistent e ke he (proven_of_self heself) ?_
  rw [heq]
  exact proven_of_self hdself

/-- The reason of a bound at an excluded number is a bound itself. -/
theorem Sane.reason_of_excluded {s : Theory} (hs : s.Sane) {d : ConstraintId} {kd : Constraint}
    (hd : s.database.stored d = some kd) (hdself : (s.database.marksOf d).proof = some [])
    (hdkind : kd.statement.kind = .disequality) {side : Side} {b : Bound}
    (hb : s.simplex.model.boundOf side kd.statement.var = some b)
    (hval : b.value = kd.statement.value) : (s.database.marksOf b.reason).proof = some [] ∧
      ∃ k, s.database.stored b.reason = some k ∧
        k.statement = ⟨kd.statement.var, side.kind, kd.statement.value⟩ := by
  obtain ⟨hp, k, hk, hvar, hvalue, hkind⟩ := hs.recorded.sound_now.reasons side _ b hb
  refine ⟨hp, k, hk, ?_⟩
  have hne := hs.kind_ne_equality hd hk hdself hp hdkind hvar (hvalue.trans hval)
  rw [← hvar, ← hval, ← hvalue, ← hkind.resolve_right hne]

/-- Two bounds at an excluded number. -/
theorem Sane.clash_of_excluded {s : Theory} (hs : s.Sane) (side : Side) {d l u : ConstraintId}
    {kd kl ku : Constraint} (hd : s.database.stored d = some kd)
    (hl : s.database.stored l = some kl) (hu : s.database.stored u = some ku)
    (hdself : (s.database.marksOf d).proof = some [])
    (hlself : (s.database.marksOf l).proof = some [])
    (huself : (s.database.marksOf u).proof = some [])
    (hdkind : kd.statement.kind = .disequality)
    (hsl : kl.statement = ⟨kd.statement.var, side.kind, kd.statement.value⟩)
    (hsu : ku.statement = ⟨kd.statement.var, side.opposite.kind, kd.statement.value⟩) :
    s.Clashes (.of [d, l, u]) := by
  have hsd : kd.statement = ⟨kd.statement.var, .disequality, kd.statement.value⟩ := by
    rw [← hdkind]
  have hself : ∀ c ∈ [d, l, u], (s.database.marksOf c).proof = some [] := by
    rw [List.forall_mem_cons, List.forall_mem_cons, List.forall_mem_singleton]
    exact ⟨hdself, hlself, huself⟩
  cases side with
  | lower =>
    exact clashes_of (clash_of_pinned hs.named hs.framed.toArranged hs.linked hd hl hu
      (hs.live hd hdself) hsd hsl hsu) (fun c => Iff.rfl) hself
  | upper =>
    refine clashes_of (clash_of_pinned hs.named hs.framed.toArranged hs.linked hd hu hl
      (hs.live hd hdself) hsd hsu hsl) (fun c => ?_) hself
    simp only [List.mem_cons, List.not_mem_nil, or_false]
    tauto

theorem Sane.lt_model {s : Theory} (hs : s.Sane) {c : ConstraintId} {k : Constraint}
    (hc : s.database.stored c = some k) (hlive : k.live = true) :
    k.statement.var.id < s.simplex.model.numVariables := by
  rw [hs.framed.room]
  exact hs.linked.inRange hc hlive

/-- A proven disequality at the number of a bound is asserted. -/
theorem Sane.self_of_excluded {s : Theory} (hs : s.Sane) {d : ConstraintId} {kd : Constraint}
    (hd : s.database.stored d = some kd) (hproven : s.now.Proven d)
    (hdkind : kd.statement.kind = .disequality) {side : Side} {b : Bound}
    (hb : s.simplex.model.boundOf side kd.statement.var = some b)
    (hval : b.value = kd.statement.value) : (s.database.marksOf d).proof = some [] := by
  have hallowed : ∀ t β, s.now.bounds t kd.statement.var = some β →
      t.Inside β.value kd.statement.value := by
    rw [← hval]
    exact fun t β hβ => hs.recorded.sound_now.inside_of_bound hb hβ
  have hno : ¬ kd.statement.Holds kd.statement.value := by
    rw [Statement.Holds, hdkind]
    exact fun h => h rfl
  exact hs.recorded.sound_now.self_of_allowed hd hproven hno hallowed

/-- An asserted bound at an excluded number clashes with the bound on the other side. -/
theorem Sane.clashes_of_pinned {s : Theory} (hs : s.Sane) {c d : ConstraintId}
    {k kd : Constraint} (hc : s.database.stored c = some k)
    (hself : (s.database.marksOf c).proof = some []) {side : Side}
    (hkind : k.statement.kind = side.kind) (hd : s.database.stored d = some kd)
    (hproven : s.now.Proven d)
    (hdst : kd.statement = ⟨k.statement.var, .disequality, k.statement.value⟩) {b : Bound}
    (hb : s.simplex.model.boundOf side.opposite k.statement.var = some b)
    (hval : b.value = k.statement.value) : s.Clashes (.of [d, c, b.reason]) := by
  have hdkind : kd.statement.kind = .disequality := by rw [hdst]
  have hb' : s.simplex.model.boundOf side.opposite kd.statement.var = some b := by
    rw [hdst]
    exact hb
  have hval' : b.value = kd.statement.value := by
    rw [hdst]
    exact hval
  have hdself := hs.self_of_excluded hd hproven hdkind hb' hval'
  obtain ⟨hrself, kr, hr, hrst⟩ := hs.reason_of_excluded hd hdself hdkind hb' hval'
  refine hs.clash_of_excluded side hd hc hr hdself hself hrself hdkind ?_ hrst
  rw [hdst, ← hkind]

/-- A bound at an excluded number is found to clash if the bound on the other side is there. -/
theorem Sane.pinnedConflict?_spec {s : Theory} (hs : s.Sane) {c : ConstraintId} {k : Constraint}
    (hc : s.database.stored c = some k) (hself : (s.database.marksOf c).proof = some [])
    {side : Side} (hkind : k.statement.kind = side.kind) :
    ∃ r, s.pinnedConflict? side c k.statement.var k.statement.value = .ok r ∧
      (∀ x, r = some x → s.Clashes x) ∧
      (r = none → ∀ d kd, s.database.stored d = some kd →
        (s.database.marksOf d).proof = some [] →
        kd.statement = ⟨k.statement.var, .disequality, k.statement.value⟩ →
        ∀ b, s.simplex.model.boundOf side.opposite k.statement.var = some b →
          b.value ≠ k.statement.value) := by
  have hbound := Model.bound_eq_ok (hs.lt_model hc (hs.live hc hself)) side.opposite
  rw [pinnedConflict?]
  by_cases hx : k.statement.value.infinitesimal ≠ 0
  · refine ⟨none, by rw [if_pos hx]; rfl, fun _ h => (by cases h), fun _ d kd hd _ hst => ?_⟩
    have hrep := hs.linked.valid.representable d kd hd
    rw [hst] at hrep
    exact absurd hrep hx
  rw [if_neg hx]
  cases hf : s.database.find? ⟨k.statement.var, .disequality, k.statement.value⟩ with
  | none =>
    refine ⟨none, rfl, fun _ h => (by cases h), fun _ d kd hd hdself hst => ?_⟩
    have hfd := hs.linked.valid.find?_eq_some hd (hs.live hd hdself)
    rw [hst, hf] at hfd
    cases hfd
  | some d =>
    obtain ⟨kd, hd, hdlive, hdst⟩ := (hs.linked.valid.find_iff _ _).mp hf
    -- the constraint found is the only one that excludes the number
    have hunique : ∀ d' kd', s.database.stored d' = some kd' →
        (s.database.marksOf d').proof = some [] →
        kd'.statement = ⟨k.statement.var, .disequality, k.statement.value⟩ → d' = d := by
      intro d' kd' hd' hd'self hst
      exact hs.linked.valid.eq_of_statement_eq hd' hd (hs.live hd' hd'self) hdlive
        (hst.trans hdst.symm)
    simp only [Database.hasProof_eq_ok hd, hbound, ok_bind, pure_eq_ok]
    cases hp : kd.proof with
    | none =>
      refine ⟨none, rfl, fun _ h => (by cases h), fun _ d' kd' hd' hd'self hst => ?_⟩
      obtain rfl := hunique d' kd' hd' hd'self hst
      rw [Database.marksOf_of_stored hd, Constraint.marks, hp] at hd'self
      cases hd'self
    | some as =>
      cases hb : s.simplex.model.boundOf side.opposite k.statement.var with
      | none => exact ⟨none, rfl, fun _ h => (by cases h), fun _ _ _ _ _ _ b h => (by cases h)⟩
      | some b =>
        by_cases hval : b.value = k.statement.value
        · refine ⟨some (.of [d, c, b.reason]), by simp [hval], fun x hx' => ?_,
            fun h => (by cases h)⟩
          obtain rfl := Option.some.inj hx'
          have hdproven : s.now.Proven d := by
            rw [Ledger.Proven, marks_now, Database.marksOf_of_stored hd, Constraint.marks, hp]
            simp
          exact hs.clashes_of_pinned hc hself hkind hd hdproven hdst hb hval
        · refine ⟨none, by simp [hval], fun _ h => (by cases h), fun _ _ _ _ _ _ b' hb' => ?_⟩
          rw [← Option.some.inj hb']
          exact hval

/-- An asserted bound clashes with the reason of a bound that it crosses. -/
theorem Sane.clashes_of_crossing {s : Theory} (hs : s.Sane) {c : ConstraintId} {k : Constraint}
    (hc : s.database.stored c = some k) (hself : (s.database.marksOf c).proof = some [])
    {side : Side}
    (hkind : k.statement.kind = side.opposite.kind ∨ k.statement.kind = .equality) {b : Bound}
    (hb : s.simplex.model.boundOf side k.statement.var = some b)
    (hcross : side.beyond b.value k.statement.value = true) : s.Clashes (.of [c, b.reason]) := by
  obtain ⟨hbself, l, hl, hlvar, hlval, hlkind⟩ := hs.recorded.sound_now.reasons side _ b hb
  refine clashes_of (clash_of_crossing hs.named hs.framed.toArranged hs.linked side.opposite hc hl
    (hs.live hc hself) (hs.live hl hbself) ⟨rfl, rfl, hkind⟩
    (by rw [Side.opposite_opposite]; exact ⟨hlvar, hlval, hlkind⟩)
    (by rw [Side.opposite_opposite]; exact hcross)) (fun _ => Iff.rfl) ?_
  rw [List.forall_mem_cons, List.forall_mem_singleton]
  exact ⟨hself, hbself⟩

/-- Bounds that pin no excluded variable leave the effects of other constraints alone. -/
theorem enacts_bounds {s : Theory} {x : Simplex} {c : ConstraintId} {k : Constraint}
    (h : ({ s with simplex := x } : Theory).Sane ∧ Proceeds s { s with simplex := x })
    (hkind : k.statement.kind ≠ .disequality)
    (heff : ({ s with simplex := x } : Theory).now.InEffect k.statement)
    (hpinned : ∀ d l, s.database.stored d = some l → (s.database.marksOf d).proof = some [] →
      l.statement.kind = .disequality →
        (∀ side, ∃ b, x.model.boundOf side l.statement.var = some b ∧
          b.value = l.statement.value) → s.now.Pinned l.statement.var l.statement.value) :
    Enacts s { s with simplex := x } c k none where
  sane := h.1
  proceeds := h.2
  database := rfl
  options := rfl
  processed := rfl
  pending := rfl
  clashes _ h := nomatch h
  fulfils _ := ⟨fun _ => heff, fun hk => absurd hk hkind⟩
  others _ d l hl hself hf := by
    refine ⟨fun hk => (hf.1 hk).extends h.2.more h.1.recorded.sound_now.ordered, fun hk => ?_⟩
    obtain ⟨hmem, hnot⟩ := hf.2 hk
    exact ⟨hmem, fun hp => hnot (hpinned d l hl hself hk hp)⟩

/-- A bound that is tighter than the one before and does not cross the one on the other side takes
effect, if no disequality excludes its number while the other bound is there too. -/
theorem Sane.enacts_bound {s : Theory} (hs : s.Sane) {c : ConstraintId} {k : Constraint}
    (hc : s.database.stored c = some k) (hself : (s.database.marksOf c).proof = some [])
    {side : Side} (hkind : k.statement.kind = side.kind) (hawake : ¬ s.Dormant k.statement.var)
    {x : Simplex} (hasserts : Simplex.Asserts k.statement.var s.simplex x)
    (hinside : ∀ b, s.simplex.model.boundOf side.opposite k.statement.var = some b →
      side.opposite.Inside b.value k.statement.value)
    (htighter : ∀ b, s.simplex.model.boundOf side k.statement.var = some b →
      side.Inside b.value k.statement.value)
    (hbounds : ∀ t u, x.model.boundOf t u = if u = k.statement.var ∧ t = side then
      some ⟨k.statement.value, c⟩ else s.simplex.model.boundOf t u)
    (hfree : ∀ d kd, s.database.stored d = some kd → (s.database.marksOf d).proof = some [] →
      kd.statement = ⟨k.statement.var, .disequality, k.statement.value⟩ →
        ∀ b, s.simplex.model.boundOf side.opposite k.statement.var = some b →
          b.value ≠ k.statement.value) :
    Enacts s { s with simplex := x } c k none := by
  have hnew : x.model.boundOf side k.statement.var = some ⟨k.statement.value, c⟩ := by
    rw [hbounds, if_pos ⟨rfl, rfl⟩]
  have hsame : ∀ t u, ¬ (u = k.statement.var ∧ t = side) →
      x.model.boundOf t u = s.simplex.model.boundOf t u := by
    intro t u h
    rw [hbounds, if_neg h]
  refine enacts_bounds (hs.bounding hasserts hawake (fun t u b hb => ?_) (fun t u hu => ?_)
    (fun t b hb => ?_) fun l u hl hu => ?_) (by rw [hkind]; cases side <;> exact nofun)
    (Ledger.inEffect_of_bound hkind hnew (Side.inside_refl _ _)) fun d l hl hdself hlkind hp => ?_
  · by_cases htu : u = k.statement.var ∧ t = side
    · obtain ⟨rfl, rfl⟩ := htu
      exact ⟨_, hnew, htighter b hb⟩
    · exact ⟨b, (hsame t u htu).trans hb, Side.inside_refl _ _⟩
  · exact hsame t u fun h => hu h.1
  · by_cases ht : t = side
    · rw [ht, hnew] at hb
      rw [← Option.some.inj hb]
      exact .inr ⟨hself, k, hc, rfl, rfl, .inl (ht ▸ hkind)⟩
    · rw [hsame t _ fun h => ht h.2] at hb
      exact .inl hb
  · cases side with
    | lower =>
      rw [hnew] at hl
      rw [hsame .upper _ (by simp)] at hu
      rw [← Option.some.inj hl]
      exact hinside u hu
    | upper =>
      rw [hnew] at hu
      rw [hsame .lower _ (by simp)] at hl
      rw [← Option.some.inj hu]
      exact hinside l hl
  · by_cases hlvar : l.statement.var = k.statement.var
    · -- both bounds would be at the number that the disequality excludes
      obtain ⟨b, hb, hbv⟩ := hp side
      rw [hlvar, hnew] at hb
      obtain ⟨b', hb', hbv'⟩ := hp side.opposite
      rw [hlvar, hsame side.opposite _ fun h => side.opposite_ne h.2] at hb'
      rw [← Option.some.inj hb] at hbv
      have hst : l.statement = ⟨k.statement.var, .disequality, k.statement.value⟩ := by
        rw [← hlvar, ← hlkind, show k.statement.value = l.statement.value from hbv]
      exact absurd (hbv'.trans hbv.symm) (hfree d l hl hdself hst b' hb')
    · intro t
      obtain ⟨b, hb, hbv⟩ := hp t
      exact ⟨b, (hsame t _ fun h => hlvar h.1).symm.trans hb, hbv⟩

theorem Sane.assertSide_spec {s : Theory} (hs : s.Sane) {c : ConstraintId} {k : Constraint}
    (hc : s.database.stored c = some k) (hself : (s.database.marksOf c).proof = some [])
    {side : Side} (hkind : k.statement.kind = side.kind) (hawake : ¬ s.Dormant k.statement.var) :
    ∃ s' conflict, s.assertSide side c k.statement.var k.statement.value = .ok (s', conflict) ∧
      Enacts s s' c k conflict := by
  obtain ⟨r, hr, hclash, hnone⟩ := hs.pinnedConflict?_spec hc hself hkind
  rw [assertSide, hr, ok_bind]
  cases r with
  | some x => exact ⟨s, some x, rfl, hs.enacts_conflict (hclash x rfl)⟩
  | none =>
    rcases Simplex.assertBound_spec hs.framed.coherent side (hs.lt_model hc (hs.live hc hself))
      k.statement.value c with ⟨b, hb, hbeyond, hok⟩ | ⟨hinside, x, hok, hasserts, hcases⟩
    · refine ⟨s, some (.of [c, b.reason]), by simp only [hok]; rfl, hs.enacts_conflict ?_⟩
      refine hs.clashes_of_crossing hc hself (.inl ?_) hb hbeyond
      rw [Side.opposite_opposite]
      exact hkind
    · refine ⟨{ s with simplex := x }, none, by simp only [hok]; rfl, ?_⟩
      rcases hcases with ⟨rfl, b, hb, hin⟩ | ⟨hbeyond, hbounds⟩
      · exact enacts_bounds ⟨hs, .refl s⟩ (by rw [hkind]; cases side <;> exact nofun)
          (Ledger.inEffect_of_bound hkind hb hin) fun _ _ _ _ _ hp => hp
      · exact hs.enacts_bound hc hself hkind hawake hasserts hinside
          (fun b hb => Side.inside_limit_of_beyond (hbeyond b hb)) hbounds (hnone rfl)

theorem Sane.assertEqual_spec {s : Theory} (hs : s.Sane) {c : ConstraintId} {k : Constraint}
    (hc : s.database.stored c = some k) (hself : (s.database.marksOf c).proof = some [])
    (hkind : k.statement.kind = .equality) (hawake : ¬ s.Dormant k.statement.var) :
    ∃ x conflict,
      s.simplex.assertEqual k.statement.var k.statement.value c = .ok (x, conflict) ∧
        Enacts s { s with simplex := x } c k conflict := by
  have hlive := hs.live hc hself
  rcases Simplex.assertEqual_spec hs.framed.coherent (hs.lt_model hc hlive) k.statement.value c with
    ⟨side, b, hb, hbeyond, hok⟩ | ⟨hinside, x, hok, hasserts, hbounds⟩
  · refine ⟨s.simplex, some (.of [c, b.reason]), hok, hs.enacts_conflict ?_⟩
    exact hs.clashes_of_crossing hc hself (.inr hkind) hb hbeyond
  · have hkne : k.statement.kind ≠ .disequality := by rw [hkind]; exact nofun
    have hnew : ∀ t, x.model.boundOf t k.statement.var =
        Simplex.pinned (s.simplex.model.boundOf t k.statement.var) k.statement.value c := by
      intro t
      rw [hbounds, if_pos rfl]
    have hsame : ∀ t u, u ≠ k.statement.var →
        x.model.boundOf t u = s.simplex.model.boundOf t u := by
      intro t u hu
      rw [hbounds, if_neg hu]
    have heff : ({ s with simplex := x } : Theory).now.InEffect k.statement := by
      obtain ⟨lo, hlo⟩ := Simplex.pinned_isSome
        (s.simplex.model.boundOf .lower k.statement.var) k.statement.value c
      obtain ⟨up, hup⟩ := Simplex.pinned_isSome
        (s.simplex.model.boundOf .upper k.statement.var) k.statement.value c
      rw [Ledger.InEffect, hkind]
      exact ⟨lo, up, (hnew .lower).trans hlo, (hnew .upper).trans hup, Simplex.pinned_value hlo,
        Simplex.pinned_value hup⟩
    refine ⟨x, none, hok, enacts_bounds (hs.bounding hasserts hawake (fun t u b hb => ?_) hsame
      (fun t b hb => ?_) fun l u hl hu => ?_) hkne heff fun d l hl hdself hlkind hp => ?_⟩
    · by_cases hu : u = k.statement.var
      · subst hu
        obtain ⟨b', hb'⟩ := Simplex.pinned_isSome
          (s.simplex.model.boundOf t k.statement.var) k.statement.value c
        exact ⟨b', (hnew t).trans hb', by rw [Simplex.pinned_value hb']; exact hinside t b hb⟩
      · exact ⟨b, (hsame t u hu).trans hb, Side.inside_refl _ _⟩
    · rw [hnew] at hb
      rcases Simplex.pinned_reason hb with hold | hreason
      · exact .inl hold
      · rw [hreason]
        exact .inr ⟨hself, k, hc, rfl, (Simplex.pinned_value hb).symm, .inr hkind⟩
    · rw [hnew] at hl hu
      rw [Simplex.pinned_value hl, Simplex.pinned_value hu]
    · by_cases hlvar : l.statement.var = k.statement.var
      · obtain ⟨b, hb, hbv⟩ := hp .lower
        rw [hlvar, hnew] at hb
        rw [Simplex.pinned_value hb] at hbv
        exact absurd hkind (hs.kind_ne_equality hl hc hdself hself hlkind hlvar.symm hbv)
      · intro t
        obtain ⟨b, hb, hbv⟩ := hp t
        exact ⟨b, (hsame t _ hlvar).symm.trans hb, hbv⟩

theorem Sane.assertDifferent_spec {s : Theory} (hs : s.Sane) {c : ConstraintId} {k : Constraint}
    (hc : s.database.stored c = some k) (hself : (s.database.marksOf c).proof = some [])
    (hkind : k.statement.kind = .disequality) (hawake : ¬ s.Dormant k.statement.var) :
    ∃ s' conflict, s.assertDifferent c k.statement.var k.statement.value = .ok (s', conflict) ∧
      Enacts s s' c k conflict := by
  obtain ⟨hsane, hproceeds⟩ := hs.excluding hself hc hkind hawake
  have hbound := fun side => Model.bound_eq_ok (hs.lt_model hc (hs.live hc hself)) side
  have hmem : c ∈ (s.disequalities.push c).toList := by simp
  -- all that can go wrong is that the bounds pin the variable
  have henacts : ∀ conflict, (∀ x, conflict = some x →
      ({ s with disequalities := s.disequalities.push c } : Theory).Clashes x) →
      (conflict = none → ¬ s.now.Pinned k.statement.var k.statement.value) →
      Enacts s { s with disequalities := s.disequalities.push c } c k conflict := by
    intro conflict hclash hfree
    refine ⟨hsane, hproceeds, rfl, rfl, rfl, rfl, hclash, fun h => ?_, fun _ d l _ _ hf => ?_⟩
    · exact ⟨fun hne => absurd hkind hne, fun _ => ⟨hmem, hfree h⟩⟩
    · refine ⟨fun hne => hf.1 hne, fun hk => ?_⟩
      obtain ⟨hd, hnot⟩ := hf.2 hk
      exact ⟨hproceeds.more.disequalities d hd, hnot⟩
  rw [assertDifferent, hbound, hbound, ok_bind, ok_bind]
  cases hlo : s.simplex.model.boundOf .lower k.statement.var with
  | none =>
    refine ⟨_, none, rfl, henacts none (fun _ h => nomatch h) fun _ hp => ?_⟩
    obtain ⟨b, hb, _⟩ := hp .lower
    rw [bounds_now, hlo] at hb
    cases hb
  | some lo =>
    cases hup : s.simplex.model.boundOf .upper k.statement.var with
    | none =>
      refine ⟨_, none, rfl, henacts none (fun _ h => nomatch h) fun _ hp => ?_⟩
      obtain ⟨b, hb, _⟩ := hp .upper
      rw [bounds_now, hup] at hb
      cases hb
    | some up =>
      by_cases hval : lo.value = k.statement.value ∧ up.value = k.statement.value
      · refine ⟨_, some (.of [c, lo.reason, up.reason]), by simp only [if_pos hval]; rfl,
          henacts _ (fun x hx => ?_) fun h => (by cases h)⟩
        obtain rfl := Option.some.inj hx
        obtain ⟨hloself, kl, hkl, hklst⟩ := hs.reason_of_excluded hc hself hkind hlo hval.1
        obtain ⟨hupself, ku, hku, hkust⟩ := hs.reason_of_excluded hc hself hkind hup hval.2
        exact hsane.clash_of_excluded .lower hc hkl hku hself hloself hupself hkind
          hklst hkust
      · refine ⟨_, none, by simp only [if_neg hval]; rfl, henacts none (fun _ h => nomatch h)
          fun _ hp => hval ?_⟩
        obtain ⟨b, hb, hbv⟩ := hp .lower
        obtain ⟨b', hb', hbv'⟩ := hp .upper
        rw [bounds_now, hlo] at hb
        rw [bounds_now, hup] at hb'
        rw [Option.some.inj hb, Option.some.inj hb']
        exact ⟨hbv, hbv'⟩

/-- An asserted constraint on a variable that is awake takes effect or clashes. -/
theorem Sane.assertStatement_spec {s : Theory} (hs : s.Sane) {c : ConstraintId} {k : Constraint}
    (hc : s.database.stored c = some k) (hself : (s.database.marksOf c).proof = some [])
    (hawake : ¬ s.Dormant k.statement.var) :
    ∃ s' conflict, s.assertStatement c k.statement = .ok (s', conflict) ∧
      Enacts s s' c k conflict := by
  rw [assertStatement]
  cases hkind : k.statement.kind with
  | lower => exact hs.assertSide_spec hc hself hkind hawake
  | upper => exact hs.assertSide_spec hc hself hkind hawake
  | equality =>
    obtain ⟨x, conflict, hok, henacts⟩ := hs.assertEqual_spec hc hself hkind hawake
    exact ⟨_, conflict, by simp only [hok]; rfl, henacts⟩
  | disequality => exact hs.assertDifferent_spec hc hself hkind hawake

end Theory

end LinearArithmetic
