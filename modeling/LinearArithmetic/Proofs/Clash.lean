import LinearArithmetic.Proofs.Elimination
import LinearArithmetic.Proofs.Ledger

/-!
# Constraints that clash

Each way in which the theory finds a conflict names some constraints that cannot hold together,
while any of them can be left out: a constraint and one that implies its negation, two bounds
that cross, an excluded number between two bounds, and the bounds of a row that cannot reach the
bound of its variable.
-/

namespace LinearArithmetic

/-! ## Literals -/

/-- The literals cannot hold together, but any of them can be left out. -/
structure Core (ls : List Term) : Prop where
  nodup : ls.Nodup
  unsat : ∀ ρ, ∃ l ∈ ls, ¬ l.Holds ρ
  minimal : ∀ l ∈ ls, ∃ ρ, ∀ l' ∈ ls, l' ≠ l → l'.Holds ρ

/-- The literals with a property cannot hold together, and not only because of disequalities and
what rows force: one of them is false, or those that are not disequalities cannot hold together,
or two of them say exactly what another one denies. -/
def Refuted (P : Term → Prop) : Prop :=
  (∃ l, P l ∧ ∀ ρ, ¬ l.Holds ρ) ∨
    (∀ ρ, ∃ l, P l ∧ ¬ l.IsDisequality ∧ ¬ l.Holds ρ) ∨
    ∃ d g h, P d ∧ P g ∧ P h ∧ d.IsDisequality ∧ ¬ g.IsDisequality ∧ ¬ h.IsDisequality ∧
      ∀ ρ, ¬ d.Holds ρ ↔ g.Holds ρ ∧ h.Holds ρ

theorem Refuted.mono {P Q : Term → Prop} (h : Refuted P) (hPQ : ∀ l, P l → Q l) : Refuted Q := by
  rcases h with ⟨l, hl, hno⟩ | h | ⟨d, g, e, hd, hg, he, h⟩
  · exact .inl ⟨l, hPQ l hl, hno⟩
  · refine .inr (.inl fun ρ => ?_)
    obtain ⟨l, hl, h'⟩ := h ρ
    exact ⟨l, hPQ l hl, h'⟩
  · exact .inr (.inr ⟨d, g, e, hPQ d hd, hPQ g hg, hPQ e he, h⟩)

/-- A false literal is a conflict of its own. -/
theorem core_singleton {t : Term} (h : ∀ ρ, ¬ t.Holds ρ) : Core [t] ∧ Refuted (· ∈ [t]) := by
  refine ⟨⟨List.pairwise_singleton _ _, fun ρ => ⟨t, List.mem_singleton_self t, h ρ⟩,
    fun l hl => ⟨fun _ => 0, fun l' hl' hne => ?_⟩⟩, .inl ⟨t, List.mem_singleton_self t, h⟩⟩
  rw [List.mem_singleton] at hl hl'
  exact absurd (hl'.trans hl.symm) hne

namespace Theory

/-! ## Constraints -/

/-- The constraint holds when `ρ` gives the values of the leaves. -/
def Says (s : Theory) (ρ : Term → ℚ) (c : ConstraintId) : Prop :=
  ∃ k, s.database.stored c = some k ∧
    k.statement.Holds (.ofRat (s.interpret ρ k.statement.var))

/-- The constraint is a disequality. -/
def Excludes (s : Theory) (c : ConstraintId) : Prop :=
  ∃ k, s.database.stored c = some k ∧ k.statement.kind = .disequality

theorem says_iff {s : Theory} {c : ConstraintId} {k : Constraint}
    (hc : s.database.stored c = some k) (ρ : Term → ℚ) :
    s.Says ρ c ↔ k.statement.Holds (.ofRat (s.interpret ρ k.statement.var)) := by
  refine ⟨fun ⟨k', hk', h⟩ => ?_, fun h => ⟨k, hc, h⟩⟩
  rw [hc] at hk'
  rw [Option.some.inj hk']
  exact h

theorem excludes_iff {s : Theory} {c : ConstraintId} {k : Constraint}
    (hc : s.database.stored c = some k) :
    s.Excludes c ↔ k.statement.kind = .disequality := by
  refine ⟨fun ⟨k', hk', h⟩ => ?_, fun h => ⟨k, hc, h⟩⟩
  rw [hc] at hk'
  rw [Option.some.inj hk']
  exact h

/-- The constraints cannot hold together, any of them can be left out, and they are not in
conflict through disequalities in an indirect way. -/
structure Clash (s : Theory) (cs : List ConstraintId) : Prop where
  unsat : ∀ ρ, ∃ c ∈ cs, ¬ s.Says ρ c
  minimal : ∀ c ∈ cs, ∃ ρ, ∀ d ∈ cs, d ≠ c → s.Says ρ d
  shape : (∀ c ∈ cs, ¬ s.Excludes c) ∨ ∃ d ∈ cs, ∃ g ∈ cs, ∃ h ∈ cs,
    s.Excludes d ∧ ¬ s.Excludes g ∧ ¬ s.Excludes h ∧
      ∀ ρ, ¬ s.Says ρ d ↔ s.Says ρ g ∧ s.Says ρ h

/-- A literal holds when its constraint does. -/
theorem Linked.says_iff_holds {s : Theory} (h : s.Linked) {t : Term} {c : ConstraintId}
    (ht : s.database.lookup t = some c) (ρ : Term → ℚ) : s.Says ρ c ↔ t.Holds ρ := by
  obtain ⟨_, k, hk, _⟩ := h.valid.known t c ht
  rw [says_iff hk, (h.denotes t c k ht hk).holds]

theorem Linked.excludes_iff_isDisequality {s : Theory} (h : s.Linked) {t : Term}
    {c : ConstraintId} (ht : s.database.lookup t = some c) :
    s.Excludes c ↔ t.IsDisequality := by
  obtain ⟨_, k, hk, _⟩ := h.valid.known t c ht
  rw [excludes_iff hk, (h.denotes t c k ht hk).kind]

/-- The literals of constraints that clash. -/
theorem Clash.core {s : Theory} (hl : s.Linked) {cs : List ConstraintId} (h : s.Clash cs)
    (lit : ConstraintId → Term) (hlit : ∀ c ∈ cs, s.database.lookup (lit c) = some c)
    (hnodup : cs.Nodup) : Core (cs.map lit) ∧ Refuted (· ∈ cs.map lit) := by
  have hinj : ∀ c ∈ cs, ∀ d ∈ cs, lit c = lit d → c = d := by
    intro c hc d hd heq
    have hlook := hlit c hc
    rw [heq, hlit d hd] at hlook
    exact (Option.some.inj hlook).symm
  have hmem : ∀ {c}, c ∈ cs → lit c ∈ cs.map lit := fun hc => List.mem_map.mpr ⟨_, hc, rfl⟩
  have hhold : ∀ c ∈ cs, ∀ ρ, s.Says ρ c ↔ (lit c).Holds ρ :=
    fun c hc ρ => hl.says_iff_holds (hlit c hc) ρ
  have hexcl : ∀ c ∈ cs, s.Excludes c ↔ (lit c).IsDisequality :=
    fun c hc => hl.excludes_iff_isDisequality (hlit c hc)
  refine ⟨⟨?_, fun ρ => ?_, fun l hl' => ?_⟩, ?_⟩
  · exact hnodup.map_on fun c hc d hd => hinj c hc d hd
  · obtain ⟨c, hc, hno⟩ := h.unsat ρ
    exact ⟨lit c, hmem hc, fun hh => hno ((hhold c hc ρ).mpr hh)⟩
  · obtain ⟨c, hc, rfl⟩ := List.mem_map.mp hl'
    obtain ⟨ρ, hρ⟩ := h.minimal c hc
    refine ⟨ρ, fun l hl' hne => ?_⟩
    obtain ⟨d, hd, rfl⟩ := List.mem_map.mp hl'
    exact (hhold d hd ρ).mp (hρ d hd fun hdc => hne (hdc ▸ rfl))
  · rcases h.shape with hplain | ⟨d, hd, g, hg, e, he, hdx, hgx, hex, heq⟩
    · refine .inr (.inl fun ρ => ?_)
      obtain ⟨c, hc, hno⟩ := h.unsat ρ
      exact ⟨lit c, hmem hc, fun hx => hplain c hc ((hexcl c hc).mpr hx),
        fun hh => hno ((hhold c hc ρ).mpr hh)⟩
    · refine .inr (.inr ⟨lit d, lit g, lit e, hmem hd, hmem hg, hmem he, (hexcl d hd).mp hdx,
        fun hx => hgx ((hexcl g hg).mpr hx), fun hx => hex ((hexcl e he).mpr hx), fun ρ => ?_⟩)
      rw [← hhold d hd, ← hhold g hg, ← hhold e he]
      exact heq ρ

/-! ## One constraint -/

/-- A constraint holds exactly when its negation does not. -/
theorem Linked.says_negation_iff {s : Theory} (h : s.Linked) {c : ConstraintId} {k : Constraint}
    (hc : s.database.stored c = some k) (ρ : Term → ℚ) : s.Says ρ k.negation ↔ ¬ s.Says ρ c := by
  obtain ⟨l, hl, _, hneg, _⟩ := h.valid.negation c k hc
  rw [says_iff hl, says_iff hc, Statement.var_of_negation? hneg, Statement.holds_negation? hneg]

section Meaning

variable {s : Theory} (hn : s.Named) (ha : s.Arranged) (hl : s.Linked)

include hl in
theorem Linked.inRange {c : ConstraintId} {k : Constraint} (hc : s.database.stored c = some k)
    (hlive : k.live = true) : k.statement.var.id < s.infos.size := by
  obtain ⟨t, _, ht⟩ := hl.valid.named c k hc hlive
  exact (hl.denotes t c k ht hc).inRange

include hn ha hl

/-- A live constraint holds for some values of the leaves. -/
theorem Linked.exists_says {c : ConstraintId} {k : Constraint} (hc : s.database.stored c = some k)
    (hlive : k.live = true) : ∃ ρ, s.Says ρ c := by
  obtain ⟨q, hq⟩ := (hl.valid.representable c k hc).exists_holds
  obtain ⟨ρ, hρ⟩ := hn.exists_interpret ha (hl.inRange hc hlive) q
  exact ⟨ρ, (says_iff hc ρ).mpr (by rw [hρ]; exact hq)⟩

/-- A live constraint does not hold for all values of the leaves. -/
theorem Linked.exists_not_says {c : ConstraintId} {k : Constraint}
    (hc : s.database.stored c = some k) (hlive : k.live = true) : ∃ ρ, ¬ s.Says ρ c := by
  obtain ⟨l, hd, _, _, hllive⟩ := hl.valid.negation c k hc
  obtain ⟨ρ, hρ⟩ := hl.exists_says hn ha hd (hllive.trans hlive)
  exact ⟨ρ, (hl.says_negation_iff hc ρ).mp hρ⟩

/-! ## Pairs -/

/-- Two constraints that do not hold together. -/
theorem clash_of_pair {c d : ConstraintId} {k l : Constraint}
    (hc : s.database.stored c = some k) (hd : s.database.stored d = some l)
    (hk : k.live = true) (hlive : l.live = true) (hunsat : ∀ ρ, s.Says ρ c → ¬ s.Says ρ d)
    (hshape : k.statement.kind ≠ .disequality ∧ l.statement.kind ≠ .disequality ∨
      (k.statement.kind = .disequality ∧ l.statement.kind ≠ .disequality ∨
        k.statement.kind ≠ .disequality ∧ l.statement.kind = .disequality) ∧
          ∀ ρ, ¬ s.Says ρ c → s.Says ρ d) : s.Clash [c, d] where
  unsat ρ := by
    by_cases hs : s.Says ρ c
    · exact ⟨d, by simp, hunsat ρ hs⟩
    · exact ⟨c, by simp, hs⟩
  minimal := by
    obtain ⟨ρ, hρ⟩ := hl.exists_says hn ha hd hlive
    obtain ⟨σ, hσ⟩ := hl.exists_says hn ha hc hk
    rw [List.forall_mem_cons, List.forall_mem_singleton]
    refine ⟨⟨ρ, ?_⟩, σ, ?_⟩
    · rw [List.forall_mem_cons, List.forall_mem_singleton]
      exact ⟨fun h => absurd rfl h, fun _ => hρ⟩
    · rw [List.forall_mem_cons, List.forall_mem_singleton]
      exact ⟨fun _ => hσ, fun h => absurd rfl h⟩
  shape := by
    rcases hshape with ⟨hkx, hlx⟩ | ⟨⟨hkx, hlx⟩ | ⟨hkx, hlx⟩, hor⟩
    · refine .inl ?_
      rw [List.forall_mem_cons, List.forall_mem_singleton, excludes_iff hc, excludes_iff hd]
      exact ⟨hkx, hlx⟩
    · refine .inr ⟨c, by simp, d, by simp, d, by simp, (excludes_iff hc).mpr hkx,
        by rwa [excludes_iff hd], by rwa [excludes_iff hd], fun ρ => ?_⟩
      rw [and_self]
      exact ⟨hor ρ, fun hsd hsc => hunsat ρ hsc hsd⟩
    · refine .inr ⟨d, by simp, c, by simp, c, by simp, (excludes_iff hd).mpr hlx,
        by rwa [excludes_iff hc], by rwa [excludes_iff hc], fun ρ => ?_⟩
      rw [and_self]
      exact ⟨fun hsd => by_contra fun hsc => hsd (hor ρ hsc), fun hsc hsd => hunsat ρ hsc hsd⟩

/-- A constraint and its negation. -/
theorem clash_of_negation {c : ConstraintId} {k l : Constraint}
    (hc : s.database.stored c = some k) (hd : s.database.stored k.negation = some l)
    (hk : k.live = true) : s.Clash [c, k.negation] := by
  obtain ⟨l', hl', _, hneg, hlive⟩ := hl.valid.negation c k hc
  rw [hd] at hl'
  obtain rfl := Option.some.inj hl'
  have hiff := hl.says_negation_iff hc
  have hkind := Statement.kind_of_negation? hneg
  refine clash_of_pair hn ha hl hc hd hk (hlive.trans hk)
    (fun ρ h => by rw [hiff]; exact not_not.mpr h) ?_
  by_cases hkx : k.statement.kind = .disequality
  · exact .inr ⟨.inl ⟨hkx, fun hlx => hkind (hlx.trans hkx.symm)⟩, fun ρ h => (hiff ρ).mpr h⟩
  · by_cases hlx : l.statement.kind = .disequality
    · exact .inr ⟨.inr ⟨hkx, hlx⟩, fun ρ h => (hiff ρ).mpr h⟩
    · exact .inl ⟨hkx, hlx⟩

/-- A constraint and one that implies its negation. -/
theorem clash_of_implied {c a : ConstraintId} {k l m : Constraint}
    (hc : s.database.stored c = some k) (hd : s.database.stored k.negation = some l)
    (hk : k.live = true) (hm : s.database.stored a = some m) (hmlive : m.live = true)
    (himp : m.statement.Implies l.statement) (hmkind : m.statement.kind ≠ .disequality) :
    s.Clash [c, a] := by
  obtain ⟨l', hl', _, hneg, hlive⟩ := hl.valid.negation c k hc
  rw [hd] at hl'
  obtain rfl := Option.some.inj hl'
  have hiff := hl.says_negation_iff hc
  have himp' : ∀ ρ, s.Says ρ a → s.Says ρ k.negation := by
    intro ρ h
    rw [says_iff hm] at h
    rw [says_iff hd, himp.1]
    exact himp.2 _ h
  refine clash_of_pair hn ha hl hc hm hk hmlive
    (fun ρ h hsa => (hiff ρ).mp (himp' ρ hsa) h) ?_
  by_cases hkx : k.statement.kind = .disequality
  · refine .inr ⟨.inl ⟨hkx, hmkind⟩, fun ρ h => ?_⟩
    have hleq : l.statement.kind = .equality := by
      rw [Statement.negation?, hkx] at hneg
      rw [← Option.some.inj hneg]
    have hval : DeltaRat.ofRat (s.interpret ρ l.statement.var) = l.statement.value := by
      have hsl := (hiff ρ).mpr h
      rw [says_iff hd, Statement.Holds, hleq] at hsl
      exact hsl
    rw [says_iff hm, ← himp.1, hval, ← himp.value_eq hmkind hleq]
    exact Statement.holds_value hmkind
  · exact .inl ⟨hkx, hmkind⟩

end Meaning

/-! ## Bounds -/

/-- The constraint bounds a variable on a side. -/
def Bounds (k : Constraint) (side : Side) (v : Var) (x : DeltaRat) : Prop :=
  k.statement.var = v ∧ k.statement.value = x ∧
    (k.statement.kind = side.kind ∨ k.statement.kind = .equality)

theorem Bounds.kind_ne {k : Constraint} {side : Side} {v : Var} {x : DeltaRat}
    (h : Bounds k side v x) : k.statement.kind ≠ .disequality := by
  intro hk
  rcases h.2.2 with h | h
  · cases side <;> rw [hk] at h <;> cases h
  · rw [hk] at h
    cases h

theorem Bounds.inside {k : Constraint} {side : Side} {v : Var} {x : DeltaRat}
    (h : Bounds k side v x) {z : DeltaRat} (hz : k.statement.Holds z) : side.Inside x z := by
  obtain ⟨_, rfl, hkind⟩ := h
  rw [Statement.Holds] at hz
  rcases hkind with hkind | hkind
  · cases side <;> rw [Side.kind] at hkind <;> rw [hkind] at hz <;> exact hz
  · rw [hkind] at hz
    have hz' : z = k.statement.value := hz
    rw [hz']
    exact Side.inside_refl _ _

section Conflicts

variable {s : Theory} (hn : s.Named) (ha : s.Arranged) (hl : s.Linked)

include hn ha hl

/-- Two bounds that cross. -/
theorem clash_of_crossing (side : Side) {c d : ConstraintId} {k l : Constraint} {v : Var}
    {x y : DeltaRat} (hc : s.database.stored c = some k) (hd : s.database.stored d = some l)
    (hk : k.live = true) (hlive : l.live = true) (hx : Bounds k side v x)
    (hy : Bounds l side.opposite v y) (hcross : side.opposite.beyond y x = true) :
    s.Clash [c, d] := by
  refine clash_of_pair hn ha hl hc hd hk hlive (fun ρ hsc hsd => ?_) (.inl ⟨hx.kind_ne, hy.kind_ne⟩)
  rw [says_iff hc, hx.1] at hsc
  rw [says_iff hd, hy.1] at hsd
  have hin := hx.inside hsc
  have hin' := hy.inside hsd
  cases side with
  | lower => exact absurd (le_trans (hin : x ≤ _) hin') (Side.beyond_upper_iff.mp hcross).not_ge
  | upper => exact absurd (le_trans (hin' : y ≤ _) hin) (Side.beyond_lower_iff.mp hcross).not_ge

/-- An excluded number between a lower and an upper bound at the same number. -/
theorem clash_of_pinned {d l u : ConstraintId} {kd kl ku : Constraint} {v : Var} {x : DeltaRat}
    (hd : s.database.stored d = some kd) (hlo : s.database.stored l = some kl)
    (hup : s.database.stored u = some ku) (hdlive : kd.live = true)
    (hsd : kd.statement = ⟨v, .disequality, x⟩) (hsl : kl.statement = ⟨v, .lower, x⟩)
    (hsu : ku.statement = ⟨v, .upper, x⟩) : s.Clash [d, l, u] := by
  obtain ⟨q, rfl⟩ : ∃ q, x = .ofRat q := by
    have hrep := hl.valid.representable d kd hd
    rw [hsd] at hrep
    exact ⟨x.standard, DeltaRat.ext rfl hrep⟩
  have hrange : v.id < s.infos.size := by
    have hr := hl.inRange hd hdlive
    rw [hsd] at hr
    exact hr
  have hdiff : ∀ ρ, s.Says ρ d ↔ s.interpret ρ v ≠ q := by
    intro ρ
    rw [says_iff hd, hsd]
    exact DeltaRat.ofRat_inj.not
  have hlower : ∀ ρ, s.Says ρ l ↔ q ≤ s.interpret ρ v := by
    intro ρ
    rw [says_iff hlo, hsl]
    exact DeltaRat.ofRat_le_ofRat
  have hupper : ∀ ρ, s.Says ρ u ↔ s.interpret ρ v ≤ q := by
    intro ρ
    rw [says_iff hup, hsu]
    exact DeltaRat.ofRat_le_ofRat
  refine ⟨fun ρ => ?_, ?_, .inr ⟨d, by simp, l, by simp, u, by simp, ?_, ?_, ?_, ?_⟩⟩
  · by_cases hds : s.Says ρ d
    · rcases lt_or_gt_of_ne ((hdiff ρ).mp hds) with hlt | hgt
      · exact ⟨l, by simp, fun h => absurd ((hlower ρ).mp h) (not_le.mpr hlt)⟩
      · exact ⟨u, by simp, fun h => absurd ((hupper ρ).mp h) (not_le.mpr hgt)⟩
    · exact ⟨d, by simp, hds⟩
  · -- the other two constraints hold at the number, or next to it
    have hat : ∀ p, ∃ ρ, s.interpret ρ v = p := hn.exists_interpret ha hrange
    obtain ⟨ρ, hρ⟩ := hat q
    obtain ⟨σ, hσ⟩ := hat (q - 1)
    obtain ⟨τ, hτ⟩ := hat (q + 1)
    simp only [List.forall_mem_cons, List.not_mem_nil, false_implies, implies_true, and_true,
      hdiff, hlower, hupper]
    refine ⟨⟨ρ, ?_, ?_, ?_⟩, ⟨σ, ?_, ?_, ?_⟩, τ, ?_, ?_, ?_⟩
    · exact fun h => absurd rfl h
    · exact fun _ => hρ.ge
    · exact fun _ => hρ.le
    · exact fun _ => by rw [hσ]; linarith
    · exact fun h => absurd rfl h
    · exact fun _ => by rw [hσ]; linarith
    · exact fun _ => by rw [hτ]; linarith
    · exact fun _ => by rw [hτ]; linarith
    · exact fun h => absurd rfl h
  · exact (excludes_iff hd).mpr (by rw [hsd])
  · rw [excludes_iff hlo, hsl]
    exact fun h => by cases h
  · rw [excludes_iff hup, hsu]
    exact fun h => by cases h
  · intro ρ
    rw [hdiff, hlower, hupper, not_not]
    exact ⟨fun h => ⟨h.ge, h.le⟩, fun h => le_antisymm h.2 h.1⟩

end Conflicts

/-! ## Rows -/

/-- Values for the variables that are not basic extend to values of the leaves under which every
variable in the tableau has the value of a solution. -/
theorem exists_reading {s : Theory} (hn : s.Named) (ha : s.Arranged) (hb : s.Balanced)
    (τ : Var → ℚ) : ∃ ρ σ, s.simplex.tableau.Solves σ ∧
      (∀ v, s.simplex.tableau.row? v = none → σ v = τ v) ∧
        ∀ v, s.simplex.tableau.Mentions v → s.interpret ρ v = σ v := by
  obtain ⟨σ, hσ, hστ⟩ := ha.coherent.tableau.exists_solution τ
  have hsolves : s.Solves (extended σ s.eliminated) := ha.solves_extended hσ
  refine ⟨s.reading (extended σ s.eliminated), σ, hσ, hστ, fun v hv => ?_⟩
  rw [hn.interpret_of_defined ha ((hb ℚ _).mp hsolves) (ha.mentions v hv),
    extended_of_not_mem (ha.not_mem_of_mentions hv)]

/-- The values of the leaves give values to the variables that solve the tableau. -/
theorem solves_interpret {s : Theory} (ha : s.Arranged) (hb : s.Balanced) (ρ : Term → ℚ) :
    s.simplex.tableau.Solves (s.interpret ρ) := by
  refine ((hb ℚ _).mpr fun v i r hi hr _ => ?_).1
  have hdef : s.definition? v = some r := by
    rw [definition?_eq, hi]
    exact hr
  rw [interpret, formOf_of_definition hdef]
  refine Row.eval_congr fun u hu => ?_
  rw [interpret, formOf_of_leaf (ha.definitions v r hdef u hu), Row.eval_single]

section StuckRow

variable {s : Theory} (hn : s.Named) (ha : s.Arranged) (hb : s.Balanced)

include hn ha hb

/-- All variables of a row but one take any given values. -/
theorem exists_reading_of_row {b : Var} {r : Row} (hr : s.simplex.tableau.row? b = some r)
    (q : Var → ℚ) {v₀ : Var} (hv₀ : v₀ = b ∨ r.contains v₀ = true) :
    ∃ ρ, ∀ v, v = b ∨ r.contains v = true → v ≠ v₀ → s.interpret ρ v = q v := by
  have hmention : ∀ v, v = b ∨ r.contains v = true → s.simplex.tableau.Mentions v := by
    rintro v (rfl | hv)
    · exact .inl ⟨r, hr⟩
    · exact .inr ⟨b, r, hr, hv⟩
  have hfree : ∀ v, r.contains v = true → s.simplex.tableau.row? v = none :=
    fun v hv => ha.coherent.tableau.nonbasic hr hv
  rcases eq_or_ne v₀ b with rfl | hne
  · obtain ⟨ρ, σ, _, hσ, hρ⟩ := exists_reading hn ha hb q
    refine ⟨ρ, fun v hv hvne => ?_⟩
    rw [hρ v (hmention v hv), hσ v (hfree v (hv.resolve_left hvne))]
  · -- the variable left out takes up what the row is off by
    have hcon := hv₀.resolve_left hne
    have hcoef := Row.contains_iff.mp hcon
    obtain ⟨ρ, σ, hsolves, hσ, hρ⟩ := exists_reading hn ha hb
      (Function.update q v₀ (q v₀ + (q b - r.eval q) / r.coefficient v₀))
    refine ⟨ρ, fun v hv hvne => ?_⟩
    rw [hρ v (hmention v hv)]
    rcases hv with rfl | hv
    · rw [hsolves v r hr, Row.eval_congr fun u hu => hσ u (hfree u hu), Row.eval_update,
        add_sub_cancel_left, smul_eq_mul, mul_div_cancel₀ _ hcoef, add_sub_cancel]
    · rw [hσ v (hfree v hv), Function.update_of_ne hvne]

omit hn hb in
/-- The constraints of a stuck row are the reasons of one bound for each of its variables. -/
theorem mem_conflict_of_row {b : Var} {r : Row} (hr : s.simplex.tableau.row? b = some r)
    (bound : Bound) (block : Var → Bound) {β : Var → Bound}
    (hβ : β = Function.update block b bound) :
    (∀ e ∈ r.entries, β e.1 = block e.1) ∧ ∀ d, d ∈ (Conflict.of (bound.reason ::
      r.entries.map fun e => (block e.1).reason)).constraints ↔
        ∃ v, (v = b ∨ r.contains v = true) ∧ (β v).reason = d := by
  subst hβ
  have hentry : ∀ e ∈ r.entries, r.contains e.1 = true := fun _ => Row.contains_of_mem_entries
  have hblock : ∀ e ∈ r.entries, Function.update block b bound e.1 = block e.1 := by
    intro e he
    refine Function.update_of_ne (fun heq => ?_) _ _
    have hnone := ha.coherent.tableau.nonbasic hr (hentry e he)
    rw [heq, hr] at hnone
    cases hnone
  refine ⟨hblock, fun d => ?_⟩
  rw [Conflict.of, List.mem_eraseDups, List.mem_cons, List.mem_map]
  constructor
  · rintro (rfl | ⟨e, he, rfl⟩)
    · exact ⟨b, .inl rfl, by rw [Function.update_self]⟩
    · exact ⟨e.1, .inr (hentry e he), by rw [hblock e he]⟩
  · rintro ⟨v, rfl | hv, rfl⟩
    · exact .inl (by rw [Function.update_self])
    · obtain ⟨e, he, rfl⟩ := List.mem_map.mp (Row.mem_vars_iff.mpr hv)
      exact .inr ⟨e, he, by rw [hblock e he]⟩

/-- The bounds of a row that cannot reach the bound of its variable. -/
theorem clash_of_row (hl : s.Linked) {bounds : Side → Var → Option Bound}
    (hreasons : ∀ side v β, bounds side v = some β →
      ∃ k, s.database.stored β.reason = some k ∧ Bounds k side v β.value) {c : Conflict}
    (h : Simplex.RowStuck s.simplex.tableau bounds c) :
    s.Clash c.constraints ∧ c.constraints.Nodup ∧
      ∀ d ∈ c.constraints, ∃ side v β, bounds side v = some β ∧ β.reason = d := by
  obtain ⟨b, r, side, bound, σ, block, hr, hσ, hbound, hbeyond, hblock, rfl⟩ := h
  obtain ⟨β, hβ⟩ : ∃ β, β = Function.update block b bound := ⟨_, rfl⟩
  obtain ⟨hentry, hmem⟩ := mem_conflict_of_row ha hr bound block hβ
  have hself : β b = bound := by rw [hβ, Function.update_self]
  have hsource : ∀ v, v = b ∨ r.contains v = true → ∃ t, bounds t v = some (β v) := by
    rintro v (rfl | hv)
    · exact ⟨side, by rw [hbound, hself]⟩
    · obtain ⟨e, he, rfl⟩ := List.mem_map.mp (Row.mem_vars_iff.mpr hv)
      exact ⟨_, by rw [hentry e he]; exact (hblock e he).1⟩
  have hback : ∀ v, v = b ∨ r.contains v = true →
      ∃ t k, s.database.stored (β v).reason = some k ∧ Bounds k t v (β v).value := by
    intro v hv
    obtain ⟨t, ht⟩ := hsource v hv
    obtain ⟨k, hk, hB⟩ := hreasons t v _ ht
    exact ⟨t, k, hk, hB⟩
  refine ⟨⟨fun ρ => ?_, fun d hd => ?_, .inl fun d hd => ?_⟩, nodup_eraseDups _,
    fun d hd => ?_⟩
  · by_contra hall
    have hinside : ∀ v, v = b ∨ r.contains v = true → ∀ t, bounds t v = some (β v) →
        t.Inside (β v).value (.ofRat (s.interpret ρ v)) := by
      intro v hv t ht
      obtain ⟨k, hk, hB⟩ := hreasons t v _ ht
      have hsay : s.Says ρ (β v).reason :=
        by_contra fun hno => hall ⟨_, (hmem _).mpr ⟨v, hv, rfl⟩, hno⟩
      rw [says_iff hk, hB.1] at hsay
      exact hB.inside hsay
    have hrow : DeltaRat.ofRat (s.interpret ρ b) =
        r.eval fun v => DeltaRat.ofRat (s.interpret ρ v) := by
      rw [solves_interpret ha hb ρ b r hr]
      exact Row.map_eval DeltaRat.ofRatHom _ r
    refine Simplex.not_inside_of_row (x := fun v => .ofRat (s.interpret ρ v)) hσ hbeyond
      (fun e he => (hblock e he).2) hrow ?_ fun e he => ?_
    · rw [← hself]
      exact hinside b (.inl rfl) side (by rw [hbound, hself])
    · rw [← hentry e he]
      refine hinside e.1 (.inr (Row.contains_of_mem_entries he)) _ ?_
      rw [hentry e he]
      exact (hblock e he).1
  · obtain ⟨v₀, hv₀, rfl⟩ := (hmem d).mp hd
    obtain ⟨ρ, hρ⟩ := exists_reading_of_row hn ha hb hr (fun v => (β v).value.substitute 1) hv₀
    refine ⟨ρ, fun e he hne => ?_⟩
    obtain ⟨v, hv, rfl⟩ := (hmem e).mp he
    obtain ⟨t, k, hk, hB⟩ := hback v hv
    rw [says_iff hk, hB.1, hρ v hv (by rintro rfl; exact hne rfl), ← hB.2.1]
    exact Statement.holds_substitute_one (hl.valid.representable _ k hk) hB.kind_ne
  · obtain ⟨v, hv, rfl⟩ := (hmem d).mp hd
    obtain ⟨t, k, hk, hB⟩ := hback v hv
    rw [excludes_iff hk]
    exact hB.kind_ne
  · obtain ⟨v, hv, rfl⟩ := (hmem d).mp hd
    obtain ⟨t, ht⟩ := hsource v hv
    exact ⟨t, v, _, ht, rfl⟩

end StuckRow

end Theory

end LinearArithmetic
