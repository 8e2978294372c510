import LinearArithmetic.Proofs.Satisfaction

/-!
# When a check reports a conflict

A check reports a conflict exactly when the asserted literals are refuted: one of them is false,
or those that are not disequalities cannot hold together, or two of them say exactly what another
one denies. This speaks of the literals only, so the verdict depends neither on the options nor on
anything that happened before.
-/

namespace LinearArithmetic

/-! ## Statements that leave one number -/

/-- Two bounds or equalities that hold together at one rational only hold together nowhere else. -/
theorem Statement.Representable.eq_of_holds_only {s t : Statement} (hs : s.Representable)
    (ht : t.Representable) (hks : s.kind ≠ .disequality) (hkt : t.kind ≠ .disequality) {x : ℚ}
    (h : ∀ q : ℚ, s.Holds (.ofRat q) ∧ t.Holds (.ofRat q) ↔ q = x) {z : DeltaRat}
    (hzs : s.Holds z) (hzt : t.Holds z) : z = .ofRat x := by
  obtain ⟨v, k, ⟨c, i⟩⟩ := s
  obtain ⟨w, l, ⟨d, j⟩⟩ := t
  -- half way to a bound both still hold, and with bounds on one side only they hold far away
  have hx := (h x).mpr rfl
  have hc := h ((c + x) / 2)
  have hd := h ((d + x) / 2)
  have habove := h (x + 1)
  have hbelow := h (x - 1)
  clear h
  cases k <;> cases l <;>
    simp only [Representable, Holds, DeltaRat.ofRat, DeltaRat.le_def, DeltaRat.ext_iff, ne_eq,
      not_true_eq_false, not_false_eq_true, reduceCtorEq] at * <;> grind

/-- There is a number on the other side of any number. -/
theorem Side.exists_further (side : Side) (y : DeltaRat) :
    ∃ z, z ≠ y ∧ side.opposite.Inside y z := by
  have hpos : (0 : DeltaRat) < .ofRat 1 := DeltaRat.lt_def.mpr (.inl one_pos)
  cases side with
  | lower =>
    have hlt := sub_lt_self y hpos
    exact ⟨_, hlt.ne, (hlt.le : y - .ofRat 1 ≤ y)⟩
  | upper =>
    have hlt := lt_add_of_pos_right y hpos
    exact ⟨_, hlt.ne', (hlt.le : y ≤ y + .ofRat 1)⟩

namespace Ledger

/-- The statement holds for every value within the bounds of its variable. -/
def Forces (L : Ledger) (st : Statement) : Prop :=
  ∀ x : DeltaRat, (∀ side b, L.bounds side st.var = some b → side.Inside b.value x) → st.Holds x

/-- A variable with one value left by its bounds has both of them there. -/
theorem pinned_of_forced {L : Ledger} {v : Var} {x y : DeltaRat}
    (hord : ∀ l u, L.bounds .lower v = some l → L.bounds .upper v = some u → l.value ≤ u.value)
    (hy : ∀ side b, L.bounds side v = some b → side.Inside b.value y)
    (h : ∀ z : DeltaRat, (∀ side b, L.bounds side v = some b → side.Inside b.value z) → z = x) :
    L.Pinned v x := by
  obtain rfl := h y hy
  intro side
  cases hb : L.bounds side v with
  | none =>
    -- without a bound on this side the value could move away from the other one
    obtain ⟨z, hz, hin⟩ := side.exists_further y
    refine absurd (h z fun t b hb' => ?_) hz
    rcases Side.eq_or_eq_opposite t side with rfl | rfl
    · rw [hb] at hb'
      cases hb'
    · exact Side.inside_trans (hy _ b hb') hin
  | some b =>
    refine ⟨b, rfl, h b.value fun t b' hb' => ?_⟩
    rcases Side.eq_or_eq_opposite t side with rfl | rfl
    · rw [Option.some.inj (hb.symm.trans hb')]
      exact Side.inside_refl _ _
    · cases side with
      | lower => exact hord b b' hb hb'
      | upper => exact hord b' b hb' hb

end Ledger

namespace Theory

/-! ## Literals that the bounds force -/

/-- The literal compares a variable with a number, and holds for every value that the bounds leave
the variable. -/
structure Forced (s : Theory) (t : Term) (st : Statement) : Prop where
  denotes : s.Denotes t st
  representable : st.Representable
  forces : s.now.Forces st

section Complete

variable {s : Theory} (hs : s.Sane) (hc : s.now.Complete s) (hin : s.Inside)

include hs hc

/-- A literal that is settled, and not a disequality, is true or forced by the bounds. -/
theorem Sane.forced_of_settles {t : Term} (ht : s.now.Settles s t) (hdis : ¬ t.IsDisequality) :
    (∀ ρ, t.Holds ρ) ∨ ∃ st, s.Forced t st := by
  rcases ht with ht | ⟨c, hlook, hp⟩
  · exact .inl fun ρ => (hs.linked.holds_iff_constantTruth ht ρ).mpr rfl
  · obtain ⟨_, k, hk, _⟩ := hs.linked.valid.known t c hlook
    have hden := hs.linked.denotes t c k hlook hk
    refine .inr ⟨k.statement, hden, hs.linked.valid.representable c k hk, fun x hx => ?_⟩
    obtain ⟨as, has⟩ := Option.ne_none_iff_exists'.mp hp
    cases as with
    | nil =>
      exact ((hc.effective c k hk has).1 fun hkind => hdis (hden.kind.mp hkind)).holds hx
    | cons a as =>
      obtain ⟨_, _, l, _, ⟨hvar, himp⟩, heff⟩ := hs.recorded.sound_now.implied c k a as hk has
      rw [hvar] at hx
      exact himp x (heff.holds hx)

omit hc in
include hin in
/-- A settled disequality that two statements forced by the bounds deny has a pinned variable. -/
theorem Sane.pinned_of_forced {d g h : Term} {x : ℚ} {v : Var} {sg sh : Statement}
    (hd : s.Denotes d ⟨v, .disequality, .ofRat x⟩) (hg : s.Forced g sg) (hh : s.Forced h sh)
    (hgx : ¬ g.IsDisequality) (hhx : ¬ h.IsDisequality)
    (hiff : ∀ ρ, ¬ d.Holds ρ ↔ g.Holds ρ ∧ h.Holds ρ) : s.now.Pinned v (.ofRat x) := by
  have ha := hs.framed.toArranged
  have hat : ∀ ρ, s.interpret ρ v = x ↔ g.Holds ρ ∧ h.Holds ρ := by
    intro ρ
    rw [← hiff, hd.holds]
    simp [Statement.Holds, DeltaRat.ext_iff]
  -- both statements are about the variable of the disequality
  have hvar : ∀ {t : Term} {st : Statement}, s.Forced t st →
      (∀ ρ, s.interpret ρ v = x → t.Holds ρ) → st.var = v := fun {t st} hf ht =>
    hs.named.eq_of_level_set ha hd.inRange hf.denotes.inRange (x := x)
      (P := fun q => st.Holds (.ofRat q))
      (fun a b hb => hf.representable.exists_not_holds a hb)
      fun ρ hρ => (hf.denotes.holds ρ).mp (ht ρ hρ)
  have hgv := hvar hg fun ρ hρ => ((hat ρ).mp hρ).1
  have hhv := hvar hh fun ρ hρ => ((hat ρ).mp hρ).2
  have honly : ∀ q : ℚ, sg.Holds (.ofRat q) ∧ sh.Holds (.ofRat q) ↔ q = x := by
    intro q
    obtain ⟨ρ, hρ⟩ := hs.named.exists_interpret ha hd.inRange q
    rw [← hρ, hat, hg.denotes.holds, hh.denotes.holds, hgv, hhv]
  refine Ledger.pinned_of_forced (hs.recorded.sound_now.ordered v) (hin v) fun z hz => ?_
  exact hg.representable.eq_of_holds_only hh.representable (fun hk => hgx (hg.denotes.kind.mp hk))
    (fun hk => hhx (hh.denotes.kind.mp hk)) honly (hg.forces z (hgv ▸ hz)) (hh.forces z (hhv ▸ hz))

include hin in
/-- A settled disequality is not denied by two other settled literals. -/
theorem Sane.not_denied {d g h : Term} (hd : s.now.Settles s d) (hg : s.now.Settles s g)
    (hh : s.now.Settles s h) (hdx : d.IsDisequality) (hgx : ¬ g.IsDisequality)
    (hhx : ¬ h.IsDisequality) : ¬ ∀ ρ, ¬ d.Holds ρ ↔ g.Holds ρ ∧ h.Holds ρ := by
  intro hiff
  obtain ⟨values, δ, hvalued⟩ := hin.exists_valued
  let ρ : Term → ℚ := fun t => (values.lookup t).getD 0
  have hρ : ∀ t q, values.lookup t = some q → ρ t = q := fun t q ht => by simp only [ρ, ht]; rfl
  have hplain : ∀ {t : Term}, s.now.Settles s t → ¬ t.IsDisequality → t.Holds ρ := fun ht hdis =>
    hvalued.holds_of_settled hs hc hρ ht fun h => absurd h hdis
  have hdenied : ¬ d.Holds ρ := (hiff ρ).mpr ⟨hplain hg hgx, hplain hh hhx⟩
  -- so the disequality is an asserted constraint, and its variable is not pinned
  rcases hd with hd | ⟨c, hlook, hp⟩
  · exact hdenied ((hs.linked.holds_iff_constantTruth hd ρ).mpr rfl)
  obtain ⟨_, k, hk, hlive, _⟩ := hs.linked.valid.known d c hlook
  have hden := hs.linked.denotes d c k hlook hk
  have hkind : k.statement.kind = .disequality := hden.kind.mpr hdx
  have hst := (hs.linked.valid.representable c k hk).eq_disequality hkind
  have hmem : c ∈ s.disequalities.toList := by
    by_contra hnot
    exact hdenied ((hden.holds ρ).mpr
      (hvalued.says_of_proven hs hc hρ hk hp fun _ h => absurd h hnot))
  have hself := (hs.recorded.sound_now.disequalities c hmem).1
  refine ((hc.effective c k hk hself).2 hkind).2 ?_
  rw [hst] at hden ⊢
  rcases hs.forced_of_settles hc hg hgx with hgt | ⟨sg, hsg⟩ <;>
  rcases hs.forced_of_settles hc hh hhx with hht | ⟨sh, hsh⟩
  · obtain ⟨ρ', hρ'⟩ := hs.linked.exists_says hs.named hs.framed.toArranged hk hlive
    rw [hs.linked.says_iff_holds hlook] at hρ'
    exact absurd hρ' ((hiff ρ').mpr ⟨hgt ρ', hht ρ'⟩)
  · exact hs.pinned_of_forced hin hden hsh hsh hhx hhx fun ρ' => by
      rw [hiff, and_self, and_iff_right (hgt ρ')]
  · exact hs.pinned_of_forced hin hden hsg hsg hgx hgx fun ρ' => by
      rw [hiff, and_self, and_iff_left (hht ρ')]
  · exact hs.pinned_of_forced hin hden hsg hsh hgx hhx hiff

end Complete

/-! ## Verdicts -/

/-- A check of a run reports a conflict exactly when the asserted literals are refuted, provided
that the innermost scope fits when it reports none. -/
theorem conflicts_iff_of_fit {o : Options} {ops : List Operation} {as : List Answer}
    {s s' : Theory} {effort : Effort} {r : Report} (hrun : (start o).run ops = .ok (s, as))
    (hcheck : s.check effort = .ok (s', r))
    (hfit : r.conflicts = [] → s'.Fit s'.level .inside) :
    r.conflicts ≠ [] ↔ Refuted (Journal.of ops as).Asserts := by
  have hv := verdict_of_run hrun hcheck
  have hs := hv.sane
  constructor
  · intro hconflict
    obtain ⟨x, hx⟩ := List.exists_mem_of_ne_nil _ hconflict
    obtain ⟨ls, _, _, hrefuted, hblamed⟩ := hv.blames x hx
    refine hrefuted.mono fun l hl => ?_
    obtain ⟨f, hf, rfl⟩ := hblamed l hl
    exact asserts_of_processed hrun hcheck hf
  · intro hrefuted hnone
    have hin : s'.Inside := (hfit hnone).inside_now hs.recorded
    have hset : ∀ {t}, (Journal.of ops as).Asserts t → s'.now.Complete s' ∧ s'.now.Settles s' t :=
      fun ht => settles_of_fit hrun hcheck hnone (hfit hnone) ht
    rcases hrefuted with ⟨t, ht, hfalse⟩ | hplain | ⟨d, g, h, hd, hg, hh, hdx, hgx, hhx, hiff⟩
    · -- a settled literal holds somewhere
      rcases (hset ht).2 with hconst | ⟨c, hlook, _⟩
      · exact hfalse (fun _ => 0) ((hs.linked.holds_iff_constantTruth hconst _).mpr rfl)
      · obtain ⟨_, k, hk, hlive, _⟩ := hs.linked.valid.known t c hlook
        obtain ⟨ρ, hρ⟩ := hs.linked.exists_says hs.named hs.framed.toArranged hk hlive
        exact hfalse ρ ((hs.linked.says_iff_holds hlook ρ).mp hρ)
    · -- the values satisfy all literals that are not disequalities
      obtain ⟨values, δ, hvalued⟩ := hin.exists_valued
      obtain ⟨t, ht, hdis, hfalse⟩ := hplain fun t => (values.lookup t).getD 0
      refine hfalse (hvalued.holds_of_settled hs (hset ht).1 (fun u q hu => ?_) (hset ht).2
        fun hx => absurd hx hdis)
      simp only [hu, Option.getD_some]
    · exact hs.not_denied (hset hd).1 hin (hset hd).2 (hset hg).2 (hset hh).2 hdx hgx hhx hiff

section Run

variable {o : Options} {ops : List Operation} {as : List Answer} {s : Theory}
  (hrun : (start o).run ops = .ok (s, as)) (hallows : Journal.AllowsAll {} ops as)
  (hready : (Journal.of ops as).conflict = none)

include hrun hallows hready

/-- A check gives a verdict while no conflict waits. -/
theorem exists_check (effort : Effort) : ∃ s' r, s.check effort = .ok (s', r) :=
  (healthy_of_run hrun hallows).exists_check (running_of_run hrun).sane hready nofun effort

/-- A check reports a conflict exactly when the asserted literals are refuted. -/
theorem conflicts_iff_refuted {s' : Theory} {effort : Effort} {r : Report}
    (hcheck : s.check effort = .ok (s', r)) :
    r.conflicts ≠ [] ↔ Refuted (Journal.of ops as).Asserts :=
  conflicts_iff_of_fit hrun hcheck fun hnone => fit_of_check hrun hallows hready hcheck hnone

end Run

/-- Whether a check reports a conflict is decided by the set of the asserted literals. Their order,
the scopes, the operations in between and the options do not matter. -/
theorem same_verdict {o₁ o₂ : Options} {ops₁ ops₂ : List Operation} {as₁ as₂ : List Answer}
    {s₁ s₂ : Theory} (hrun₁ : (start o₁).run ops₁ = .ok (s₁, as₁))
    (hrun₂ : (start o₂).run ops₂ = .ok (s₂, as₂)) (hallows₁ : Journal.AllowsAll {} ops₁ as₁)
    (hallows₂ : Journal.AllowsAll {} ops₂ as₂)
    (hready₁ : (Journal.of ops₁ as₁).Allows (.check .standard))
    (hready₂ : (Journal.of ops₂ as₂).Allows (.check .standard))
    (hsame : ∀ t, (Journal.of ops₁ as₁).Asserts t ↔ (Journal.of ops₂ as₂).Asserts t) :
    ∃ s₁' r₁ s₂' r₂, s₁.check .standard = .ok (s₁', r₁) ∧ s₂.check .standard = .ok (s₂', r₂) ∧
      (r₁.conflicts ≠ [] ↔ r₂.conflicts ≠ []) := by
  obtain ⟨s₁', r₁, hcheck₁⟩ := exists_check hrun₁ hallows₁ hready₁ .standard
  obtain ⟨s₂', r₂, hcheck₂⟩ := exists_check hrun₂ hallows₂ hready₂ .standard
  refine ⟨s₁', r₁, s₂', r₂, hcheck₁, hcheck₂, ?_⟩
  rw [conflicts_iff_refuted hrun₁ hallows₁ hready₁ hcheck₁,
    conflicts_iff_refuted hrun₂ hallows₂ hready₂ hcheck₂]
  exact ⟨fun h => h.mono fun t => (hsame t).mp, fun h => h.mono fun t => (hsame t).mpr⟩

/-- Assertions of the literals of `crowdedSum` in another order and other scopes, with a scope that
was left, a presolving step and a reset in between. -/
def crowdedLater : List Operation :=
  [.register (.rel .le (.sum [.var "x", .var "y"]) (.const 1)), .push,
    .assert (.rel .lt (.var "y") (.const 0)), .check .full, .pop 1, .presolve,
    .assert (.rel .le (.sum [.var "x", .var "y"]) (.const 1)), .check .standard, .reset, .push,
    .push, .assert (.rel .ge (.var "y") (.const 1)), .assert (.rel .ge (.var "x") (.const 1))]

/-- The options with which `crowdedLater` runs: Bland's rule from the start, and no propagation. -/
def plainOptions : Options :=
  { pivotRule := .maximumIndex, blandThreshold := 0, propagateBounds := false }

/-- Both histories end in a conflict. -/
theorem same_verdict_of_crowdedSum :
    ∃ s₁ as₁ s₂ as₂ s₁' r₁ s₂' r₂, (start {}).run crowdedSum = .ok (s₁, as₁) ∧
      (start plainOptions).run crowdedLater = .ok (s₂, as₂) ∧
      s₁.check .standard = .ok (s₁', r₁) ∧ s₂.check .standard = .ok (s₂', r₂) ∧
      r₁.conflicts ≠ [] ∧ r₂.conflicts ≠ [] := by
  have h : ((start {}).run crowdedSum >>= fun p => (start plainOptions).run crowdedLater >>=
      fun q => p.1.check .standard >>= fun u => Except.ok
        (p.2.all (·.isQuiet), q.2.all (·.isQuiet), u.2.conflicts.isEmpty,
          (Journal.of crowdedSum p.2).facts.map Fact.literal ==
            ((Journal.of crowdedLater q.2).facts.map Fact.literal).reverse)) =
      .ok (true, true, false, true) := by decide +kernel
  obtain ⟨⟨s₁, as₁⟩, hrun₁, h⟩ := bind_eq_ok.mp h
  obtain ⟨⟨s₂, as₂⟩, hrun₂, h⟩ := bind_eq_ok.mp h
  obtain ⟨⟨s₁', r₁⟩, hcheck₁, h⟩ := bind_eq_ok.mp h
  simp only [Except.ok.injEq, Prod.mk.injEq, beq_iff_eq] at h
  obtain ⟨hquiet₁, hquiet₂, hconflict, hsame⟩ := h
  obtain ⟨hallows₁, hready₁⟩ : Journal.AllowsAll {} crowdedSum as₁ ∧
      (Journal.of crowdedSum as₁).conflict = none := Journal.allowsAll_of_quiet rfl hquiet₁
  obtain ⟨hallows₂, hready₂⟩ : Journal.AllowsAll {} crowdedLater as₂ ∧
      (Journal.of crowdedLater as₂).conflict = none := Journal.allowsAll_of_quiet rfl hquiet₂
  obtain ⟨t₁, q₁, s₂', r₂, hok₁, hcheck₂, hiff⟩ :=
    same_verdict hrun₁ hrun₂ hallows₁ hallows₂ hready₁ hready₂ fun t => by
      rw [Journal.asserts_iff_mem, Journal.asserts_iff_mem, hsame, List.mem_reverse]
  obtain ⟨rfl, rfl⟩ := Prod.mk.inj (Except.ok.inj (hcheck₁.symm.trans hok₁))
  have hne : r₁.conflicts ≠ [] := fun hnil => by simp [hnil] at hconflict
  exact ⟨s₁, as₁, s₂, as₂, s₁', r₁, s₂', r₂, hrun₁, hrun₂, hcheck₁, hcheck₂, hne, hiff.mp hne⟩

end Theory

end LinearArithmetic
