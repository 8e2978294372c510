import LinearArithmetic.Proofs.Bland

/-!
# The repair ends

The states of a repair, pivot by pivot. There are as many pivots before Bland's rule as the
threshold says, and under it fewer than `3 ^ n` for `n` variables. So the repair stops within its
limit of steps, and it stops with the same outcome however many more it is given. Under Bland's rule
it does not cycle: no sequence of bases is gone through twice in a row.
-/

namespace LinearArithmetic.Simplex

/-! ## The states of a repair -/

/-- The state after a number of pivots, if the repair makes that many. -/
def afterPivots (s : Simplex) : Nat → Option Simplex
  | 0 => some s
  | n + 1 =>
    match (s.afterPivots n).map (repairStep n) with
    | some (.ok (t, .pivoted)) => some t
    | _ => none

theorem afterPivots_succ_eq_some {s t' : Simplex} {n : Nat} :
    s.afterPivots (n + 1) = some t' ↔
      ∃ t, s.afterPivots n = some t ∧ t.repairStep n = .ok (t', .pivoted) := by
  rw [afterPivots]
  cases s.afterPivots n with
  | none => simp
  | some t =>
    rcases hstep : t.repairStep n with f | ⟨u, _ | _ | _⟩ <;> simp [hstep]

/-- A repair goes on from the state that it has reached. -/
theorem repairWithin_of_afterPivots {s t : Simplex} {n : Nat} (h : s.afterPivots n = some t)
    (m : Nat) : s.repairWithin (n + m) 0 = t.repairWithin m n := by
  induction n generalizing t m with
  | zero =>
    rw [Option.some.inj h, Nat.zero_add]
  | succ n ih =>
    obtain ⟨u, hu, hstep⟩ := afterPivots_succ_eq_some.mp h
    rw [Nat.add_assoc, Nat.add_comm 1 m, ih hu, repairWithin, hstep]
    rfl

/-- A repair that makes a number of pivots makes any smaller number. -/
theorem exists_afterPivots_of_le {s t' : Simplex} {n m : Nat} (hle : n ≤ m)
    (h : s.afterPivots m = some t') : ∃ t, s.afterPivots n = some t := by
  induction hle generalizing t' with
  | refl => exact ⟨t', h⟩
  | step _ ih =>
    obtain ⟨u, hu, _⟩ := afterPivots_succ_eq_some.mp h
    exact ih hu

section Reached

variable {s t t' : Simplex} {n : Nat}

/-- A step that ends in a pivot is one of the rule in force. -/
theorem Steady.exists_pivots (hs : s.Steady) (h : s.repairStep n = .ok (t, .pivoted)) :
    ∃ b e, Pivots (s.blandThreshold ≤ n) s t b e := by
  rcases repairStep_spec hs.grounded hs.solves n with ⟨s', hok, _⟩ | ⟨s', c, hok, _⟩ |
    ⟨s', b, e, hok, hp⟩
  · rw [h] at hok
    cases hok
  · rw [h] at hok
    cases hok
  · rw [h] at hok
    cases hok
    exact ⟨b, e, hp⟩

/-- What a repair keeps in every state that it reaches. -/
structure Reached (s t : Simplex) : Prop where
  steady : t.Steady
  threshold : t.blandThreshold = s.blandThreshold
  room : t.tableau.numVariables = s.tableau.numVariables

theorem Steady.reached (hs : s.Steady) (h : s.afterPivots n = some t) : Reached s t := by
  induction n generalizing t with
  | zero =>
    cases h
    exact ⟨hs, rfl, rfl⟩
  | succ n ih =>
    obtain ⟨u, hu, hstep⟩ := afterPivots_succ_eq_some.mp h
    have hr := ih hu
    obtain ⟨b, e, hp⟩ := hr.steady.exists_pivots hstep
    exact ⟨hp.steady hr.steady, hp.frame.threshold.trans hr.threshold,
      hp.rebased.room.trans hr.room⟩

/-- Once the threshold is passed, every pivot is one of Bland's rule. -/
theorem Steady.exists_bland (hs : s.Steady) (hn : s.blandThreshold ≤ n)
    (h : s.afterPivots (n + 1) = some t') :
    ∃ t b e, s.afterPivots n = some t ∧ Pivots true t t' b e := by
  obtain ⟨t, ht, hstep⟩ := afterPivots_succ_eq_some.mp h
  have hr := hs.reached ht
  obtain ⟨b, e, hp⟩ := hr.steady.exists_pivots hstep
  rw [hr.threshold, decide_eq_true hn] at hp
  exact ⟨t, b, e, ht, hp⟩

/-- The pivots between two states beyond the threshold are a run under Bland's rule. -/
theorem Steady.exists_blandRun (hs : s.Steady) (hn : s.blandThreshold ≤ n) {p : Nat}
    (ht : s.afterPivots n = some t) (ht' : s.afterPivots (n + p) = some t') :
    ∃ w, BlandRun t w t' ∧ w.length = p := by
  induction p generalizing t' with
  | zero =>
    cases ht.symm.trans ht'
    exact ⟨[], .nil t, rfl⟩
  | succ p ih =>
    obtain ⟨u, b, e, hu, hp⟩ := hs.exists_bland (Nat.le_add_right_of_le hn) ht'
    obtain ⟨w, hw, rfl⟩ := ih hu
    exact ⟨w ++ [(b, e)], hw.snoc hp, by simp⟩

/-- No repair makes this many pivots. -/
theorem Steady.afterPivots_eq_none (hs : s.Steady) :
    s.afterPivots (s.blandThreshold + 3 ^ s.tableau.numVariables) = none := by
  by_contra hne
  obtain ⟨t', ht'⟩ := Option.ne_none_iff_exists'.mp hne
  obtain ⟨t, ht⟩ := exists_afterPivots_of_le (Nat.le_add_right _ _) ht'
  obtain ⟨w, hw, hlen⟩ := hs.exists_blandRun (Nat.le_refl _) ht ht'
  have hr := hs.reached ht
  have hshort := shortBefore t.tableau.numVariables t t' w hw hr.steady (hw.lt hr.steady)
  rw [hr.room] at hshort
  omega

end Reached

/-! ## The outcome -/

/-- The repair makes `n` pivots, and then has an outcome, whatever number of steps it had left. -/
structure EndsAfter (s : Simplex) (n : Nat) (found : Simplex × Option Conflict) : Prop where
  pivots : ∃ t, s.afterPivots n = some t
  last : s.afterPivots (n + 1) = none
  outcome : ∀ m, n < m → s.repairWithin m 0 = .ok found
  verified : found.2 = none → found.1.verified = .ok found.1

/-- The number of pivots that a repair makes. -/
theorem EndsAfter.eq {s : Simplex} {n k : Nat} {found : Simplex × Option Conflict}
    (h : EndsAfter s n found) (hk : (s.afterPivots k).isSome)
    (hlast : s.afterPivots (k + 1) = none) : n = k := by
  obtain ⟨t, ht⟩ := h.pivots
  obtain ⟨u, hu⟩ := Option.isSome_iff_exists.mp hk
  apply Nat.le_antisymm
  · by_contra hlt
    obtain ⟨v, hv⟩ := exists_afterPivots_of_le (Nat.lt_of_not_le hlt) ht
    cases hv.symm.trans hlast
  · by_contra hlt
    obtain ⟨v, hv⟩ := exists_afterPivots_of_le (Nat.lt_of_not_le hlt) hu
    cases hv.symm.trans h.last

/-- A step that makes no pivot ends the repair. -/
theorem Steady.exists_outcome {t : Simplex} (ht : t.Steady) {n : Nat}
    (hlast : ∀ t', t.repairStep n ≠ .ok (t', .pivoted)) :
    ∃ found : Simplex × Option Conflict, (∀ m, t.repairWithin (m + 1) n = .ok found) ∧
      (found.2 = none → found.1.verified = .ok found.1) := by
  rcases repairStep_spec ht.grounded ht.solves n with ⟨t', hok, htab, hmodel, _, hwithin⟩ |
    ⟨t', c, hok, _⟩ | ⟨t', b, e, hok, _⟩
  · refine ⟨(t', none), fun m => by rw [repairWithin, hok]; rfl, fun _ => ?_⟩
    have hval : t'.model.valueOf = t.model.valueOf := by rw [hmodel, Model.valueOf_commit]
    have hgrounded : t'.Grounded := by
      apply ht.grounded.congr htab
      rw [hmodel, Model.numVariables_commit]
    have hsolves : t'.tableau.Solves t'.model.valueOf := by
      rw [htab, hval]
      exact ht.solves
    have hin : ∀ u, t'.model.Within u := by
      intro u
      unfold Model.Within
      rw [hval, hmodel, Model.boundOf_commit]
      exact hwithin ht.queued u
    obtain ⟨x, hx, rfl⟩ := (hgrounded.verified_spec hsolves).exists_ok fun _ hnot => hnot hin
    exact hx
  · refine ⟨(t', some c), fun m => by rw [repairWithin, hok]; rfl, fun hnone => ?_⟩
    cases hnone
  · exact absurd hok (hlast t')

/-- The repair makes a number of pivots that its limit of steps allows, and then has an outcome. -/
theorem Steady.exists_endsAfter {s : Simplex} (hs : s.Steady) :
    ∃ n found, n < s.blandThreshold + 3 ^ s.tableau.numVariables ∧ EndsAfter s n found := by
  have hends : ∃ k, s.afterPivots k = none := ⟨_, hs.afterPivots_eq_none⟩
  obtain ⟨k, hk, hleast⟩ : ∃ k, s.afterPivots k = none ∧ ∀ j < k, s.afterPivots j ≠ none :=
    ⟨Nat.find hends, Nat.find_spec hends, fun j hj => Nat.find_min hends hj⟩
  have hle : k ≤ s.blandThreshold + 3 ^ s.tableau.numVariables := by
    by_contra hgt
    exact hleast _ (Nat.lt_of_not_le hgt) hs.afterPivots_eq_none
  cases k with
  | zero => cases hk
  | succ n =>
    obtain ⟨t, ht⟩ := Option.ne_none_iff_exists'.mp (hleast n (Nat.lt_succ_self n))
    obtain ⟨found, hfound, hverified⟩ := (hs.reached ht).steady.exists_outcome (n := n)
      fun t' hstep => by
        rw [afterPivots_succ_eq_some.mpr ⟨t, ht, hstep⟩] at hk
        cases hk
    refine ⟨n, found, hle, ⟨t, ht⟩, hk, fun m hm => ?_, hverified⟩
    obtain ⟨d, rfl⟩ := Nat.exists_eq_add_of_lt hm
    rw [Nat.add_assoc, repairWithin_of_afterPivots ht, hfound]

/-- The repair has the outcome in which it ends after its last pivot. -/
theorem EndsAfter.repair {s : Simplex} {n : Nat} {found : Simplex × Option Conflict}
    (h : EndsAfter s n found) (hn : n < s.blandThreshold + 3 ^ s.tableau.numVariables) :
    s.repair = .ok found := by
  have hpow : 3 ^ s.tableau.numVariables ≤ Nat.pow 4 (s.tableau.numVariables + 1) := by
    refine (Nat.pow_le_pow_left (Nat.le_succ 3) _).trans ?_
    exact Nat.pow_le_pow_right (by decide) (Nat.le_succ _)
  have hlimit : n < s.stepLimit := by
    rw [stepLimit]
    omega
  obtain ⟨s', conflict⟩ := found
  rw [Simplex.repair, h.outcome _ hlimit]
  cases conflict with
  | none =>
    have hverified : s'.verified = .ok s' := h.verified rfl
    simp only [ok_bind, hverified]
    rfl
  | some c => rfl

/-- A state in which only basic variables violate bounds, and are marked if they do. -/
theorem queued_of_marked {s : Simplex}
    (hnonbasic : ∀ v, s.tableau.isBasic v = false → s.model.Within v)
    (hmarked : ∀ v, s.tableau.isBasic v = true → ¬ s.model.Within v →
      s.suspects.contains v = true) : s.Queued := by
  intro v hv
  cases hb : s.tableau.isBasic v with
  | false => exact absurd (hnonbasic v hb) hv
  | true => exact ⟨Tableau.isBasic_iff.mp hb, hmarked v hb hv⟩

/-- The outcomes of a repair; it ends if every variable that violates a bound is marked. -/
theorem repair_spec {s : Simplex} (h : s.Grounded) (hs : s.tableau.Solves s.model.valueOf)
    (hsafe : s.tableau.Solves s.model.safeOf) (hord : s.model.Ordered) :
    Checked.Meets (fun _ => ¬ s.Queued) (fun p => Repaired s p.1 p.2) s.repair := by
  have hspec := repairWithin_spec h hs hsafe s.stepLimit 0
  rw [repair]
  cases hrun : s.repairWithin s.stepLimit 0 with
  | ok p =>
    rw [hrun] at hspec
    obtain ⟨s', conflict⟩ := p
    have hrep : Repaired s s' conflict := hspec
    cases conflict with
    | none =>
      refine ((hrep.grounded.verified_spec hrep.solves).mono_fault fun _ hout hq =>
        hout (hrep.within rfl hord hq)).bind fun x hx => ?_
      rw [show x = s' from hx]
      exact hrep
    | some c => exact hrep
  | error f =>
    intro hq
    obtain ⟨n, found, hn, hends⟩ := Steady.exists_endsAfter ⟨h, hs, hord, hq⟩
    have hrepair := hends.repair hn
    rw [repair, hrun] at hrepair
    cases hrepair

/-! ## No cycles -/

/-- The same variables are basic. -/
def SameBasis (s t : Simplex) : Prop := ∀ u, t.tableau.row? u = none ↔ s.tableau.row? u = none

theorem SameBasis.of_basicVars {s t : Simplex} (h : t.tableau.basicVars = s.tableau.basicVars) :
    SameBasis s t := by
  have hnone : ∀ (q : Tableau) (u : Var), q.row? u = none ↔ u ∉ q.basicVars := by
    intro q u
    rw [Tableau.mem_basicVars_iff, ← Option.ne_none_iff_exists', ne_eq, not_not]
  intro u
  rw [hnone, hnone, h]

/-- The bases before and after a pivot tell which variables it exchanges. -/
theorem Pivots.eq_of_sameBasis {bland : Bool} {s s' t t' : Simplex} {b e b' e' : Var}
    (h : Pivots bland s s' b e) (h' : Pivots bland t t' b' e') (hs : s.Grounded)
    (hbefore : SameBasis s t) (hafter : SameBasis s' t') : b' = b ∧ e' = e := by
  constructor
  · have hout : t'.tableau.row? b = none :=
      (hafter b).mpr ((h.nonbasic b).mpr ⟨h.ne hs, .inl rfl⟩)
    have hin : t.tableau.row? b ≠ none := (hbefore b).not.mpr h.row?_leaving
    exact ((((h'.nonbasic b).mp hout).2).resolve_right hin).symm
  · have hout : t.tableau.row? e = none := (hbefore e).mpr (h.row?_entering hs)
    have hin : t'.tableau.row? e ≠ none :=
      (hafter e).not.mpr fun hnone => ((h.nonbasic e).mp hnone).1 rfl
    by_contra hne
    exact hin ((h'.nonbasic e).mpr ⟨Ne.symm hne, .inr hout⟩)

/-- The repair goes through the same bases for `p` pivots after `i` and after `k` pivots. -/
def Repeats (s : Simplex) (i k p : Nat) : Prop :=
  ∀ j ≤ p, ∃ t t', s.afterPivots (i + j) = some t ∧ s.afterPivots (k + j) = some t' ∧
    t'.tableau.basicVars = t.tableau.basicVars

/-- Where a repair repeats its bases, it repeats its pivots. -/
theorem Steady.exists_blandRun_twice {s : Simplex} (hs : s.Steady) {i k p : Nat}
    (hi : s.blandThreshold ≤ i) (hk : s.blandThreshold ≤ k) (h : Repeats s i k p) :
    ∃ w t u t' u', s.afterPivots i = some t ∧ s.afterPivots (i + p) = some u ∧
      s.afterPivots k = some t' ∧ s.afterPivots (k + p) = some u' ∧
      BlandRun t w u ∧ BlandRun t' w u' ∧ w.length = p := by
  induction p with
  | zero =>
    obtain ⟨t, t', ht, ht', _⟩ := h 0 (Nat.le_refl 0)
    exact ⟨[], t, t, t', t', ht, ht, ht', ht', .nil t, .nil t', rfl⟩
  | succ p ih =>
    obtain ⟨w, t, u, t', u', ht, hu, ht', hu', hw, hw', hlen⟩ :=
      ih fun j hj => h j (Nat.le_succ_of_le hj)
    obtain ⟨v, v', hv, hv', hafter⟩ := h (p + 1) (Nat.le_refl _)
    obtain ⟨u₁, u₁', hu₁, hu₁', hbefore⟩ := h p (Nat.le_succ p)
    rw [hu] at hu₁
    rw [hu'] at hu₁'
    cases hu₁
    cases hu₁'
    obtain ⟨u₂, b, e, hu₂, hp⟩ := hs.exists_bland (Nat.le_add_right_of_le hi) hv
    obtain ⟨u₂', b', e', hu₂', hp'⟩ := hs.exists_bland (Nat.le_add_right_of_le hk) hv'
    cases hu.symm.trans hu₂
    cases hu'.symm.trans hu₂'
    obtain ⟨rfl, rfl⟩ := hp.eq_of_sameBasis hp' (hs.reached hu).steady.grounded
      (.of_basicVars hbefore) (.of_basicVars hafter)
    exact ⟨w ++ [(b', e')], t, v, t', v', ht, hv, ht', hv', hw.snoc hp, hw'.snoc hp',
      by simp [hlen]⟩

/-- Beyond the threshold a repair does not go through the same bases twice in a row. -/
theorem Steady.not_repeats {s : Simplex} (hs : s.Steady) {i p : Nat} (hi : s.blandThreshold ≤ i)
    (h : Repeats s i (i + p) p) : p = 0 := by
  obtain ⟨w, t, u, t', u', ht, hu, ht', _, hw, hw', rfl⟩ :=
    hs.exists_blandRun_twice hi (Nat.le_add_right_of_le hi) h
  cases hu.symm.trans ht'
  rw [(hw.append hw').not_twice (hs.reached ht).steady]
  rfl

/-- Beyond the threshold a repair does not come back to a basis with the values that it had
there. -/
theorem Steady.not_restored {s t t' : Simplex} (hs : s.Steady) {i j : Nat}
    (hi : s.blandThreshold ≤ i) (hij : i < j) (ht : s.afterPivots i = some t)
    (ht' : s.afterPivots j = some t')
    (hbasis : t'.tableau.basicVars = t.tableau.basicVars) :
    ∃ v, t.tableau.isBasic v = false ∧ t'.model.valueOf v ≠ t.model.valueOf v := by
  obtain ⟨d, rfl⟩ := Nat.exists_eq_add_of_lt hij
  rw [Nat.add_assoc] at ht'
  obtain ⟨w, hw, hlen⟩ := hs.exists_blandRun hi ht ht'
  have hne : w ≠ [] := by
    rintro rfl
    cases hlen
  obtain ⟨v, hv, hdiff⟩ := hw.not_restored (hs.reached ht).steady hne
    (SameBasis.of_basicVars hbasis)
  refine ⟨v, ?_, hdiff⟩
  rw [← Bool.not_eq_true, Tableau.isBasic_iff]
  rintro ⟨r, hr⟩
  cases hv.symm.trans hr

/-- If every violated variable is basic and marked, then the repair ends with any pivot rule and
threshold: it makes fewer pivots than the threshold and `3 ^ n` for `n` variables, and then has an
outcome. Beyond the threshold it never goes through the same bases twice in a row, and never comes
back to a basis with the values that the other variables had there. -/
theorem repair_terminates {s : Simplex} (h : s.Grounded)
    (hvalues : s.tableau.Solves s.model.valueOf) (hord : s.model.Ordered)
    (hnonbasic : ∀ v, s.tableau.isBasic v = false → s.model.Within v)
    (hmarked : ∀ v, s.tableau.isBasic v = true → ¬ s.model.Within v →
      s.suspects.contains v = true) :
    (∃ n found, n < s.blandThreshold + 3 ^ s.tableau.numVariables ∧ EndsAfter s n found ∧
      s.repair = .ok found) ∧
    (∀ i p, s.blandThreshold ≤ i → Repeats s i (i + p) p → p = 0) ∧
    ∀ i j t t', s.blandThreshold ≤ i → i < j → s.afterPivots i = some t →
      s.afterPivots j = some t' → t'.tableau.basicVars = t.tableau.basicVars →
      ∃ v, t.tableau.isBasic v = false ∧ t'.model.valueOf v ≠ t.model.valueOf v := by
  have hs : s.Steady := ⟨h, hvalues, hord, queued_of_marked hnonbasic hmarked⟩
  refine ⟨?_, fun i p => hs.not_repeats, fun i j t t' => hs.not_restored⟩
  obtain ⟨n, found, hn, hends⟩ := hs.exists_endsAfter
  exact ⟨n, found, hn, hends, hends.repair hn⟩

/-- The sum `v2` of `v0` and `v1` is to be at least three and their difference `v3` at most zero,
while both are at most two. The first pivot is made before Bland's rule. -/
def stretched : Simplex where
  tableau := ((do
    let t ← ({} : Tableau).addRow ⟨2⟩ [(⟨0⟩, 1), (⟨1⟩, 1)]
    t.addRow ⟨3⟩ [(⟨0⟩, 1), (⟨1⟩, -1)]).toOption).getD {}
  model :=
    { byVar := ⟨[{ upper := some ⟨.ofRat 2, ⟨0⟩⟩ }, { upper := some ⟨.ofRat 2, ⟨1⟩⟩ },
        { lower := some ⟨.ofRat 3, ⟨2⟩⟩ }, { upper := some ⟨.ofRat 0, ⟨3⟩⟩ }]⟩ }
  suspects := (∅ : SortedSet Var).insert ⟨2⟩ ()
  blandThreshold := 1

theorem repair_terminates_stretched :
    ∃ found, EndsAfter stretched 3 found ∧ stretched.repair = .ok found := by
  have hsolves : stretched.tableau.Solves stretched.model.valueOf := by
    have hzero : ∀ v, stretched.model.valueOf v = 0
      | ⟨0⟩ | ⟨1⟩ | ⟨2⟩ | ⟨3⟩ | ⟨_ + 4⟩ => rfl
    intro b r _
    rw [Row.eval_eq_sum, hzero]
    simp [hzero]
  have hgrounded : stretched.Grounded :=
    Coherent.grounded ⟨by decide +kernel, by decide +kernel⟩
  have hordered : stretched.model.Ordered
    | ⟨0⟩, l, u, hl, _ | ⟨1⟩, l, u, hl, _ | ⟨3⟩, l, u, hl, _ | ⟨_ + 4⟩, l, u, hl, _ => nomatch hl
    | ⟨2⟩, l, u, _, hu => nomatch hu
  have hbasic : stretched.tableau.isBasic ⟨2⟩ = true := by decide +kernel
  have hwithin : ∀ v, v ≠ ⟨2⟩ → stretched.model.Within v
    | ⟨0⟩, _ | ⟨1⟩, _ | ⟨3⟩, _ => Model.violation?_eq_none_iff.mp (by decide +kernel)
    | ⟨2⟩, h => absurd rfl h
    | ⟨_ + 4⟩, _ => Model.violation?_eq_none_iff.mp rfl
  have hmarked : stretched.suspects.contains ⟨2⟩ = true := by decide +kernel
  obtain ⟨⟨n, found, _, hends, hrepair⟩, _⟩ := repair_terminates hgrounded hsolves hordered
    (fun v hv => hwithin v fun h => by rw [h, hbasic] at hv; cases hv)
    (fun v _ hv => by
      by_cases h : v = ⟨2⟩
      · rw [h]
        exact hmarked
      · exact absurd (hwithin v h) hv)
  have hthree : (stretched.afterPivots 3).isSome := by decide +kernel
  have hfour : (stretched.afterPivots 4).isNone := by decide +kernel
  obtain rfl := hends.eq hthree (Option.isNone_iff_eq_none.mp hfour)
  exact ⟨found, hends, hrepair⟩

end LinearArithmetic.Simplex
