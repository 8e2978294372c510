import LinearArithmetic.Proofs.SimplexMoves
import LinearArithmetic.Simplex.Bounds

/-!
# Asserting bounds

A new bound either crosses the bound on the other side, or is no tighter than the one there is, or
is recorded. The values keep solving the tableau, and every variable that violates a bound is
basic and marked if that was so before.
-/

namespace LinearArithmetic

namespace Side

theorem beyond_lower_iff {limit x : DeltaRat} : lower.beyond limit x = true ↔ x < limit := by
  simp [beyond]

theorem beyond_upper_iff {limit x : DeltaRat} : upper.beyond limit x = true ↔ limit < x := by
  simp [beyond]

/-- The number is on the inner side of the limit. -/
def Inside (side : Side) (limit x : DeltaRat) : Prop :=
  match side with
  | lower => limit ≤ x
  | upper => x ≤ limit

theorem beyond_eq_false_iff {side : Side} {limit x : DeltaRat} :
    side.beyond limit x = false ↔ side.Inside limit x := by
  cases side <;> simp [beyond, Inside]

theorem inside_refl (side : Side) (x : DeltaRat) : side.Inside x x := by
  cases side <;> exact le_refl x

theorem inside_trans {side : Side} {x y z : DeltaRat} (h : side.Inside x y) (k : side.Inside y z) :
    side.Inside x z := by
  cases side with
  | lower => exact le_trans (h : x ≤ y) k
  | upper => exact le_trans (k : z ≤ y) h

/-- Beyond a limit on one side is inside it on the other. -/
theorem inside_of_beyond {side : Side} {limit x : DeltaRat}
    (h : side.opposite.beyond limit x = true) : side.Inside limit x := by
  cases side with
  | lower => exact le_of_lt (beyond_upper_iff.mp h)
  | upper => exact le_of_lt (beyond_lower_iff.mp h)

theorem inside_limit_of_beyond {side : Side} {limit x : DeltaRat}
    (h : side.beyond limit x = true) : side.Inside x limit := by
  cases side with
  | lower => exact le_of_lt (beyond_lower_iff.mp h)
  | upper => exact le_of_lt (beyond_upper_iff.mp h)

@[simp] theorem opposite_opposite (side : Side) : side.opposite.opposite = side := by
  cases side <;> rfl

theorem opposite_ne (side : Side) : side.opposite ≠ side := by
  cases side <;> simp [opposite]

theorem eq_or_eq_opposite (s side : Side) : s = side ∨ s = side.opposite := by
  cases s <;> cases side <;> simp [opposite]

end Side

namespace Model

/-- The value of the variable respects its bounds. -/
def Within (m : Model) (v : Var) : Prop :=
  ∀ side b, m.boundOf side v = some b → side.Inside b.value (m.valueOf v)

theorem Within.congr {m m' : Model} {v : Var} (h : m.Within v) (hbounds : m'.boundOf = m.boundOf)
    (hvalue : m'.valueOf v = m.valueOf v) : m'.Within v := by
  unfold Within
  rw [hbounds, hvalue]
  exact h

/-- No lower bound is above the upper bound of its variable. -/
def Ordered (m : Model) : Prop :=
  ∀ v l u, m.boundOf .lower v = some l → m.boundOf .upper v = some u → l.value ≤ u.value

theorem Ordered.congr {m m' : Model} (h : m.Ordered) (hbounds : m'.boundOf = m.boundOf) :
    m'.Ordered := by
  unfold Ordered
  rw [hbounds]
  exact h

theorem violation?_eq_none_iff {m : Model} {v : Var} :
    (m.look v).violation? = none ↔ m.Within v := by
  have hopt : ∀ (o : Option Bound) (side : Side) (x : DeltaRat),
      (o.filter fun b => side.beyond b.value x) = none ↔
        ∀ b, o = some b → side.Inside b.value x := by
    intro o side x
    rw [Option.filter_eq_none_iff]
    refine forall_congr' fun b => imp_congr_right fun _ => ?_
    rw [← Side.beyond_eq_false_iff, Bool.not_eq_true]
  rw [ModelEntry.violation?, Option.or_eq_none_iff, Option.map_eq_none_iff, Option.map_eq_none_iff,
    hopt, hopt]
  constructor
  · rintro ⟨hl, hu⟩ side b hb
    cases side with
    | lower => exact hl b hb
    | upper => exact hu b hb
  · intro h
    exact ⟨fun b hb => h .lower b hb, fun b hb => h .upper b hb⟩

theorem isNone_violation?_iff {m : Model} {v : Var} :
    (m.look v).violation?.isNone = true ↔ m.Within v := by
  rw [Option.isNone_iff_eq_none, violation?_eq_none_iff]

theorem violation?_eq_some {m : Model} {v : Var} {side : Side} {b : Bound}
    (h : (m.look v).violation? = some (side, b)) :
    m.boundOf side v = some b ∧ side.beyond b.value (m.valueOf v) = true := by
  rw [ModelEntry.violation?, Option.or_eq_some_iff] at h
  rcases h with h | ⟨_, h⟩ <;>
  · obtain ⟨b', hb', heq⟩ := Option.map_eq_some_iff.mp h
    obtain ⟨rfl, rfl⟩ := Prod.mk.inj heq
    exact Option.filter_eq_some_iff.mp hb'

end Model

namespace Simplex

/-- Every variable that violates a bound is basic and marked. -/
def Queued (s : Simplex) : Prop :=
  ∀ u, ¬ s.model.Within u →
    (∃ r, s.tableau.row? u = some r) ∧ s.suspects.contains u = true

instance (s : Simplex) : Decidable s.Queued :=
  decidable_of_iff (∀ i ∈ List.range s.model.numVariables,
    (s.model.look ⟨i⟩).violation?.isNone = true ∨
      s.tableau.isBasic ⟨i⟩ = true ∧ s.suspects.contains ⟨i⟩ = true) <| by
    constructor
    · intro h u hu
      have hlt : u.id < s.model.numVariables := by
        by_contra hge
        refine hu (Model.isNone_violation?_iff.mp ?_)
        rw [Model.look_of_ge (Nat.le_of_not_lt hge)]
        rfl
      rcases h u.id (List.mem_range.mpr hlt) with hin | ⟨hb, hm⟩
      · exact absurd (Model.isNone_violation?_iff.mp hin) hu
      · exact ⟨Tableau.isBasic_iff.mp hb, hm⟩
    · intro h i _
      by_cases hw : s.model.Within ⟨i⟩
      · exact .inl (Model.isNone_violation?_iff.mpr hw)
      · exact .inr ((h ⟨i⟩ hw).imp_left Tableau.isBasic_iff.mpr)

/-- The variable is basic and marked for the next repair. -/
def Watches (s : Simplex) (u : Var) : Prop :=
  (∃ r, s.tableau.row? u = some r) ∧ s.suspects.contains u = true

/-- What asserting a bound of `v` leaves alone: everything but values and the bounds of `v`. -/
structure Asserts (v : Var) (s s' : Simplex) : Prop where
  tableau : s'.tableau = s.tableau
  room : s'.model.numVariables = s.model.numVariables
  safe : s'.model.safeOf = s.model.safeOf
  saved : ∀ u, u ≠ v → s.tableau.row? u = none → s'.model.savedOf u = s.model.savedOf u
  below : Model.SameBelow s.model s'.model
  lemmas : s'.lemmas = s.lemmas
  solves : s.tableau.Solves s.model.valueOf → s'.tableau.Solves s'.model.valueOf
  queued : s.Queued → s'.Queued

theorem Asserts.refl (v : Var) (s : Simplex) : Asserts v s s :=
  ⟨rfl, rfl, rfl, fun _ _ _ => rfl, .refl _, rfl, id, id⟩

/-- Bringing a variable to a value inside its bounds, where every other variable that violates a
bound is basic and marked. -/
theorem bring_spec {s : Simplex} (h : s.Coherent) {v : Var} (hlt : v.id < s.model.numVariables)
    {x : DeltaRat} (hx : ∀ side b, s.model.boundOf side v = some b → side.Inside b.value x) :
    ∃ s', s.bring v x = .ok s' ∧ Frame s s' ∧ s'.tableau = s.tableau ∧
      (∀ u, u ≠ v → s.tableau.row? u = none → s'.model.savedOf u = s.model.savedOf u) ∧
      (s.tableau.Solves s.model.valueOf → s.tableau.Solves s'.model.valueOf) ∧
      ((∀ u, u ≠ v → ¬ s.model.Within u →
        (∃ r, s.tableau.row? u = some r) ∧ s.suspects.contains u = true) → s'.Queued) := by
  cases hr : s.tableau.row? v with
  | some r =>
    refine ⟨s.mark v, by rw [bring, Tableau.isBasic_iff.mpr ⟨r, hr⟩]; rfl, .mark s v, rfl,
      fun _ _ _ => rfl, id, ?_⟩
    intro hq u hu
    by_cases huv : u = v
    · exact ⟨⟨r, huv ▸ hr⟩, contains_mark.mpr (.inl huv)⟩
    · obtain ⟨hbasic, hmark⟩ := hq u huv hu
      exact ⟨hbasic, contains_mark.mpr (.inr hmark)⟩
  | none =>
    obtain ⟨s', hok, hm⟩ := move_spec h.grounded hr hlt x
    refine ⟨s', by rw [bring, Tableau.isBasic_eq_false_iff.mpr hr]; exact hok, hm.frame,
      hm.tableau, hm.saved, ?_, ?_⟩
    · intro hs
      rw [hm.values]
      exact h.tableau.solves_shift hs _ _
    · intro hq u hu
      by_cases huv : u = v
      · subst huv
        refine absurd (fun side b hb => ?_) hu
        rw [hm.values, Tableau.shift_of_none hr, if_pos rfl, add_sub_cancel]
        exact hx side b (hm.frame.bounds ▸ hb)
      · rw [hm.tableau]
        by_cases hchange : s'.model.valueOf u = s.model.valueOf u
        · obtain ⟨hbasic, hmarked⟩ := hq u huv fun hw => hu (hw.congr hm.frame.bounds hchange)
          exact ⟨hbasic, hm.suspects u hmarked⟩
        · refine ⟨?_, hm.marked u huv hchange⟩
          cases hru : s.tableau.row? u with
          | some r => exact ⟨r, rfl⟩
          | none =>
            rw [hm.values, Tableau.shift_of_none hru, if_neg huv] at hchange
            exact absurd rfl hchange

theorem crossing?_eq_some {m : Model} {v : Var} {side : Side} {x : DeltaRat}
    {reason : ConstraintId} {c : Conflict} (h : crossing? (m.look v) side x reason = some c) :
    ∃ b, m.boundOf side.opposite v = some b ∧ side.opposite.beyond b.value x = true ∧
      c = .of [reason, b.reason] := by
  obtain ⟨b, hb, hc⟩ := Option.bind_eq_some_iff.mp h
  split at hc
  · rename_i hx
    exact ⟨b, hb, hx, (Option.some.inj hc).symm⟩
  · cases hc

theorem crossing?_eq_none {m : Model} {v : Var} {side : Side} {x : DeltaRat}
    {reason : ConstraintId} (h : crossing? (m.look v) side x reason = none) {b : Bound}
    (hb : m.boundOf side.opposite v = some b) : side.opposite.Inside b.value x := by
  rw [crossing?, Option.bind_eq_none_iff] at h
  have := h b hb
  rw [← Side.beyond_eq_false_iff]
  by_contra hne
  rw [if_pos (by simpa using hne)] at this
  cases this

/-- A changed bound of one variable, and then the variable brought to a value inside its bounds or
left where it is. -/
theorem asserts_of_bounds {s : Simplex} (h : s.Coherent) {v : Var}
    (hlt : v.id < s.model.numVariables)
    {m : Model} (hroom : m.numVariables = s.model.numVariables) (hval : m.valueOf = s.model.valueOf)
    (hsafe : m.safeOf = s.model.safeOf) (hsaved : m.savedOf = s.model.savedOf)
    (hbelow : Model.SameBelow s.model m)
    (hother : ∀ u, u ≠ v → ∀ side, m.boundOf side u = s.model.boundOf side u) {x : DeltaRat}
    (hx : ∀ side b, m.boundOf side v = some b → side.Inside b.value x) (move : Bool)
    (hstay : move = false → ¬ m.Within v → ¬ s.model.Within v) :
    ∃ s', (if move = true then do return (← { s with model := m }.bring v x, none)
        else return ({ s with model := m }, none) : Checked (Simplex × Option Conflict)) =
          .ok (s', none) ∧
      Asserts v s s' ∧ s'.model.boundOf = m.boundOf := by
  have h₁ : ({ s with model := m } : Simplex).Coherent := ⟨h.tableau, h.room.trans hroom.symm⟩
  have hqueue : s.Queued → ∀ u, u ≠ v → ¬ m.Within u →
      (∃ r, s.tableau.row? u = some r) ∧ s.suspects.contains u = true := by
    intro hq u huv hu
    refine hq u fun hw => hu fun side b hb => ?_
    rw [hval]
    exact hw side b (by rwa [hother u huv] at hb)
  cases move with
  | false =>
    refine ⟨{ s with model := m }, rfl, ⟨rfl, hroom, hsafe,
      fun u _ _ => congrFun hsaved u, hbelow, rfl, ?_, ?_⟩, rfl⟩
    · intro hs
      change s.tableau.Solves m.valueOf
      rwa [hval]
    · intro hq u hu
      by_cases huv : u = v
      · subst huv
        exact hq u (hstay rfl hu)
      · exact hqueue hq u huv hu
  | true =>
    have hlt₁ : v.id < m.numVariables := hroom ▸ hlt
    obtain ⟨s', hok, hf, ht, hsaved', hsol, hq'⟩ := bring_spec h₁ hlt₁ hx
    refine ⟨s', by rw [if_pos rfl, hok]; rfl, ⟨ht, hf.room.trans hroom, hf.safe.trans hsafe,
      fun u huv hu => (hsaved' u huv hu).trans (congrFun hsaved u),
      hbelow.trans (.of_eq hf.trail hf.bounds hf.room), hf.lemmas, ?_, ?_⟩, hf.bounds⟩
    · intro hs
      rw [ht]
      refine hsol ?_
      change s.tableau.Solves m.valueOf
      rwa [hval]
    · intro hq
      exact hq' (hqueue hq)

/-- The outcomes of asserting a bound: it crosses the one on the other side; or it is no tighter
than the one there is; or it is recorded. -/
theorem assertBound_spec {s : Simplex} (h : s.Coherent) (side : Side) {v : Var}
    (hlt : v.id < s.model.numVariables) (x : DeltaRat) (reason : ConstraintId) :
    (∃ b, s.model.boundOf side.opposite v = some b ∧ side.opposite.beyond b.value x = true ∧
      s.assertBound side v x reason = .ok (s, some (.of [reason, b.reason]))) ∨
    ((∀ b, s.model.boundOf side.opposite v = some b → side.opposite.Inside b.value x) ∧
      ∃ s', s.assertBound side v x reason = .ok (s', none) ∧ Asserts v s s' ∧
        ((s' = s ∧ ∃ b, s.model.boundOf side v = some b ∧ side.Inside x b.value) ∨
          ((∀ b, s.model.boundOf side v = some b → side.beyond x b.value = true) ∧
            ∀ t u, s'.model.boundOf t u =
              if u = v ∧ t = side then some ⟨x, reason⟩ else s.model.boundOf t u))) := by
  rw [assertBound, Model.entry_eq_ok hlt, ok_bind]
  cases hcross : crossing? (s.model.look v) side x reason with
  | some c =>
    obtain ⟨b, hb, hbx, rfl⟩ := crossing?_eq_some hcross
    exact .inl ⟨b, hb, hbx, rfl⟩
  | none =>
    refine .inr ⟨fun b hb => crossing?_eq_none hcross hb, ?_⟩
    dsimp only
    by_cases hred : ((s.model.look v).bound side).any (fun b => !side.beyond x b.value) = true
    · obtain ⟨b, hb, hbx⟩ := (Option.any_eq_true _ _).mp hred
      rw [if_pos hred]
      exact ⟨s, rfl, .refl v s, .inl ⟨rfl, b, hb, Side.beyond_eq_false_iff.mp (by simpa using hbx)⟩⟩
    · rw [if_neg hred, Model.setBound_eq_ok hlt]
      have hloose : ∀ b, s.model.boundOf side v = some b → side.beyond x b.value = true := by
        intro b hb
        by_contra hne
        exact hred ((Option.any_eq_true _ _).mpr ⟨b, hb, by simpa using hne⟩)
      have hbound := Model.boundOf_bounded hlt side ⟨x, reason⟩
      obtain ⟨s', hok, hasserts, hb'⟩ := asserts_of_bounds h hlt
        (m := s.model.bounded side v ⟨x, reason⟩) (x := x)
        (Model.numVariables_bounded _ _ _ _) (Model.valueOf_bounded hlt _ _)
        (Model.safeOf_bounded hlt _ _) (Model.savedOf_bounded hlt _ _)
        (Model.sameBelow_bounded hlt _ _)
        (fun u hu t => by rw [hbound, if_neg fun hc => hu hc.1])
        (by
          intro t b hb
          rw [hbound] at hb
          rcases Side.eq_or_eq_opposite t side with rfl | rfl
          · rw [if_pos ⟨rfl, rfl⟩] at hb
            rw [← Option.some.inj hb]
            exact Side.inside_refl _ _
          · rw [if_neg fun hc => Side.opposite_ne _ hc.2] at hb
            exact crossing?_eq_none hcross hb)
        (side.beyond x (s.model.look v).value)
        (by
          intro hmove hnot hw
          refine hnot fun t b hb => ?_
          rw [Model.valueOf_bounded hlt]
          rw [hbound] at hb
          split at hb
          · rename_i ht
            rw [← Option.some.inj hb, ht.2]
            exact Side.beyond_eq_false_iff.mp hmove
          · exact hw t b hb)
      refine ⟨s', hok, hasserts, .inr ⟨hloose, fun t u => ?_⟩⟩
      rw [hb', hbound]

/-- A bound put at a number, unless it is there already. -/
def pinned (old : Option Bound) (x : DeltaRat) (reason : ConstraintId) : Option Bound :=
  if old.any (fun b => b.value = x) then old else some ⟨x, reason⟩

theorem pinned_value {old : Option Bound} {x : DeltaRat} {reason : ConstraintId} {b : Bound}
    (h : pinned old x reason = some b) : b.value = x := by
  rw [pinned] at h
  split at h
  · rename_i hany
    obtain ⟨b', hb', hx⟩ := (Option.any_eq_true _ _).mp hany
    rw [hb'] at h
    rw [← Option.some.inj h]
    simpa using hx
  · rw [← Option.some.inj h]

theorem pinned_isSome (old : Option Bound) (x : DeltaRat) (reason : ConstraintId) :
    ∃ b, pinned old x reason = some b := by
  rw [pinned]
  split
  · rename_i hany
    obtain ⟨b, hb, _⟩ := (Option.any_eq_true _ _).mp hany
    exact ⟨b, hb⟩
  · exact ⟨_, rfl⟩

theorem pinned_reason {old : Option Bound} {x : DeltaRat} {reason : ConstraintId} {b : Bound}
    (h : pinned old x reason = some b) : old = some b ∨ b.reason = reason := by
  rw [pinned] at h
  split at h
  · exact .inl h
  · exact .inr (by rw [← Option.some.inj h])

theorem pinBound_spec {m : Model} {v : Var} (hlt : v.id < m.numVariables) (side : Side)
    (x : DeltaRat) (reason : ConstraintId) :
    ∃ m', pinBound side v x reason m = .ok m' ∧ m'.numVariables = m.numVariables ∧
      m'.valueOf = m.valueOf ∧ m'.safeOf = m.safeOf ∧ m'.savedOf = m.savedOf ∧
      Model.SameBelow m m' ∧
      ∀ t u, m'.boundOf t u =
        if u = v ∧ t = side then pinned (m.boundOf side v) x reason else m.boundOf t u := by
  rw [pinBound, Model.bound_eq_ok hlt, ok_bind]
  by_cases hany : (m.boundOf side v).any (fun b => b.value = x) = true
  · refine ⟨m, by rw [if_pos hany]; rfl, rfl, rfl, rfl, rfl, .refl m,
      fun t u => ?_⟩
    split
    · rename_i h
      rw [h.1, h.2, pinned, if_pos hany]
    · rfl
  · rw [if_neg hany, Model.setBound_eq_ok hlt]
    refine ⟨_, rfl, Model.numVariables_bounded _ _ _ _, Model.valueOf_bounded hlt _ _,
      Model.safeOf_bounded hlt _ _, Model.savedOf_bounded hlt _ _,
      Model.sameBelow_bounded hlt _ _, fun t u => ?_⟩
    rw [Model.boundOf_bounded hlt, pinned, if_neg hany]

/-- The outcomes of asserting an equality: it crosses a bound, or both bounds are put at its
number. -/
theorem assertEqual_spec {s : Simplex} (h : s.Coherent) {v : Var}
    (hlt : v.id < s.model.numVariables) (x : DeltaRat) (reason : ConstraintId) :
    (∃ side b, s.model.boundOf side v = some b ∧ side.beyond b.value x = true ∧
      s.assertEqual v x reason = .ok (s, some (.of [reason, b.reason]))) ∨
    ((∀ side b, s.model.boundOf side v = some b → side.Inside b.value x) ∧
      ∃ s', s.assertEqual v x reason = .ok (s', none) ∧ Asserts v s s' ∧
        ∀ t u, s'.model.boundOf t u =
          if u = v then pinned (s.model.boundOf t v) x reason else s.model.boundOf t u) := by
  rw [assertEqual, Model.entry_eq_ok hlt, ok_bind]
  cases hu : crossing? (s.model.look v) .upper x reason with
  | some c =>
    obtain ⟨b, hb, hbx, rfl⟩ := crossing?_eq_some hu
    exact .inl ⟨_, b, hb, hbx, rfl⟩
  | none =>
    cases hl : crossing? (s.model.look v) .lower x reason with
    | some c =>
      obtain ⟨b, hb, hbx, rfl⟩ := crossing?_eq_some hl
      exact .inl ⟨_, b, hb, hbx, rfl⟩
    | none =>
      have hinside : ∀ side b, s.model.boundOf side v = some b → side.Inside b.value x := by
        intro side b hb
        cases side with
        | lower => exact crossing?_eq_none hu hb
        | upper => exact crossing?_eq_none hl hb
      refine .inr ⟨hinside, ?_⟩
      obtain ⟨m₁, hok₁, hroom₁, hval₁, hsafe₁, hsaved₁, hbelow₁, hb₁⟩ :=
        pinBound_spec hlt .lower x reason
      obtain ⟨m₂, hok₂, hroom₂, hval₂, hsafe₂, hsaved₂, hbelow₂, hb₂⟩ :=
        pinBound_spec (hroom₁ ▸ hlt) .upper x reason
      have hbound : ∀ t u, m₂.boundOf t u =
          if u = v then pinned (s.model.boundOf t v) x reason else s.model.boundOf t u := by
        intro t u
        rw [hb₂, hb₁, hb₁]
        cases t <;> by_cases huv : u = v <;> simp [huv]
      obtain ⟨s', hok, hasserts, hb'⟩ := asserts_of_bounds h hlt (m := m₂) (x := x)
        (hroom₂.trans hroom₁) (hval₂.trans hval₁) (hsafe₂.trans hsafe₁)
        (hsaved₂.trans hsaved₁) (hbelow₁.trans hbelow₂)
        (fun u hu t => by rw [hbound, if_neg hu])
        (by
          intro t b hb
          rw [hbound, if_pos rfl] at hb
          rw [pinned_value hb]
          exact Side.inside_refl t x)
        (decide ((s.model.look v).value ≠ x))
        (by
          intro hmove hnot _
          refine hnot fun t b hb => ?_
          rw [hbound, if_pos rfl] at hb
          have hvx : s.model.valueOf v = x := by simpa [Model.valueOf] using hmove
          rw [hval₂, hval₁, hvx, pinned_value hb]
          exact Side.inside_refl t x)
      refine ⟨s', ?_, hasserts, fun t u => by rw [hb', hbound]⟩
      simp only [Option.or_none, hok₁, ok_bind, hok₂]
      simpa using hok

end Simplex

end LinearArithmetic
