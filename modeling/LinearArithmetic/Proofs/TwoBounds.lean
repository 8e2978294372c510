import LinearArithmetic.Proofs.Termination

/-!
# An equality is two bounds

Asserting an equality is asserting a lower bound and then an upper bound. The bounds are recorded
in the same order, and whether the variable is brought to its value before the second bound is
recorded or after it makes no difference, since bounds and values are kept apart. A conflict leaves
the state as it was.
-/

namespace LinearArithmetic

/-! ## Bounds and values are kept apart -/

namespace Model

/-- The change of a model neither depends on values nor changes any. -/
structure Neutral (F : Model → Model) : Prop where
  value : ∀ m v, (F m).value v = m.value v
  setValue : ∀ m v x, (F m).setValue v x = F <$> m.setValue v x

theorem assigned_bounded (m : Model) (u v : Var) (x : DeltaRat) (side : Side) (b : Bound) :
    (m.bounded side v b).assigned u x = (m.assigned u x).bounded side v b := by
  have hcomm : ∀ e : ModelEntry,
      (e.setBound side (some b)).setValue x = (e.setValue x).setBound side (some b) := by
    intro e
    cases side <;> rfl
  simp only [bounded, boundOf_assigned]
  simp only [assigned, update]
  rw [Arena.modify_comm fun e => (hcomm e).symm]

theorem neutral_bounded (side : Side) (v : Var) (b : Bound) : Neutral (bounded side v b) where
  value m u := by
    have hget : (m.bounded side v b).byVar.get? u.id =
        if u.id = v.id then (m.byVar.get? u.id).map (·.setBound side (some b))
        else m.byVar.get? u.id := Arena.get?_modify _ _ _ _
    rw [value, value, entry, entry, Arena.get, Arena.get, hget]
    by_cases hid : u.id = v.id
    · rw [if_pos hid]
      cases m.byVar.get? u.id with
      | none => rfl
      | some e => exact congrArg Except.ok (ModelEntry.value_setBound e side (some b))
    · rw [if_neg hid]
  setValue m u x := by
    rw [setValue_eq, setValue_eq, numVariables_bounded, assigned_bounded]
    split <;> rfl

end Model

/-- A number inside a limit has the limit inside only if it is there. -/
theorem Side.Inside.beyond_eq_false_iff {side : Side} {limit x : DeltaRat}
    (h : side.Inside limit x) : side.beyond x limit = false ↔ limit = x := by
  rw [Side.beyond_eq_false_iff]
  cases side with
  | lower => exact ⟨fun hx => le_antisymm h hx, fun hx => le_of_eq hx.symm⟩
  | upper => exact ⟨fun hx => le_antisymm hx h, fun hx => le_of_eq hx⟩

namespace Simplex

/-- The model with the bound of a variable on one side put at a number, unless it is there. -/
def pinning (side : Side) (v : Var) (x : DeltaRat) (reason : ConstraintId) (m : Model) : Model :=
  if (m.boundOf side v).any fun b => b.value = x then m else m.bounded side v ⟨x, reason⟩

theorem pinBound_eq_ok {m : Model} {v : Var} (h : v.id < m.numVariables) (side : Side)
    (x : DeltaRat) (reason : ConstraintId) :
    pinBound side v x reason m = .ok (pinning side v x reason m) := by
  rw [pinBound, Model.bound_eq_ok h, ok_bind, pinning]
  split
  · rfl
  · exact Model.setBound_eq_ok h side ⟨x, reason⟩

theorem numVariables_pinning (m : Model) (side : Side) (v : Var) (x : DeltaRat)
    (reason : ConstraintId) :
    (pinning side v x reason m).numVariables = m.numVariables := by
  rw [pinning]
  split
  · rfl
  · exact Model.numVariables_bounded _ _ _ _

theorem boundOf_pinning {m : Model} {v : Var} (h : v.id < m.numVariables) (side : Side)
    (x : DeltaRat) (reason : ConstraintId) (t : Side) (u : Var) :
    (pinning side v x reason m).boundOf t u =
      if u = v ∧ t = side then pinned (m.boundOf side v) x reason else m.boundOf t u := by
  obtain ⟨m', hok, _, _, _, _, _, hbound⟩ := pinBound_spec h side x reason
  rw [pinBound_eq_ok h] at hok
  rw [Except.ok.inj hok, hbound]

theorem neutral_pinning (side : Side) (v : Var) (x : DeltaRat) (reason : ConstraintId) :
    Model.Neutral (pinning side v x reason) where
  value m u := by
    rw [pinning]
    split
    · rfl
    · exact (Model.neutral_bounded _ _ _).value m u
  setValue m u y := by
    have hany : ∀ m', m.setValue u y = .ok m' → m'.boundOf side v = m.boundOf side v := by
      intro m' hok
      rw [Model.setValue_eq] at hok
      split at hok
      · rw [← Except.ok.inj hok, Model.boundOf_assigned]
      · cases hok
    rw [pinning]
    cases hok : m.setValue u y with
    | error f =>
      split
      · exact hok
      · rw [(Model.neutral_bounded _ _ _).setValue, hok]
        rfl
    | ok m' =>
      rw [map_ok, pinning, hany m' hok]
      split
      · exact hok
      · rw [(Model.neutral_bounded _ _ _).setValue, hok, map_ok]

/-- The state with its model changed. -/
def onModel (F : Model → Model) (s : Simplex) : Simplex := { s with model := F s.model }

section Neutral

variable {F : Model → Model} (hF : Model.Neutral F)

include hF

theorem shiftColumn_onModel (v : Var) (d : DeltaRat) (basics : List Var) (s : Simplex) :
    (s.onModel F).shiftColumn v d basics = onModel F <$> s.shiftColumn v d basics := by
  refine Checked.foldlM_map (fun s b => ?_) basics s
  have hcoefficient : (s.onModel F).tableau.coefficient? b v = s.tableau.coefficient? b v := rfl
  rw [hcoefficient]
  cases s.tableau.coefficient? b v with
  | error f => rfl
  | ok c? =>
    cases c? with
    | none => rfl
    | some c =>
      simp only [ok_bind, onModel, hF.value]
      cases s.model.value b with
      | error f => rfl
      | ok y =>
        simp only [ok_bind, hF.setValue]
        cases s.model.setValue b (y + d.scale c) <;> rfl

theorem move_onModel (v : Var) (x : DeltaRat) (s : Simplex) :
    (s.onModel F).move v x = onModel F <$> s.move v x := by
  have hvalue : (s.onModel F).model.value v = s.model.value v := hF.value _ _
  have hshift := fun d => shiftColumn_onModel hF v d (s.tableau.column v) s
  have htableau : (s.onModel F).tableau = s.tableau := rfl
  rw [move, move, hvalue, htableau]
  split
  · rfl
  cases s.model.value v with
  | error f => rfl
  | ok y =>
    simp only [pure_eq_ok, ok_bind, hshift]
    cases s.shiftColumn v (x - y) (s.tableau.column v) with
    | error f => rfl
    | ok s₁ =>
      simp only [map_ok, ok_bind, onModel, hF.setValue]
      cases s₁.model.setValue v x <;> rfl

/-- Bringing a variable to a value and changing bounds can be exchanged. -/
theorem bring_onModel (v : Var) (x : DeltaRat) (s : Simplex) :
    (s.onModel F).bring v x = onModel F <$> s.bring v x := by
  rw [bring, bring]
  change (if s.tableau.isBasic v = true then _ else _) = _
  split
  · rfl
  · exact move_onModel hF v x s

end Neutral

/-! ## An equality as two bounds -/

/-- Asserts `v ≥ x` and then, unless that is a conflict, `v ≤ x`. -/
def assertBoth (v : Var) (x : DeltaRat) (reason : ConstraintId) (s : Simplex) :
    Checked (Simplex × Option Conflict) := do
  match ← s.assertLower v x reason with
  | (s, some c) => return (s, some c)
  | (s, none) => s.assertUpper v x reason

theorem crossing?_of_inside {m : Model} {v : Var} {side : Side} {x : DeltaRat}
    (h : ∀ b, m.boundOf side.opposite v = some b → side.opposite.Inside b.value x)
    (reason : ConstraintId) : crossing? (m.look v) side x reason = none := by
  rw [crossing?, Option.bind_eq_none_iff]
  intro b hb
  rw [if_neg]
  rw [Side.beyond_eq_false_iff.mpr (h b hb)]
  exact Bool.false_ne_true

section Inside

variable {s : Simplex} {v : Var} (hlt : v.id < s.model.numVariables) {x : DeltaRat}
  (hin : ∀ side b, s.model.boundOf side v = some b → side.Inside b.value x)
  (reason : ConstraintId)

include hlt hin

/-- Where a new bound crosses none, it is recorded unless there is one at the number already, and
the variable is brought to the number if it is beyond. -/
theorem assertBound_of_inside (side : Side)
    (hstuck : ∀ b, s.model.boundOf side v = some b → b.value = x →
      side.beyond x (s.model.valueOf v) = true → s.bring v x = .ok s) :
    s.assertBound side v x reason = do
      let s' := s.onModel (pinning side v x reason)
      return (← if side.beyond x (s.model.valueOf v) then s'.bring v x else pure s', none) := by
  have hany : (s.model.boundOf side v).any (fun b => !side.beyond x b.value) =
      (s.model.boundOf side v).any fun b => b.value = x := by
    cases hb : s.model.boundOf side v with
    | none => rfl
    | some b =>
      have hiff := (hin side b hb).beyond_eq_false_iff
      rw [Option.any_some, Option.any_some, Bool.eq_iff_iff, Bool.not_eq_true', hiff,
        decide_eq_true_iff]
  rw [assertBound, Model.entry_eq_ok hlt, ok_bind, crossing?_of_inside (hin side.opposite)]
  dsimp only
  change (if (s.model.boundOf side v).any (fun b => !side.beyond x b.value) then _ else _) = _
  rw [hany, onModel, pinning]
  split
  · rename_i hpinned
    obtain ⟨b, hb, hx⟩ := (Option.any_eq_true _ _).mp hpinned
    split
    · rw [hstuck b hb (of_decide_eq_true hx) ‹_›]
      rfl
    · rfl
  · rw [Model.setBound_eq_ok hlt]
    change (if side.beyond x (s.model.valueOf v) = true then _ else _) = _
    split <;> rfl

/-- Where an equality crosses no bound, both bounds are recorded unless they are at the number
already, and the variable is brought there. -/
theorem assertEqual_of_inside :
    s.assertEqual v x reason = do
      let s' := (s.onModel (pinning .lower v x reason)).onModel (pinning .upper v x reason)
      return (← if s.model.valueOf v ≠ x then s'.bring v x else pure s', none) := by
  have hlt' : v.id < (pinning .lower v x reason s.model).numVariables := by
    rwa [numVariables_pinning]
  rw [assertEqual, Model.entry_eq_ok hlt, ok_bind, crossing?_of_inside (hin .lower),
    crossing?_of_inside (hin .upper), Option.or_none]
  simp only [pinBound_eq_ok hlt, pinBound_eq_ok hlt', ok_bind]
  change (if s.model.valueOf v ≠ x then _ else _) = _
  split <;> rfl

end Inside

/-- Bringing a variable to a value leaves it there or where it is. -/
theorem Grounded.bring_frame {s : Simplex} (h : s.Grounded) {v : Var}
    (hlt : v.id < s.model.numVariables) (x : DeltaRat) :
    ∃ s', s.bring v x = .ok s' ∧ Frame s s' ∧ s'.tableau = s.tableau ∧
      (s'.model.valueOf v = x ∨ s'.model.valueOf v = s.model.valueOf v) := by
  cases hr : s.tableau.row? v with
  | some r =>
    exact ⟨s.mark v, by rw [bring, Tableau.isBasic_iff.mpr ⟨r, hr⟩]; rfl, .mark s v, rfl, .inr rfl⟩
  | none =>
    obtain ⟨s', hok, hmoved⟩ := move_spec h hr hlt x
    refine ⟨s', by rw [bring, Tableau.isBasic_eq_false_iff.mpr hr]; exact hok, hmoved.frame,
      hmoved.tableau, .inl ?_⟩
    rw [hmoved.values, Tableau.shift_of_none hr, if_pos rfl, add_sub_cancel]

/-- A basic variable that violates a bound and is marked stays as it is when it is to be brought
to a value. -/
theorem Queued.bring_eq {s : Simplex} (h : s.Queued) {v : Var} (hv : ¬ s.model.Within v)
    (x : DeltaRat) : s.bring v x = .ok s := by
  obtain ⟨hbasic, hmarked⟩ := h v hv
  have hsame : s.suspects.insert v () = s.suspects := by
    refine SortedMap.ext_get? fun u => ?_
    rw [SortedMap.get?_insert]
    split
    · rename_i hu
      obtain ⟨_, hget⟩ := SortedMap.contains_iff_exists.mp hmarked
      rw [hu, hget]
    · rfl
  rw [bring, if_pos (Tableau.isBasic_iff.mpr hbasic), mark, hsame]
  rfl

theorem crossing?_of_beyond {m : Model} {v : Var} (side : Side) {x : DeltaRat} {b : Bound}
    (hb : m.boundOf side.opposite v = some b) (hx : side.opposite.beyond b.value x = true)
    (reason : ConstraintId) :
    crossing? (m.look v) side x reason = some (.of [reason, b.reason]) := by
  rw [crossing?]
  change (m.boundOf side.opposite v).bind _ = _
  rw [hb, Option.bind_some, if_pos hx]

theorem assertBound_of_beyond {s : Simplex} {v : Var} (hlt : v.id < s.model.numVariables)
    (side : Side) {x : DeltaRat} {b : Bound} (hb : s.model.boundOf side.opposite v = some b)
    (hx : side.opposite.beyond b.value x = true) (reason : ConstraintId) :
    s.assertBound side v x reason = .ok (s, some (.of [reason, b.reason])) := by
  rw [assertBound, Model.entry_eq_ok hlt, ok_bind, crossing?_of_beyond side hb hx]
  rfl

section Both

variable {s : Simplex} {v : Var} (hlt : v.id < s.model.numVariables) {x : DeltaRat}

include hlt

/-- An equality and a lower bound cross an upper bound alike. -/
theorem assertEqual_of_above {u : Bound} (hu : s.model.boundOf .upper v = some u)
    (hx : u.value < x) (hord : s.model.Ordered) (reason : ConstraintId) :
    s.assertEqual v x reason = s.assertBoth v x reason := by
  have hbeyond := Side.beyond_upper_iff.mpr hx
  have hlower : s.assertLower v x reason = .ok (s, some (.of [reason, u.reason])) :=
    assertBound_of_beyond hlt .lower hu hbeyond reason
  have hnot : ∀ l, s.model.boundOf .lower v = some l → Side.lower.Inside l.value x :=
    fun l hl => le_of_lt (lt_of_le_of_lt (hord v l u hl hu) hx)
  rw [assertEqual, assertBoth, Model.entry_eq_ok hlt, ok_bind, crossing?_of_inside hnot,
    crossing?_of_beyond .lower hu hbeyond, hlower]
  rfl

/-- At a number below the lower bound a lower bound is passed over, and an equality and an upper
bound cross the one there is alike. -/
theorem assertEqual_of_below {l : Bound} (hl : s.model.boundOf .lower v = some l)
    (hx : x < l.value) (hord : s.model.Ordered) (reason : ConstraintId) :
    s.assertEqual v x reason = s.assertBoth v x reason := by
  have hbeyond := Side.beyond_lower_iff.mpr hx
  have hupper : s.assertUpper v x reason = .ok (s, some (.of [reason, l.reason])) :=
    assertBound_of_beyond hlt .upper hl hbeyond reason
  have hnot : ∀ u, s.model.boundOf .upper v = some u → Side.upper.Inside u.value x :=
    fun u hu => le_of_lt (lt_of_lt_of_le hx (hord v l u hl hu))
  have hlower : s.assertLower v x reason = .ok (s, none) := by
    have hinside : Side.lower.Inside x l.value := le_of_lt hx
    have hpassed :
        (s.model.boundOf .lower v).any (fun b => !Side.lower.beyond x b.value) = true := by
      rw [hl, Option.any_some, Side.beyond_eq_false_iff.mpr hinside]
      rfl
    rw [assertLower, assertBound, Model.entry_eq_ok hlt, ok_bind, crossing?_of_inside hnot]
    exact if_pos hpassed
  rw [assertEqual, assertBoth, Model.entry_eq_ok hlt, ok_bind,
    crossing?_of_beyond .upper hl hbeyond, hlower, ok_bind]
  exact hupper.symm

/-- The second bound, where the first one has been recorded at the same number. -/
theorem assertUpper_of_pinned {s₁ : Simplex} (hlt₁ : v.id < s₁.model.numVariables)
    (hin : ∀ side b, s.model.boundOf side v = some b → side.Inside b.value x)
    (reason : ConstraintId)
    (hbounds : s₁.model.boundOf = (pinning .lower v x reason s.model).boundOf)
    (hstuck : ∀ b, s.model.boundOf .upper v = some b → b.value = x →
      x < s₁.model.valueOf v → s₁.bring v x = .ok s₁) :
    s₁.assertUpper v x reason = do
      let s' := s₁.onModel (pinning .upper v x reason)
      return (← if x < s₁.model.valueOf v then s'.bring v x else pure s', none) := by
  have hupper : s₁.model.boundOf .upper v = s.model.boundOf .upper v := by
    rw [hbounds, boundOf_pinning hlt, if_neg fun h => nomatch h.2]
  have hin₁ : ∀ side b, s₁.model.boundOf side v = some b → side.Inside b.value x := by
    intro side b hb
    cases side with
    | lower =>
      rw [hbounds, boundOf_pinning hlt, if_pos ⟨rfl, rfl⟩] at hb
      rw [pinned_value hb]
      exact Side.inside_refl _ x
    | upper => exact hin .upper b (hupper ▸ hb)
  rw [assertUpper, assertBound_of_inside hlt₁ hin₁ reason .upper fun b hb hx hbeyond =>
    hstuck b (hupper ▸ hb) hx (Side.beyond_upper_iff.mp hbeyond)]
  simp only [Side.beyond_upper_iff]

/-- A number within the bounds: the variable is brought to it in the one step or in the other, and
the bounds are recorded in the same order. -/
theorem assertEqual_of_within (h : s.Grounded)
    (hin : ∀ side b, s.model.boundOf side v = some b → side.Inside b.value x) (hq : s.Queued)
    (reason : ConstraintId) : s.assertEqual v x reason = s.assertBoth v x reason := by
  let s₁ := s.onModel (pinning .lower v x reason)
  have hlt₁ : v.id < s₁.model.numVariables := by
    rwa [show s₁.model.numVariables = _ from numVariables_pinning _ _ _ _ _]
  have hvalue : s₁.model.valueOf v = s.model.valueOf v := by
    have hsame : s₁.model.value v = s.model.value v := (neutral_pinning _ _ _ _).value _ _
    rw [Model.value_eq_ok hlt₁, Model.value_eq_ok hlt] at hsame
    exact Except.ok.inj hsame
  have hstuck : ∀ (side : Side) (b : Bound), s.model.boundOf side v = some b → b.value = x →
      side.beyond x (s.model.valueOf v) = true → s.bring v x = .ok s := by
    intro side b hb hx hbeyond
    refine hq.bring_eq (fun hw => ?_) x
    rw [← hx, Side.beyond_eq_false_iff.mpr (hw side b hb)] at hbeyond
    exact Bool.false_ne_true hbeyond
  have hlower := assertBound_of_inside hlt hin reason .lower (hstuck .lower)
  rw [assertEqual_of_inside hlt hin reason, assertBoth, assertLower, hlower]
  simp only [Side.beyond_lower_iff]
  rcases lt_trichotomy (s.model.valueOf v) x with hlow | heq | hhigh
  · -- the lower bound brings the variable to the number, and then the upper one has nothing to do
    have h₁ : s₁.Grounded := h.congr rfl (numVariables_pinning _ _ _ _ _)
    obtain ⟨s₂, hok, hframe, _, hmoved⟩ := h₁.bring_frame hlt₁ x
    have hnot : ¬ x < s₂.model.valueOf v := by
      rcases hmoved with hmoved | hmoved
      · exact hmoved ▸ lt_irrefl x
      · rw [hmoved, hvalue]
        exact not_lt_of_gt hlow
    rw [if_pos hlow, if_pos (ne_of_lt hlow), hok, bring_onModel (neutral_pinning _ _ _ _), hok]
    simp only [ok_bind, map_ok, pure_eq_ok]
    rw [assertUpper_of_pinned hlt (hframe.room ▸ hlt₁) hin reason hframe.bounds
      fun _ _ _ hx => absurd hx hnot, if_neg hnot]
    rfl
  · -- the variable is at the number
    rw [if_neg (not_not.mpr heq), if_neg (not_lt_of_ge (ge_of_eq heq))]
    simp only [ok_bind, pure_eq_ok]
    have hnot : ¬ x < s₁.model.valueOf v := by
      rw [hvalue, heq]
      exact lt_irrefl x
    rw [assertUpper_of_pinned hlt hlt₁ hin reason rfl fun _ _ _ hx => absurd hx hnot, if_neg hnot]
    rfl
  · -- the upper bound brings the variable to the number
    rw [if_neg (not_lt_of_gt hhigh), if_pos (ne_of_gt hhigh)]
    simp only [ok_bind, pure_eq_ok]
    have hstay : ∀ b, s.model.boundOf .upper v = some b → b.value = x →
        x < s₁.model.valueOf v → s₁.bring v x = .ok s₁ := by
      intro b hb hx hbeyond
      rw [hvalue] at hbeyond
      rw [bring_onModel (neutral_pinning _ _ _ _),
        hstuck .upper b hb hx (Side.beyond_upper_iff.mpr hbeyond)]
      rfl
    rw [assertUpper_of_pinned hlt hlt₁ hin reason rfl hstay, if_pos (hvalue ▸ hhigh)]
    rfl

end Both

/-- In order, with every violated variable basic and marked, an equality is a lower and then an
upper bound. -/
theorem Grounded.assertEqual_eq_assertBoth {s : Simplex} (h : s.Grounded)
    (hord : s.model.Ordered) (hq : s.Queued) {v : Var} (hlt : v.id < s.model.numVariables)
    (x : DeltaRat) (reason : ConstraintId) :
    s.assertEqual v x reason = s.assertBoth v x reason := by
  by_cases hu : ∃ u, s.model.boundOf .upper v = some u ∧ u.value < x
  · obtain ⟨u, hu, hx⟩ := hu
    exact assertEqual_of_above hlt hu hx hord reason
  by_cases hl : ∃ l, s.model.boundOf .lower v = some l ∧ x < l.value
  · obtain ⟨l, hl, hx⟩ := hl
    exact assertEqual_of_below hlt hl hx hord reason
  refine assertEqual_of_within hlt h (fun side b hb => ?_) hq reason
  cases side with
  | lower => exact le_of_not_gt fun hx => hl ⟨b, hb, hx⟩
  | upper => exact le_of_not_gt fun hx => hu ⟨b, hb, hx⟩

/-! ## Outcomes -/

/-- Asserting a bound has an outcome. -/
theorem Grounded.exists_assertBound {s : Simplex} (h : s.Grounded) (side : Side) {v : Var}
    (hlt : v.id < s.model.numVariables) (x : DeltaRat) (reason : ConstraintId) :
    ∃ s' conflict, s.assertBound side v x reason = .ok (s', conflict) ∧ s'.Grounded ∧
      v.id < s'.model.numVariables := by
  rw [assertBound, Model.entry_eq_ok hlt, ok_bind]
  cases crossing? (s.model.look v) side x reason with
  | some c => exact ⟨s, some c, rfl, h, hlt⟩
  | none =>
    dsimp only
    split
    · exact ⟨s, none, rfl, h, hlt⟩
    · rw [Model.setBound_eq_ok hlt, ok_bind]
      have hroom : (s.model.bounded side v ⟨x, reason⟩).numVariables = s.model.numVariables :=
        Model.numVariables_bounded _ _ _ _
      have h₁ : (s.onModel (Model.bounded side v ⟨x, reason⟩)).Grounded := h.congr rfl hroom
      split
      · obtain ⟨s', hok, hframe, htableau, _⟩ := h₁.bring_frame (hroom ▸ hlt) x
        exact ⟨s', none, congrArg (· >>= _) hok, h₁.congr htableau hframe.room,
          hframe.room ▸ hroom ▸ hlt⟩
      · exact ⟨_, none, rfl, h₁, hroom ▸ hlt⟩

/-- A bound that is in conflict leaves the state as it was. -/
theorem eq_of_assertBound {s s' : Simplex} {side : Side} {v : Var} {x : DeltaRat}
    {reason : ConstraintId} {c : Conflict}
    (h : s.assertBound side v x reason = .ok (s', some c)) : s' = s := by
  rw [assertBound] at h
  obtain ⟨e, _, h⟩ := bind_eq_ok.mp h
  split at h
  · exact (Prod.mk.inj (Except.ok.inj h)).1.symm
  · -- no conflict is reported from here on
    split at h
    · cases h
    obtain ⟨m, _, h⟩ := bind_eq_ok.mp h
    split at h
    · obtain ⟨s₂, _, h⟩ := bind_eq_ok.mp h
      cases h
    · cases h

/-- An equality that is in conflict leaves the state as it was. -/
theorem eq_of_assertEqual {s s' : Simplex} {v : Var} {x : DeltaRat} {reason : ConstraintId}
    {c : Conflict} (h : s.assertEqual v x reason = .ok (s', some c)) : s' = s := by
  rw [assertEqual] at h
  obtain ⟨e, _, h⟩ := bind_eq_ok.mp h
  split at h
  · exact (Prod.mk.inj (Except.ok.inj h)).1.symm
  · -- no conflict is reported from here on
    obtain ⟨m₁, _, h⟩ := bind_eq_ok.mp h
    obtain ⟨m₂, _, h⟩ := bind_eq_ok.mp h
    split at h
    · obtain ⟨s₂, _, h⟩ := bind_eq_ok.mp h
      cases h
    · cases h

/-- An equality has the outcome of a lower bound and then an upper bound, down to the last detail
of the state, and reports the conflict of the one that fails. Whatever fails leaves the state as it
was. -/
theorem assertEqual_two_bounds {s : Simplex} (h : s.Grounded) (hord : s.model.Ordered)
    (hnonbasic : ∀ v, s.tableau.isBasic v = false → s.model.Within v)
    (hmarked : ∀ v, s.tableau.isBasic v = true → ¬ s.model.Within v →
      s.suspects.contains v = true)
    {v : Var} (hlt : v.id < s.model.numVariables) (x : DeltaRat) (reason : ConstraintId) :
    ((∃ s₁ s₂, s.assertLower v x reason = .ok (s₁, none) ∧
        s₁.assertUpper v x reason = .ok (s₂, none) ∧ s.assertEqual v x reason = .ok (s₂, none)) ∨
      ∃ c, s.assertEqual v x reason = .ok (s, some c) ∧
        (s.assertLower v x reason = .ok (s, some c) ∨
          s.assertLower v x reason = .ok (s, none) ∧ s.assertUpper v x reason = .ok (s, some c))) ∧
    ∀ s' c, s.assertLower v x reason = .ok (s', some c) ∨
      s.assertUpper v x reason = .ok (s', some c) ∨
      s.assertEqual v x reason = .ok (s', some c) → s' = s := by
  constructor
  · have hboth := h.assertEqual_eq_assertBoth hord (queued_of_marked hnonbasic hmarked) hlt x reason
    obtain ⟨s₁, c₁, hlower, h₁, hlt₁⟩ := h.exists_assertBound .lower hlt x reason
    replace hlower : s.assertLower v x reason = .ok (s₁, c₁) := hlower
    rw [assertBoth, hlower, ok_bind] at hboth
    cases c₁ with
    | some c =>
      obtain rfl := eq_of_assertBound hlower
      exact .inr ⟨c, hboth, .inl hlower⟩
    | none =>
      obtain ⟨s₂, c₂, hupper, -⟩ := h₁.exists_assertBound .upper hlt₁ x reason
      replace hupper : s₁.assertUpper v x reason = .ok (s₂, c₂) := hupper
      replace hboth : s.assertEqual v x reason = s₁.assertUpper v x reason := hboth
      rw [hupper] at hboth
      cases c₂ with
      | none => exact .inl ⟨s₁, s₂, hlower, hupper, hboth⟩
      | some c =>
        obtain rfl := eq_of_assertBound hupper
        obtain rfl := eq_of_assertEqual hboth
        exact .inr ⟨c, hboth, .inr ⟨hlower, hupper⟩⟩
  · rintro s' c (hlower | hupper | hequal)
    · exact eq_of_assertBound hlower
    · exact eq_of_assertBound hupper
    · exact eq_of_assertEqual hequal

/-- A state with a bounded nonbasic variable and a basic one, its sum with another, that violates
its lower bound and is marked. -/
def underpaid : Simplex where
  tableau := ((({} : Tableau).addRow ⟨2⟩ [(⟨0⟩, 1), (⟨1⟩, 1)]).toOption).getD {}
  model :=
    { byVar := ⟨[{ value := .ofRat 2, lower := some ⟨.ofRat 2, ⟨0⟩⟩ }, {},
        { value := .ofRat 2, lower := some ⟨.ofRat 3, ⟨1⟩⟩ }]⟩ }
  suspects := (∅ : SortedSet Var).insert ⟨2⟩ ()
  blandThreshold := 0

theorem underpaid_two_bounds :
    (∃ s, underpaid.assertEqual ⟨0⟩ (.ofRat 5) ⟨2⟩ = .ok (s, none) ∧
      s.model.valueOf ⟨2⟩ = .ofRat 5) ∧
    ∃ s₁ s₂, underpaid.assertLower ⟨0⟩ (.ofRat 5) ⟨2⟩ = .ok (s₁, none) ∧
      s₁.assertUpper ⟨0⟩ (.ofRat 5) ⟨2⟩ = .ok (s₂, none) ∧
      underpaid.assertEqual ⟨0⟩ (.ofRat 5) ⟨2⟩ = .ok (s₂, none) := by
  have hgrounded : underpaid.Grounded :=
    Coherent.grounded ⟨by decide +kernel, by decide +kernel⟩
  have hordered : underpaid.model.Ordered
    | ⟨0⟩, l, u, _, hu | ⟨2⟩, l, u, _, hu => nomatch hu
    | ⟨1⟩, l, u, hl, _ | ⟨_ + 3⟩, l, u, hl, _ => nomatch hl
  have hbasic : underpaid.tableau.isBasic ⟨2⟩ = true := by decide +kernel
  have hnonbasic : ∀ v, underpaid.tableau.isBasic v = false → underpaid.model.Within v
    | ⟨0⟩, _ | ⟨1⟩, _ => Model.violation?_eq_none_iff.mp (by decide +kernel)
    | ⟨2⟩, h => absurd hbasic (by rw [h]; exact Bool.false_ne_true)
    | ⟨_ + 3⟩, _ => Model.violation?_eq_none_iff.mp rfl
  have hmarked : ∀ v, underpaid.tableau.isBasic v = true → ¬ underpaid.model.Within v →
      underpaid.suspects.contains v = true
    | ⟨2⟩, _, _ => rfl
    | ⟨0⟩, h, hv | ⟨1⟩, h, hv => absurd (Model.violation?_eq_none_iff.mp (by decide +kernel)) hv
    | ⟨_ + 3⟩, _, hv => absurd (Model.violation?_eq_none_iff.mp rfl) hv
  have hequal : (underpaid.assertEqual ⟨0⟩ (.ofRat 5) ⟨2⟩).map
      (fun p => (p.1.model.valueOf ⟨2⟩, p.2)) = .ok (.ofRat 5, none) := by
    decide +kernel
  have htwo := assertEqual_two_bounds hgrounded hordered hnonbasic hmarked (v := ⟨0⟩)
    (by decide) (.ofRat 5) ⟨2⟩
  rcases htwo.1 with ⟨s₁, s₂, hlower, hupper, hok⟩ | ⟨c, hok, -⟩
  · rw [hok] at hequal
    exact ⟨⟨s₂, hok, congrArg Prod.fst (Except.ok.inj hequal)⟩, s₁, s₂, hlower, hupper, hok⟩
  · rw [hok] at hequal
    cases hequal

end Simplex

end LinearArithmetic
