import LinearArithmetic.Model.ConcreteDelta
import LinearArithmetic.Proofs.SimplexBounds
import Mathlib.Algebra.Order.Field.Basic

/-!
# The concrete number for the infinitesimal

The number found for `δ` is positive and at most the default. With it, as with every smaller
positive number, a value that is within the bounds of its variable stays there, and a value that is
not excluded stays apart from the excluded one.
-/

namespace LinearArithmetic

namespace DeltaRat

theorem substitute_le_of_limit {a b : DeltaRat} (h : a ≤ b) {d : ℚ} (hd : 0 < d)
    (hlimit : ∀ q, a.orderLimit? b = some q → d ≤ q) : a.substitute d ≤ b.substitute d := by
  rw [substitute, substitute]
  rcases le_def.mp h with hlt | ⟨heq, hle⟩
  · rcases le_or_gt a.infinitesimal b.infinitesimal with hle | hgt
    · have := mul_le_mul_of_nonneg_left hle hd.le
      linarith
    · have hgap : 0 < b.standard - a.standard := sub_pos.mpr hlt
      have hlead : 0 < a.infinitesimal - b.infinitesimal := sub_pos.mpr hgt
      have hle := hlimit _ (by rw [orderLimit?, if_pos ⟨hgap, hlead⟩])
      rw [le_div_iff₀ hlead] at hle
      linarith
  · have := mul_le_mul_of_nonneg_left hle hd.le
    rw [heq]
    linarith

theorem substitute_ne_of_meeting {a b : DeltaRat} (h : a ≠ b) {d : ℚ} (hd : 0 < d)
    (hmeet : ∀ q, a.meeting? b = some q → d < q) : a.substitute d ≠ b.substitute d := by
  intro heq
  rw [substitute, substitute] at heq
  by_cases hlead : a.infinitesimal - b.infinitesimal = 0
  · have hinf : a.infinitesimal = b.infinitesimal := sub_eq_zero.mp hlead
    rw [hinf] at heq
    exact h (ext (add_right_cancel heq) hinf)
  · have hd' : d = (b.standard - a.standard) / (a.infinitesimal - b.infinitesimal) := by
      rw [eq_div_iff hlead]
      linarith
    refine (hmeet d ?_).ne rfl
    rw [meeting?]
    simp only [← hd']
    rw [if_pos ⟨hlead, hd⟩]

theorem orderLimit?_pos {a b : DeltaRat} {q : ℚ} (h : a.orderLimit? b = some q) : 0 < q := by
  rw [orderLimit?] at h
  split at h
  · rename_i hpos
    rw [← Option.some.inj h]
    exact div_pos hpos.1 hpos.2
  · cases h

theorem meeting?_pos {a b : DeltaRat} {q : ℚ} (h : a.meeting? b = some q) : 0 < q := by
  rw [meeting?] at h
  split at h
  · rename_i hpos
    rw [← Option.some.inj h]
    exact hpos.2
  · cases h

end DeltaRat

/-- The largest `δ` that keeps a value on the inner side of a limit, if there is one. -/
def Side.orderLimit? (side : Side) (limit x : DeltaRat) : Option ℚ :=
  match side with
  | lower => DeltaRat.orderLimit? limit x
  | upper => DeltaRat.orderLimit? x limit

theorem Side.orderLimit?_pos {side : Side} {limit x : DeltaRat} {q : ℚ}
    (h : side.orderLimit? limit x = some q) : 0 < q := by
  cases side with
  | lower => exact DeltaRat.orderLimit?_pos h
  | upper => exact DeltaRat.orderLimit?_pos h

namespace Model

theorem least_cons (q x : ℚ) (qs : List ℚ) :
    least q (x :: qs) = least (if x < q then x else q) qs := rfl

theorem least_le (q : ℚ) (qs : List ℚ) : least q qs ≤ q := by
  induction qs generalizing q with
  | nil => exact le_refl q
  | cons x qs ih =>
    rw [least_cons]
    refine (ih _).trans ?_
    split
    · rename_i hlt
      exact hlt.le
    · exact le_refl q

theorem least_le_of_mem (q : ℚ) {x : ℚ} {qs : List ℚ} (h : x ∈ qs) : least q qs ≤ x := by
  induction qs generalizing q with
  | nil => cases h
  | cons y qs ih =>
    rw [least_cons]
    rcases List.mem_cons.mp h with rfl | h
    · refine (least_le _ _).trans ?_
      split
      · exact le_refl x
      · rename_i hlt
        exact not_lt.mp hlt
    · exact ih _ h

theorem least_eq_or_mem (q : ℚ) (qs : List ℚ) : least q qs = q ∨ least q qs ∈ qs := by
  induction qs generalizing q with
  | nil => exact .inl rfl
  | cons x qs ih =>
    rw [least_cons]
    rcases ih (if x < q then x else q) with heq | hmem
    · rw [heq]
      split
      · exact .inr List.mem_cons_self
      · exact .inl rfl
    · exact .inr (List.mem_cons_of_mem x hmem)

theorem least_pos {q : ℚ} (hq : 0 < q) {qs : List ℚ} (h : ∀ x ∈ qs, 0 < x) : 0 < least q qs := by
  rcases least_eq_or_mem q qs with heq | hmem
  · rw [heq]
    exact hq
  · exact h _ hmem

/-- The order in which rationals are listed does not matter. -/
theorem least_congr (q : ℚ) {qs qs' : List ℚ} (h : ∀ x, x ∈ qs ↔ x ∈ qs') :
    least q qs = least q qs' := by
  have hle : ∀ {qs qs' : List ℚ}, (∀ x, x ∈ qs' → x ∈ qs) → least q qs ≤ least q qs' := by
    intro qs qs' hsub
    rcases least_eq_or_mem q qs' with heq | hmem
    · rw [heq]
      exact least_le q qs
    · exact least_le_of_mem q (hsub _ hmem)
  exact le_antisymm (hle fun x => (h x).mpr) (hle fun x => (h x).mp)

/-- The limits are those from the bounds of all variables. -/
theorem mem_limits_iff {m : Model} {q : ℚ} :
    q ∈ m.byVar.items.flatMap ModelEntry.deltaLimits ↔
      ∃ side v b, m.boundOf side v = some b ∧ side.orderLimit? b.value (m.valueOf v) = some q := by
  rw [List.mem_flatMap]
  constructor
  · rintro ⟨e, he, hq⟩
    obtain ⟨i, hi⟩ := List.mem_iff_getElem?.mp he
    have hlook : m.look ⟨i⟩ = e := by
      rw [look, show m.byVar.get? i = some e from hi]
      rfl
    rw [ModelEntry.deltaLimits, List.mem_append] at hq
    rcases hq with hq | hq
    · obtain ⟨b, hb, hlimit⟩ := Option.bind_eq_some_iff.mp (Option.mem_toList.mp hq)
      refine ⟨.lower, ⟨i⟩, b, ?_, ?_⟩
      · rw [boundOf, hlook]
        exact hb
      · rw [valueOf, hlook]
        exact hlimit
    · obtain ⟨b, hb, hlimit⟩ := Option.bind_eq_some_iff.mp (Option.mem_toList.mp hq)
      refine ⟨.upper, ⟨i⟩, b, ?_, ?_⟩
      · rw [boundOf, hlook]
        exact hb
      · rw [valueOf, hlook]
        exact hlimit
  · rintro ⟨side, v, b, hb, hq⟩
    have hlt : v.id < m.numVariables := by
      by_contra hge
      rw [boundOf, look_of_ge (not_lt.mp hge)] at hb
      cases side <;> cases hb
    have hmem : m.look v ∈ m.byVar.items := by
      obtain ⟨e, he⟩ := Arena.get?_isSome hlt
      rw [look, he]
      exact List.mem_of_getElem? he
    refine ⟨m.look v, hmem, ?_⟩
    rw [ModelEntry.deltaLimits, List.mem_append]
    cases side with
    | lower =>
      have hlower : (m.look v).lower = some b := hb
      exact .inl (Option.mem_toList.mpr (by rw [hlower]; exact hq))
    | upper =>
      have hupper : (m.look v).upper = some b := hb
      exact .inr (Option.mem_toList.mpr (by rw [hupper]; exact hq))

/-- A positive number that passes no limit from a bound and reaches no excluded value. -/
structure Suits (m : Model) (excluded : List (Var × DeltaRat)) (d : ℚ) : Prop where
  pos : 0 < d
  limit : ∀ q ∈ m.byVar.items.flatMap ModelEntry.deltaLimits, d ≤ q
  meeting : ∀ e ∈ excluded, ∀ q, (m.valueOf e.1).meeting? e.2 = some q → d < q

section Suits

variable {m : Model} {excluded : List (Var × DeltaRat)} {d : ℚ} (h : m.Suits excluded d)

include h

/-- All smaller positive numbers will do as well. -/
theorem Suits.mono {ε : ℚ} (hpos : 0 < ε) (hle : ε ≤ d) : m.Suits excluded ε where
  pos := hpos
  limit q hq := hle.trans (h.limit q hq)
  meeting e he q hq := hle.trans_lt (h.meeting e he q hq)

/-- What is inside a bound stays inside. -/
theorem Suits.inside {side : Side} {v : Var} {b : Bound} (hb : m.boundOf side v = some b)
    (hin : side.Inside b.value (m.valueOf v)) :
    side.Inside (.ofRat (b.value.substitute d)) (.ofRat ((m.valueOf v).substitute d)) := by
  have hlimit : ∀ q, side.orderLimit? b.value (m.valueOf v) = some q → d ≤ q := fun q hq =>
    h.limit q (mem_limits_iff.mpr ⟨side, v, b, hb, hq⟩)
  cases side with
  | lower => exact DeltaRat.ofRat_le_ofRat.mpr (DeltaRat.substitute_le_of_limit hin h.pos hlimit)
  | upper => exact DeltaRat.ofRat_le_ofRat.mpr (DeltaRat.substitute_le_of_limit hin h.pos hlimit)

theorem Suits.apart {e : Var × DeltaRat} (he : e ∈ excluded) (hne : m.valueOf e.1 ≠ e.2) :
    (m.valueOf e.1).substitute d ≠ e.2.substitute d :=
  DeltaRat.substitute_ne_of_meeting hne h.pos (h.meeting e he)

end Suits

/-- The number found for `δ`: the least of the default, the limits from the bounds and the halves
of the numbers at which an excluded value is met. -/
def smallDelta (m : Model) (default : ℚ) (excluded : List (Var × DeltaRat)) : ℚ :=
  least (least default (m.byVar.items.flatMap ModelEntry.deltaLimits))
    ((excluded.filterMap fun e => (m.valueOf e.1).meeting? e.2).map (· / 2))

theorem smallDelta_le (m : Model) (default : ℚ) (excluded : List (Var × DeltaRat)) :
    m.smallDelta default excluded ≤ default :=
  (least_le _ _).trans (least_le _ _)

theorem suits_smallDelta (m : Model) {default : ℚ} (hd : 0 < default)
    (excluded : List (Var × DeltaRat)) : m.Suits excluded (m.smallDelta default excluded) where
  pos := by
    refine least_pos (least_pos hd fun q hq => ?_) fun q hq => ?_
    · obtain ⟨_, _, _, _, hlimit⟩ := mem_limits_iff.mp hq
      exact Side.orderLimit?_pos hlimit
    · obtain ⟨p, hp, rfl⟩ := List.mem_map.mp hq
      obtain ⟨e, _, he⟩ := List.mem_filterMap.mp hp
      exact half_pos (DeltaRat.meeting?_pos he)
  limit q hq := (least_le _ _).trans (least_le_of_mem _ hq)
  meeting e he q hq := by
    have hmem : q / 2 ∈ (excluded.filterMap fun e => (m.valueOf e.1).meeting? e.2).map (· / 2) :=
      List.mem_map.mpr ⟨q, List.mem_filterMap.mpr ⟨e, he, hq⟩, rfl⟩
    exact (least_le_of_mem _ hmem).trans_lt (half_lt_self (DeltaRat.meeting?_pos hq))

/-- The number found depends on the bounds, the values of the variables with a bound, and those for
which a value is excluded. -/
theorem smallDelta_congr {m m' : Model} (default : ℚ) {excluded : List (Var × DeltaRat)}
    (hbounds : m'.boundOf = m.boundOf)
    (hbounded : ∀ side v b, m.boundOf side v = some b → m'.valueOf v = m.valueOf v)
    (hexcluded : ∀ e ∈ excluded, m'.valueOf e.1 = m.valueOf e.1) :
    m'.smallDelta default excluded = m.smallDelta default excluded := by
  have hlimits : ∀ q, q ∈ m'.byVar.items.flatMap ModelEntry.deltaLimits ↔
      q ∈ m.byVar.items.flatMap ModelEntry.deltaLimits := by
    intro q
    rw [mem_limits_iff, mem_limits_iff, hbounds]
    refine exists_congr fun side => exists_congr fun v => exists_congr fun b =>
      and_congr_right fun hb => ?_
    rw [hbounded side v b hb]
  have hmeetings : excluded.filterMap (fun e => (m'.valueOf e.1).meeting? e.2) =
      excluded.filterMap fun e => (m.valueOf e.1).meeting? e.2 :=
    List.filterMap_congr fun e he => by rw [hexcluded e he]
  rw [smallDelta, smallDelta, least_congr default hlimits, hmeetings]

theorem concreteDelta_eq_ok {m : Model} {default : ℚ} (hd : 0 < default)
    {excluded : List (Var × DeltaRat)} (hex : ∀ e ∈ excluded, e.1.id < m.numVariables) :
    m.concreteDelta default excluded = .ok (m.smallDelta default excluded) := by
  rw [concreteDelta, Checked.filterMapM_eq_ok (g := fun e => (m.valueOf e.1).meeting? e.2)
    fun e he => by simp only [value_eq_ok (hex e he), ok_bind, pure_eq_ok]]
  simp only [ok_bind]
  exact if_pos (suits_smallDelta m hd excluded).pos

/-- A number is found only if all excluded values are for variables of the model. -/
theorem lt_numVariables_of_concreteDelta {m : Model} {default d : ℚ}
    {excluded : List (Var × DeltaRat)} (h : m.concreteDelta default excluded = .ok d) :
    ∀ e ∈ excluded, e.1.id < m.numVariables := by
  intro e he
  obtain ⟨meetings, hmeetings, _⟩ := bind_eq_ok.mp h
  obtain ⟨o, ho⟩ := Checked.exists_ok_of_filterMapM hmeetings e he
  obtain ⟨x, hx, _⟩ := bind_eq_ok.mp ho
  exact lt_of_value hx

/-- What the number found for `δ` keeps. -/
structure Separates (m : Model) (excluded : List (Var × DeltaRat)) (d : ℚ) : Prop where
  pos : 0 < d
  inside : ∀ side v b, m.boundOf side v = some b →
    side.Inside (.ofRat (b.value.substitute d)) (.ofRat ((m.valueOf v).substitute d))
  apart : ∀ e ∈ excluded, m.valueOf e.1 ≠ e.2 →
    (m.valueOf e.1).substitute d ≠ e.2.substitute d

theorem separates_smallDelta {m : Model} (hin : ∀ u, m.Within u) {default : ℚ} (hd : 0 < default)
    (excluded : List (Var × DeltaRat)) :
    m.Separates excluded (m.smallDelta default excluded) := by
  have hsuits := suits_smallDelta m hd excluded
  exact ⟨hsuits.pos, fun side v b hb => hsuits.inside hb (hin v side b hb),
    fun e he hne => hsuits.apart he hne⟩

/-! ## Every number up to the one found -/

/-- With `ε` for `δ`, the value of a variable lies between its bounds, and beyond the standard part
of a strict one. -/
structure Between (m : Model) (v : Var) (ε : ℚ) : Prop where
  lower : ∀ b, m.boundOf .lower v = some b → b.value.substitute ε ≤ (m.valueOf v).substitute ε
  upper : ∀ b, m.boundOf .upper v = some b → (m.valueOf v).substitute ε ≤ b.value.substitute ε
  strict_lower : ∀ b, m.boundOf .lower v = some b → 0 < b.value.infinitesimal →
    b.value.standard < (m.valueOf v).substitute ε
  strict_upper : ∀ b, m.boundOf .upper v = some b → b.value.infinitesimal < 0 →
    (m.valueOf v).substitute ε < b.value.standard

theorem Suits.between {m : Model} {excluded : List (Var × DeltaRat)} {ε : ℚ}
    (h : m.Suits excluded ε) {v : Var} (hin : m.Within v) : m.Between v ε := by
  have hlower : ∀ b, m.boundOf .lower v = some b →
      b.value.substitute ε ≤ (m.valueOf v).substitute ε := fun b hb =>
    DeltaRat.ofRat_le_ofRat.mp (h.inside hb (hin .lower b hb))
  have hupper : ∀ b, m.boundOf .upper v = some b →
      (m.valueOf v).substitute ε ≤ b.value.substitute ε := fun b hb =>
    DeltaRat.ofRat_le_ofRat.mp (h.inside hb (hin .upper b hb))
  refine ⟨hlower, hupper, fun b hb hstrict => ?_, fun b hb hstrict => ?_⟩
  · refine lt_of_lt_of_le ?_ (hlower b hb)
    exact lt_add_of_pos_right _ (mul_pos h.pos hstrict)
  · refine lt_of_le_of_lt (hupper b hb) ?_
    exact add_lt_of_neg_right _ (mul_neg_of_pos_of_neg h.pos hstrict)

/-- A number is found whenever the excluded values are for variables of the model. With every
positive number up to the one found, what is between its bounds or apart from an excluded value
stays so. -/
theorem concreteDelta_keeps_comparisons (m : Model) {default : ℚ} (hd : 0 < default)
    (excluded : List (Var × DeltaRat)) :
    ((∃ d, m.concreteDelta default excluded = .ok d) ↔
      ∀ e ∈ excluded, e.1.id < m.numVariables) ∧
    ∀ d, m.concreteDelta default excluded = .ok d → 0 < d ∧ d ≤ default ∧
      ∀ ε, 0 < ε → ε ≤ d →
        (∀ v, m.Within v → m.Between v ε) ∧
        ∀ e ∈ excluded, m.valueOf e.1 ≠ e.2 → (m.valueOf e.1).substitute ε ≠ e.2.substitute ε := by
  refine ⟨⟨fun ⟨d, h⟩ => lt_numVariables_of_concreteDelta h, fun hex => ⟨_,
    concreteDelta_eq_ok hd hex⟩⟩, fun d h => ?_⟩
  have hfound := concreteDelta_eq_ok hd (lt_numVariables_of_concreteDelta h)
  obtain rfl : m.smallDelta default excluded = d := Except.ok.inj (hfound.symm.trans h)
  have hsuits := suits_smallDelta m hd excluded
  refine ⟨hsuits.pos, m.smallDelta_le default excluded, fun ε hpos hle => ?_⟩
  have hε := hsuits.mono hpos hle
  exact ⟨fun v hin => hε.between hin, fun e he hne => hε.apart he hne⟩

/-- A variable at `δ`, above `-1 + 4δ` and below `2`, that must not be `1/2`: the lower bound asks
for at most `1/3`, and half the way to the excluded value is `1/4`. -/
def besideHalf : Model where
  byVar := ⟨[{ value := ⟨0, 1⟩, lower := some ⟨⟨-1, 4⟩, ⟨0⟩⟩, upper := some ⟨⟨2, 0⟩, ⟨1⟩⟩ }]⟩

theorem besideHalf_keeps_comparisons :
    besideHalf.concreteDelta 1 [(⟨0⟩, ⟨1 / 2, 0⟩)] = .ok (1 / 4) ∧
    ∀ ε : ℚ, 0 < ε → ε ≤ 1 / 4 → besideHalf.Between ⟨0⟩ ε ∧ ε ≠ 1 / 2 := by
  have hfound : besideHalf.concreteDelta 1 [(⟨0⟩, ⟨1 / 2, 0⟩)] = .ok (1 / 4) := by decide +kernel
  obtain ⟨_, _, hkeeps⟩ :=
    (concreteDelta_keeps_comparisons besideHalf one_pos [(⟨0⟩, ⟨1 / 2, 0⟩)]).2 _ hfound
  refine ⟨hfound, fun ε hpos hle => ?_⟩
  obtain ⟨hbetween, hapart⟩ := hkeeps ε hpos hle
  refine ⟨hbetween ⟨0⟩ (violation?_eq_none_iff.mp (by decide +kernel)), fun heq => ?_⟩
  refine hapart _ List.mem_cons_self (by decide +kernel) ?_
  rw [heq]
  decide +kernel

end Model

end LinearArithmetic
