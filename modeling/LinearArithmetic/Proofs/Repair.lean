import LinearArithmetic.Proofs.SimplexBounds
import LinearArithmetic.Simplex.Repair

/-!
# The repair loop

A pivot of the repair moves one variable and exchanges it with a basic one, so the values keep
solving a tableau with the same solutions. If the repair ends without a conflict, no marked
variable violates a bound. If it ends with one, it has found a row none of whose variables can
move.
-/

namespace LinearArithmetic.Simplex

/-! ## Choosing variables -/

/-- The filter of the marks leaves the basic variables that violate a bound. -/
theorem violatedSuspects_spec {s : Simplex} (h : s.Grounded) :
    ∃ marks, s.violatedSuspects = .ok marks ∧ ∀ u, marks.contains u = true ↔
      s.suspects.contains u = true ∧ (∃ r, s.tableau.row? u = some r) ∧ ¬ s.model.Within u := by
  let p : Var → Bool := fun v => s.tableau.isBasic v && (s.model.look v).violation?.isSome
  have hfilter : s.suspects.keys.filterM (fun v => do
      if s.tableau.isBasic v then return (← s.model.violation? v).isSome else return false) =
        .ok (s.suspects.keys.filter p) :=
    Checked.filterM_eq_ok fun v _ => by
      by_cases hv : s.tableau.isBasic v = true
      · obtain ⟨r, hr⟩ := Tableau.isBasic_iff.mp hv
        rw [if_pos hv, Model.violation?_eq_ok (h.lt_of_mentions (.inl ⟨r, hr⟩))]
        simp [p, hv]
      · simp [p, hv]
  refine ⟨_, by rw [violatedSuspects, hfilter]; rfl, fun u => ?_⟩
  rw [SortedMap.mem_filter_keys_iff, List.contains_iff_mem, List.mem_filter, SortedMap.mem_keys_iff]
  have hp : p u = true ↔ (∃ r, s.tableau.row? u = some r) ∧ ¬ s.model.Within u := by
    simp only [p, Bool.and_eq_true, Tableau.isBasic_iff, ← Model.violation?_eq_none_iff,
      Option.isSome_iff_ne_none, ne_eq]
  rw [hp]
  constructor
  · rintro ⟨hu, -, hb⟩
    exact ⟨hu, hb⟩
  · rintro ⟨hu, hb⟩
    exact ⟨hu, hu, hb⟩

/-- The variable that is repaired next is marked, if any is; under Bland's rule it is the smallest
of them. -/
theorem leaving?_spec {s : Simplex} (bland : Bool)
    (hbasic : ∀ u, s.suspects.contains u = true → ∃ r, s.tableau.row? u = some r) :
    (s.leaving? bland = .ok none ∧ ∀ u, ¬ s.suspects.contains u = true) ∨
      ∃ b, s.leaving? bland = .ok (some b) ∧ s.suspects.contains b = true ∧
        (bland = true → ∀ u, s.suspects.contains u = true → b.id ≤ u.id) := by
  have hkeys : ∀ o : Option Var, (o = none → s.suspects.keys = []) →
      (∀ b, o = some b → b ∈ s.suspects.keys ∧
        (bland = true → ∀ u ∈ s.suspects.keys, b.id ≤ u.id)) →
      (Except.ok o = (.ok none : Checked (Option Var)) ∧ ∀ u, ¬ s.suspects.contains u = true) ∨
        ∃ b, Except.ok o = (.ok (some b) : Checked (Option Var)) ∧
          s.suspects.contains b = true ∧
          (bland = true → ∀ u, s.suspects.contains u = true → b.id ≤ u.id) := by
    intro o hnone hsome
    cases ho : o with
    | none =>
      refine .inl ⟨rfl, fun u hu => ?_⟩
      rw [← SortedMap.mem_keys_iff, hnone ho] at hu
      exact List.not_mem_nil hu
    | some b =>
      obtain ⟨hb, hleast⟩ := hsome b ho
      exact .inr ⟨b, rfl, SortedMap.mem_keys_iff.mp hb,
        fun h u hu => hleast h u (SortedMap.mem_keys_iff.mpr hu)⟩
  have hhead := hkeys s.suspects.keys.head? List.head?_eq_none_iff.mp fun b hb =>
    ⟨List.mem_of_head? hb, fun _ u hu => by
      obtain ⟨rest, hrest⟩ := List.head?_eq_some_iff.mp hb
      have hsorted := s.suspects.sorted_keys
      rw [hrest] at hsorted hu
      rcases List.mem_cons.mp hu with rfl | hu
      · exact Nat.le_refl _
      · exact Nat.le_of_lt ((List.pairwise_cons.mp hsorted).1 u hu)⟩
  rw [leaving?]
  cases bland with
  | true => exact hhead
  | false =>
    have hother : ∀ {b : Var}, b ∈ s.suspects.keys → b ∈ s.suspects.keys ∧
        (false = true → ∀ u ∈ s.suspects.keys, b.id ≤ u.id) :=
      fun hb => ⟨hb, fun h => absurd h Bool.false_ne_true⟩
    rw [if_neg Bool.false_ne_true]
    split
    · exact hhead
    · exact hkeys _ List.getLast?_eq_none_iff.mp fun b hb => hother (List.mem_of_getLast? hb)
    · rcases s.tableau.shortest_spec s.suspects.keys (fun v hv =>
        hbasic v (SortedMap.mem_keys_iff.mp hv)) with ⟨hnil, hok⟩ | ⟨b, hb, hok, -⟩
      · rw [hok]
        exact hkeys none (fun _ => hnil) fun b hb => by cases hb
      · rw [hok]
        exact hkeys (some b) (fun h => by cases h) fun b' hb' =>
          hother (Option.some.inj hb' ▸ hb)

/-! ## Free and blocked variables -/

/-- A bound that keeps the variable from moving. -/
theorem blocking?_eq_some {m : Model} {v : Var} {violated : Side} {c : ℚ} {b : Bound}
    (h : blocking? violated (m.look v) c = some b) :
    m.boundOf (moveSide violated c) v = some b ∧
      (moveSide violated c).opposite.Inside b.value (m.valueOf v) := by
  obtain ⟨hb, hin⟩ := Option.filter_eq_some_iff.mp h
  refine ⟨hb, Side.beyond_eq_false_iff.mp ?_⟩
  simpa [Model.valueOf] using hin

/-- A variable that is free to move has room on the side it has to move to. -/
theorem blocking?_eq_none {m : Model} {v : Var} {violated : Side} {c : ℚ}
    (h : blocking? violated (m.look v) c = none) {b : Bound}
    (hb : m.boundOf (moveSide violated c) v = some b) :
    (moveSide violated c).opposite.beyond b.value (m.valueOf v) = true := by
  have := Option.filter_eq_none_iff.mp h b hb
  simpa [Model.valueOf] using this

/-- If every term of a row is at most its counterpart in the direction of a side, so is the row. -/
theorem inside_eval {side : Side} {r : Row} {σ τ : Var → DeltaRat}
    (h : ∀ e ∈ r.entries, side.Inside (e.2 • σ e.1) (e.2 • τ e.1)) :
    side.Inside (r.eval σ) (r.eval τ) := by
  rw [Row.eval_eq_sum, Row.eval_eq_sum]
  cases side with
  | lower => exact List.sum_le_sum h
  | upper => exact List.sum_le_sum h

/-- A value within the bound that blocks a variable does not help the row. -/
theorem inside_smul {side : Side} {c : ℚ} (hc : c ≠ 0) {x y z : DeltaRat}
    (hin : (moveSide side c).Inside x z)
    (hblock : (moveSide side c).opposite.Inside x y) : side.Inside (c • z) (c • y) := by
  rcases lt_or_gt_of_ne hc with hneg | hpos
  · rw [moveSide, if_neg (not_lt.mpr hneg.le)] at hin hblock
    cases side with
    | lower => exact DeltaRat.smul_le_smul_of_neg hneg (le_trans (hblock : y ≤ x) hin)
    | upper => exact DeltaRat.smul_le_smul_of_neg hneg (le_trans (hin : z ≤ x) hblock)
  · rw [moveSide, if_pos hpos] at hin hblock
    cases side with
    | lower => exact smul_le_smul_of_nonneg_left (le_trans (hin : z ≤ x) hblock) hpos.le
    | upper => exact smul_le_smul_of_nonneg_left (le_trans (hblock : y ≤ x) hin) hpos.le

theorem firstFree?_eq_ok {m : Model} {violated : Side} {l : List (Var × ℚ)}
    (h : ∀ e ∈ l, e.1.id < m.numVariables) :
    firstFree? m violated l =
      .ok ((l.find? fun e => (blocking? violated (m.look e.1) e.2).isNone).map Prod.fst) := by
  induction l with
  | nil => rfl
  | cons e rest ih =>
    rw [firstFree?, Model.entry_eq_ok (h e List.mem_cons_self), ok_bind, List.find?_cons]
    cases hb : (blocking? violated (m.look e.1) e.2).isNone with
    | true => simp
    | false => simpa [hb] using ih fun d hd => h d (List.mem_cons_of_mem e hd)

theorem allFree_eq_ok {m : Model} {violated : Side} {l : List (Var × ℚ)}
    (h : ∀ e ∈ l, e.1.id < m.numVariables) :
    allFree m violated l = .ok (l.filterMap fun e =>
      if (blocking? violated (m.look e.1) e.2).isNone then some e.1 else none) :=
  Checked.filterMapM_eq_ok fun e he => by
    obtain ⟨v, c⟩ := e
    simp only [Model.entry_eq_ok (h (v, c) he)]
    rfl

/-- Under Bland's rule the smallest variable that is free to move enters; if there is none, all are
blocked. -/
theorem entering?_of_bland {s : Simplex} (violated : Side) {r : Row}
    (h : ∀ e ∈ r.entries, e.1.id < s.model.numVariables) :
    (s.entering? violated r true = .ok none ∧
      ∀ e ∈ r.entries, ∃ b, blocking? violated (s.model.look e.1) e.2 = some b) ∨
    ∃ e ∈ r.entries, s.entering? violated r true = .ok (some e.1) ∧
      blocking? violated (s.model.look e.1) e.2 = none ∧
      ∀ f ∈ r.entries, f.1.id < e.1.id →
        ∃ b, blocking? violated (s.model.look f.1) f.2 = some b := by
  rw [entering?, if_pos rfl, firstFree?_eq_ok h]
  cases hfind : r.entries.find? fun e => (blocking? violated (s.model.look e.1) e.2).isNone with
  | none =>
    refine .inl ⟨rfl, fun e he => ?_⟩
    have hblocked := List.find?_eq_none.mp hfind e he
    exact Option.ne_none_iff_exists'.mp (by simpa using hblocked)
  | some e =>
    obtain ⟨hfree, before, after, happend, hblocked⟩ := List.find?_eq_some_iff_append.mp hfind
    refine .inr ⟨e, List.mem_of_find?_eq_some hfind, rfl, by simpa using hfree,
      fun f hf hlt => ?_⟩
    -- the entries are sorted, so a smaller one stands before the first that is free
    have hsorted := r.coefficients.sorted
    rw [show r.coefficients.entries = r.entries from rfl, happend] at hsorted
    rw [happend] at hf
    rcases List.mem_append.mp hf with hf | hf
    · have hf' := hblocked f hf
      exact Option.isSome_iff_exists.mp (by simpa using hf')
    · rcases List.mem_cons.mp hf with rfl | hf
      · exact absurd hlt (Nat.lt_irrefl _)
      · have hgt := (List.pairwise_cons.mp (List.pairwise_append.mp hsorted).2.1).1 f hf
        exact absurd hlt (Nat.lt_asymm hgt)

/-- Without Bland's rule some variable that is free to move enters; if there is none, all are
blocked. -/
theorem entering?_of_shortest {s : Simplex} (violated : Side) {r : Row}
    (h : ∀ e ∈ r.entries, e.1.id < s.model.numVariables) :
    (s.entering? violated r false = .ok none ∧
      ∀ e ∈ r.entries, ∃ b, blocking? violated (s.model.look e.1) e.2 = some b) ∨
    ∃ e ∈ r.entries, s.entering? violated r false = .ok (some e.1) ∧
      blocking? violated (s.model.look e.1) e.2 = none := by
  rw [entering?, if_neg Bool.false_ne_true, allFree_eq_ok h, ok_bind]
  cases hfree : r.entries.filterMap fun e =>
      if (blocking? violated (s.model.look e.1) e.2).isNone then some e.1 else none with
  | nil =>
    refine .inl ⟨rfl, fun e he => ?_⟩
    have hblocked := List.filterMap_eq_nil_iff.mp hfree e he
    refine Option.ne_none_iff_exists'.mp fun hnone => ?_
    simp [hnone] at hblocked
  | cons c cs =>
    have hmem := Tableau.foldl_shorter_mem (s.tableau.columnSize c, c)
      (cs.map fun v => (s.tableau.columnSize v, v))
    rw [← List.map_cons (f := fun v => (s.tableau.columnSize v, v))] at hmem
    obtain ⟨u, hu, heq⟩ := List.mem_map.mp hmem
    rw [← hfree] at hu
    obtain ⟨e, he, hopt⟩ := List.mem_filterMap.mp hu
    split at hopt
    · rename_i hnone
      refine .inr ⟨e, he, ?_, by simpa using hnone⟩
      rw [List.map_cons]
      simp only [pure_eq_ok]
      rw [← heq, Option.some.inj hopt]
    · cases hopt

/-- The entering variable is one that is free to move, under Bland's rule the smallest; if there is
none, all are blocked. -/
theorem entering?_spec {s : Simplex} (violated : Side) {r : Row} (bland : Bool)
    (h : ∀ e ∈ r.entries, e.1.id < s.model.numVariables) :
    (s.entering? violated r bland = .ok none ∧
      ∀ e ∈ r.entries, ∃ b, blocking? violated (s.model.look e.1) e.2 = some b) ∨
    ∃ e ∈ r.entries, s.entering? violated r bland = .ok (some e.1) ∧
      blocking? violated (s.model.look e.1) e.2 = none ∧
      (bland = true → ∀ f ∈ r.entries, f.1.id < e.1.id →
        ∃ b, blocking? violated (s.model.look f.1) f.2 = some b) := by
  cases bland with
  | true =>
    refine (entering?_of_bland violated h).imp_right ?_
    rintro ⟨e, he, henter, hfree, hfirst⟩
    exact ⟨e, he, henter, hfree, fun _ => hfirst⟩
  | false =>
    refine (entering?_of_shortest violated h).imp_right ?_
    rintro ⟨e, he, henter, hfree⟩
    exact ⟨e, he, henter, hfree, fun hb => absurd hb Bool.false_ne_true⟩

/-! ## One pivot -/

/-- A tableau that says the same of the same variables. -/
structure Rebased (t t' : Tableau) : Prop where
  room : t'.numVariables = t.numVariables
  ejected : t'.ejected = t.ejected
  mentions : ∀ u, t'.Mentions u → t.Mentions u
  solves_iff : ∀ (M : Type) [AddCommGroup M] [Module ℚ M] (σ : Var → M),
    t'.Solves σ ↔ t.Solves σ

theorem Rebased.refl (t : Tableau) : Rebased t t :=
  ⟨rfl, rfl, fun _ h => h, fun _ _ _ _ => Iff.rfl⟩

theorem Rebased.trans {t₁ t₂ t₃ : Tableau} (h : Rebased t₁ t₂) (k : Rebased t₂ t₃) :
    Rebased t₁ t₃ where
  room := k.room.trans h.room
  ejected := k.ejected.trans h.ejected
  mentions u hu := h.mentions u (k.mentions u hu)
  solves_iff M _ _ σ := (k.solves_iff M σ).trans (h.solves_iff M σ)

/-- Taking the leaving variable `b` to its value and the entering variable `e` by a step, and then
shifting the rest of the column, is the same as moving the entering variable. -/
theorem shift_of_leaving {t : Tableau} (h : t.Consistent) {b e : Var} {r : Row} {c : ℚ}
    (hr : t.row? b = some r) (hc : r.coefficient? e = some c) (σ : Var → DeltaRat)
    {step x : DeltaRat} (hx : σ b + c • step = x) (u : Var) :
    (if u ∈ (t.column e).filter (· ≠ b) then
        t.shift (Function.update (Function.update σ b x) e (σ e + step)) e step u
      else Function.update (Function.update σ b x) e (σ e + step) u) = t.shift σ e step u := by
  have henone : t.row? e = none := h.nonbasic hr (by simp [Row.contains, hc])
  have heb : e ≠ b := by
    rintro rfl
    rw [hr] at henone
    cases henone
  by_cases hub : u = b
  · subst hub
    rw [if_neg (by simp), Function.update_of_ne heb.symm, Function.update_self,
      Tableau.shift_of_row hr, Row.coefficient_eq_of_some hc, hx]
  · by_cases hue : u = e
    · subst hue
      rw [if_neg (fun hu => by
          obtain ⟨q, hq⟩ := h.exists_row_of_mem_column (List.mem_filter.mp hu).1
          rw [henone] at hq
          cases hq),
        Function.update_self, Tableau.shift_of_none henone, if_pos rfl]
    · have hsame : Function.update (Function.update σ b x) e (σ e + step) u = σ u := by
        rw [Function.update_of_ne hue, Function.update_of_ne hub]
      split
      · exact t.shift_congr hsame e step
      · rename_i hu
        rw [hsame, h.shift_of_not_mem (fun hmem => hu (List.mem_filter.mpr
          ⟨hmem, by simpa using hub⟩)) hue]

/-- The leaving variable `b` has been taken to a value by moving the entering variable `e`. -/
structure Carried (b e : Var) (step : DeltaRat) (s s' : Simplex) : Prop where
  frame : Frame s s'
  tableau : s'.tableau = s.tableau
  values : s'.model.valueOf = s.tableau.shift s.model.valueOf e step
  saved : ∀ u, ¬ s.tableau.Mentions u → s'.model.savedOf u = s.model.savedOf u
  suspects : ∀ u, s.suspects.contains u = true → s'.suspects.contains u = true
  marked : ∀ u, u ≠ b → u ≠ e → s'.model.valueOf u ≠ s.model.valueOf u →
    s'.suspects.contains u = true

/-- Before the tableau is pivoted, the values are those of a move of the entering variable. -/
theorem exists_carried {s : Simplex} (h : s.Grounded) {b e : Var} {r : Row} {c : ℚ}
    (hr : s.tableau.row? b = some r) (hc : r.coefficient? e = some c) (x : DeltaRat) :
    ∃ s₁, Carried b e ((1 / c) • (x - s.model.valueOf b)) s s₁ ∧
      s.pivotTo b e c x = (do
        let tableau ← s₁.tableau.pivot b e
        let s₂ := ({ s₁ with tableau } : Simplex).mark e
        return { s₂ with
          statistics := { s₂.statistics with pivots := s₂.statistics.pivots + 1 } }) := by
  have hre : r.contains e = true := by simp [Row.contains, hc]
  have heb : e ≠ b := by
    rintro rfl
    rw [h.tableau.nonbasic hr hre] at hr
    cases hr
  have hblt : b.id < s.model.numVariables := h.lt_of_mentions (.inl ⟨r, hr⟩)
  have helt : e.id < s.model.numVariables := h.lt_of_mentions (.inr ⟨b, r, hr, hre⟩)
  let step : DeltaRat := (1 / c) • (x - s.model.valueOf b)
  have hx : s.model.valueOf b + c • step = x := by
    rw [smul_smul, mul_one_div_cancel (Row.ne_zero_of_coefficient? hc), one_smul, add_sub_cancel]
  -- the two values that are set before the column is shifted
  let m₁ := s.model.assigned b x
  have helt₁ : e.id < m₁.numVariables := by rwa [Model.numVariables_assigned]
  have hval₁ : m₁.valueOf = Function.update s.model.valueOf b x := Model.valueOf_assigned hblt x
  let m₂ := m₁.assigned e (s.model.valueOf e + step)
  have hval₂ : m₂.valueOf =
      Function.update (Function.update s.model.valueOf b x) e (s.model.valueOf e + step) := by
    rw [Model.valueOf_assigned helt₁, hval₁]
  let s₂ : Simplex := { s with model := m₂ }
  have hframe : Frame s s₂ :=
    (Frame.assigned hblt x).trans (Frame.assigned (s := { s with model := m₁ }) helt₁ _)
  obtain ⟨s₃, hok, hshifts⟩ := shiftColumn_spec (s := s₂)
    (h.congr rfl hframe.room) e step ((s.tableau.column e).filter (· ≠ b))
    (fun u hu => h.tableau.exists_row_of_mem_column (List.mem_filter.mp hu).1)
    ((SortedMap.nodup_keys _).filter _)
  refine ⟨s₃, ⟨hframe.trans hshifts.frame, hshifts.tableau, funext fun u => ?_, fun u hu => ?_,
    hshifts.suspects, fun u hub hue hu => hshifts.marked u ?_⟩, ?_⟩
  · rw [hshifts.values, show s₂.model.valueOf = _ from hval₂]
    exact shift_of_leaving h.tableau hr hc s.model.valueOf hx u
  · have hub : u ≠ b := fun hub => hu (hub ▸ .inl ⟨r, hr⟩)
    have hue : u ≠ e := fun hue => hu (hue ▸ .inr ⟨b, r, hr, hre⟩)
    rw [hshifts.saved u fun hmem => hu (.inl (h.tableau.exists_row_of_mem_column
      (List.mem_filter.mp hmem).1))]
    change m₂.savedOf u = _
    rw [Model.savedOf_assigned_of_ne helt₁ _ hue, Model.savedOf_assigned_of_ne hblt _ hub]
  · change _ ≠ m₂.valueOf u
    rwa [hval₂, Function.update_of_ne hue, Function.update_of_ne hub]
  · have hread : (s.model.assigned b x).value e = .ok (s.model.valueOf e) := by
      rw [Model.value_eq_ok helt₁, hval₁, Function.update_of_ne heb]
    have hset : (s.model.assigned b x).setValue e
        (s.model.valueOf e + (1 / c) • (x - s.model.valueOf b)) = .ok m₂ :=
      Model.setValue_eq_ok helt₁ _
    simp only [pivotTo, Model.value_eq_ok hblt, ok_bind, Model.setValue_eq_ok hblt, hread,
      DeltaRat.scale_eq_smul, hset]
    change (shiftColumn e step _ s₂ >>= _) = _
    simp only [hok, ok_bind]

/-- The basic variable `b` has been taken to a value by moving `e`, and the two have exchanged their
roles. -/
structure Exchanged (b e : Var) (x : DeltaRat) (s s' : Simplex) : Prop where
  frame : Frame s s'
  grounded : s'.Grounded
  rebased : Rebased s.tableau s'.tableau
  solves : s'.tableau.Solves s'.model.valueOf
  nonbasic : ∀ u, s'.tableau.row? u = none ↔ u ≠ e ∧ (u = b ∨ s.tableau.row? u = none)
  reached : s'.model.valueOf b = x
  rests : ∀ u, u ≠ e → s.tableau.row? u = none → s'.model.valueOf u = s.model.valueOf u
  saved : ∀ u, ¬ s.tableau.Mentions u → s'.model.savedOf u = s.model.savedOf u
  suspects : ∀ u, u = e ∨ s.suspects.contains u = true → s'.suspects.contains u = true
  marked : ∀ u, u ≠ b → s'.model.valueOf u ≠ s.model.valueOf u → s'.suspects.contains u = true

/-- Taking a basic variable to a value by moving an entering one, and exchanging the two. -/
theorem pivotTo_spec {s : Simplex} (h : s.Grounded) (hs : s.tableau.Solves s.model.valueOf)
    {b e : Var} {r : Row} {c : ℚ} (hr : s.tableau.row? b = some r) (hc : r.coefficient? e = some c)
    (x : DeltaRat) : ∃ s', s.pivotTo b e c x = .ok s' ∧ Exchanged b e x s s' := by
  obtain ⟨s₁, hcarried, heq⟩ := exists_carried h hr hc x
  obtain ⟨t, hok, ht⟩ := h.tableau.pivot hr hc
  let s' : Simplex := { ({ s₁ with tableau := t } : Simplex).mark e with
    statistics := { s₁.statistics with pivots := s₁.statistics.pivots + 1 } }
  have hvalues : s'.model.valueOf =
      s.tableau.shift s.model.valueOf e ((1 / c) • (x - s.model.valueOf b)) := hcarried.values
  refine ⟨s', by rw [heq, hcarried.tableau, hok]; rfl,
    { frame := hcarried.frame.trans ⟨rfl, rfl, rfl, rfl, rfl, rfl, rfl⟩
      grounded := ⟨ht.consistent, fun hv =>
        hcarried.frame.room ▸ h.lt_of_mentions (ht.mentions _ hv)⟩
      rebased := ⟨ht.room, ht.ejected, ht.mentions, ht.solves_iff⟩
      solves := ?_
      nonbasic := ht.nonbasic_iff
      reached := ?_
      rests := fun u hue hru => ?_
      saved := hcarried.saved
      suspects := fun u hu => contains_mark.mpr (hu.imp_right (hcarried.suspects u))
      marked := fun u hub hu => contains_mark.mpr ?_ }⟩
  · rw [hvalues]
    exact (ht.solves_iff DeltaRat _).mpr (h.tableau.solves_shift hs e _)
  · rw [hvalues, Tableau.shift_of_row hr, Row.coefficient_eq_of_some hc, smul_smul,
      mul_one_div_cancel (Row.ne_zero_of_coefficient? hc), one_smul, add_sub_cancel]
  · rw [hvalues, Tableau.shift_of_none hru, if_neg hue]
  · by_cases hue : u = e
    · exact .inl hue
    · exact .inr (hcarried.marked u hub hue hu)

/-! ## The loop -/

/-- A row whose basic variable violates a bound while every variable of the row is blocked, under
some values that satisfy the row; the conflict names the bounds. -/
def RowStuck (t : Tableau) (bounds : Side → Var → Option Bound) (c : Conflict) : Prop :=
  ∃ (b : Var) (r : Row) (side : Side) (bound : Bound) (σ : Var → DeltaRat) (block : Var → Bound),
    t.row? b = some r ∧ σ b = r.eval σ ∧ bounds side b = some bound ∧
      side.beyond bound.value (σ b) = true ∧
      (∀ e ∈ r.entries, bounds (moveSide side e.2) e.1 = some (block e.1) ∧
        (moveSide side e.2).opposite.Inside (block e.1).value (σ e.1)) ∧
      c = .of (bound.reason :: r.entries.map fun e => (block e.1).reason)

/-- No values that solve a blocked row are within its bounds: they would bring the value of the row
to where it cannot get. -/
theorem not_inside_of_row {b : Var} {r : Row} {side : Side} {bound : Bound} {σ x : Var → DeltaRat}
    {block : Var → Bound} (hσ : σ b = r.eval σ) (hbeyond : side.beyond bound.value (σ b) = true)
    (hblock : ∀ e ∈ r.entries, (moveSide side e.2).opposite.Inside (block e.1).value (σ e.1))
    (hx : x b = r.eval x) (hbound : side.Inside bound.value (x b))
    (hin : ∀ e ∈ r.entries, (moveSide side e.2).Inside (block e.1).value (x e.1)) : False := by
  have hle : side.Inside (x b) (σ b) := by
    rw [hx, hσ]
    exact inside_eval fun e he => inside_smul (r.ne_zero e he) (hin e he) (hblock e he)
  have hcross := Side.inside_trans hbound hle
  rw [← Side.beyond_eq_false_iff, hbeyond] at hcross
  cases hcross

/-- No solution of a tableau with a stuck row is within all the bounds that the conflict names. -/
theorem RowStuck.not_inside {t : Tableau} {bounds : Side → Var → Option Bound} {c : Conflict}
    (h : RowStuck t bounds c) {x : Var → DeltaRat} (hx : t.Solves x) :
    ¬ ∀ side v β, bounds side v = some β → β.reason ∈ c.constraints →
      side.Inside β.value (x v) := by
  intro hin
  obtain ⟨b, r, side, bound, σ, block, hr, hσ, hbound, hbeyond, hblock, rfl⟩ := h
  have hreason : ∀ {d}, d ∈ bound.reason :: r.entries.map (fun e => (block e.1).reason) →
      d ∈ (Conflict.of
        (bound.reason :: r.entries.map fun e => (block e.1).reason)).constraints := by
    intro d hd
    exact List.mem_eraseDups.mpr hd
  refine not_inside_of_row hσ hbeyond (fun e he => (hblock e he).2) (hx b r hr) ?_ ?_
  · exact hin side b bound hbound (hreason List.mem_cons_self)
  · intro e he
    apply hin _ _ _ (hblock e he).1
    apply hreason
    exact List.mem_cons_of_mem _ (List.mem_map.mpr ⟨e, he, rfl⟩)

/-- What the repair leaves alone. -/
structure Kept (s s' : Simplex) : Prop where
  room : s'.model.numVariables = s.model.numVariables
  trail : s'.model.trail = s.model.trail
  bounds : s'.model.boundOf = s.model.boundOf
  lemmas : s'.lemmas = s.lemmas

theorem Kept.trans {s₁ s₂ s₃ : Simplex} (h : Kept s₁ s₂) (k : Kept s₂ s₃) : Kept s₁ s₃ :=
  ⟨k.room.trans h.room, k.trail.trans h.trail, k.bounds.trans h.bounds, k.lemmas.trans h.lemmas⟩

theorem Frame.kept {s s' : Simplex} (h : Frame s s') : Kept s s' :=
  ⟨h.room, h.trail, h.bounds, h.lemmas⟩

/-- A row whose variables are all blocked is stuck, and the conflict names the bounds. -/
theorem rowConflict_spec {s : Simplex} (hs : s.tableau.Solves s.model.valueOf) {b : Var} {r : Row}
    (hr : s.tableau.row? b = some r) {side : Side} {bound : Bound}
    (hbound : s.model.boundOf side b = some bound)
    (hbeyond : side.beyond bound.value (s.model.valueOf b) = true)
    (hroom : ∀ e ∈ r.entries, e.1.id < s.model.numVariables)
    (hblocked : ∀ e ∈ r.entries, ∃ block, blocking? side (s.model.look e.1) e.2 = some block) :
    ∃ c, rowConflict s.model side bound r = .ok c ∧ RowStuck s.tableau s.model.boundOf c := by
  obtain ⟨block, hblock⟩ : ∃ block : Var → Bound, ∀ e ∈ r.entries,
      blocking? side (s.model.look e.1) e.2 = some (block e.1) := by
    refine ⟨fun v => (blocking? side (s.model.look v) (r.coefficient v)).getD default, ?_⟩
    intro e he
    obtain ⟨bd, hbd⟩ := hblocked e he
    simp only [Row.coefficient_eq_of_some (Row.mem_entries_iff.mp he), hbd, Option.getD_some]
  refine ⟨.of (bound.reason :: r.entries.map fun e => (block e.1).reason), ?_,
    b, r, side, bound, s.model.valueOf, block, hr, hs b r hr, hbound, hbeyond,
    fun e he => blocking?_eq_some (hblock e he), rfl⟩
  rw [rowConflict, Checked.filterMapM_eq_ok (g := fun e => some (block e.1)) fun e he => by
    simp only [Model.entry_eq_ok (hroom e he), ok_bind, pure_eq_ok, hblock e he]]
  simp [List.filterMap_eq_map', Function.comp_def]

/-- A variable at a bound is within its bounds, if these do not cross. -/
theorem within_of_eq {m : Model} (h : m.Ordered) {v : Var} {side : Side} {b : Bound}
    (hb : m.boundOf side v = some b) (hv : m.valueOf v = b.value) : m.Within v := by
  intro t b' hb'
  rw [hv]
  cases side <;> cases t
  · rw [hb] at hb'
    rw [← Option.some.inj hb']
    exact Side.inside_refl _ _
  · exact h v b b' hb hb'
  · exact h v b' b hb' hb
  · rw [hb] at hb'
    rw [← Option.some.inj hb']
    exact Side.inside_refl _ _

/-- A pivot onto the bound that was violated leaves every violated variable basic and marked. -/
theorem Exchanged.queued {s s' : Simplex} {b e : Var} {side : Side} {bound : Bound}
    (h : Exchanged b e bound.value s s') (hord : s.model.Ordered) (hq : s.Queued)
    (hbound : s.model.boundOf side b = some bound) : s'.Queued := by
  have hord' : s'.model.Ordered := hord.congr h.frame.bounds
  intro u hu
  have hub : u ≠ b := by
    rintro rfl
    exact hu (within_of_eq hord' (by rw [h.frame.bounds]; exact hbound) h.reached)
  by_cases hchange : s'.model.valueOf u = s.model.valueOf u
  · obtain ⟨⟨r, hr⟩, hmarked⟩ := hq u fun hw => hu (hw.congr h.frame.bounds hchange)
    refine ⟨Option.ne_none_iff_exists'.mp fun hn => ?_, h.suspects u (.inr hmarked)⟩
    rcases ((h.nonbasic u).mp hn).2 with hub' | hrow
    · exact hub hub'
    · rw [hrow] at hr
      cases hr
  · refine ⟨Option.ne_none_iff_exists'.mp fun hn => ?_, h.marked u hub hchange⟩
    obtain ⟨hue, hub' | hrow⟩ := (h.nonbasic u).mp hn
    · exact hub hub'
    · exact hchange (h.rests u hue hrow)

/-- The state with the Bland fallback counted, if the pivots made so far call for it. -/
def fallback (pivots : Nat) (s : Simplex) : Simplex :=
  if pivots = s.blandThreshold then s.countFallback else s

/-- Of a state only the marks have been sifted: those of violated basic variables stay. -/
structure Sifted (s s' : Simplex) : Prop where
  frame : Frame s s'
  tableau : s'.tableau = s.tableau
  model : s'.model = s.model
  marks : ∀ u, s'.suspects.contains u = true ↔
    s.suspects.contains u = true ∧ (∃ r, s.tableau.row? u = some r) ∧ ¬ s.model.Within u

theorem Sifted.grounded {s s' : Simplex} (h : Sifted s s') (hs : s.Grounded) : s'.Grounded :=
  hs.congr h.tableau h.frame.room

theorem Sifted.solves {s s' : Simplex} (h : Sifted s s') (hs : s.tableau.Solves s.model.valueOf) :
    s'.tableau.Solves s'.model.valueOf := by
  rwa [h.tableau, h.model]

theorem Sifted.marked {s s' : Simplex} (h : Sifted s s') (hq : s.Queued) {u : Var}
    (hu : ¬ s.model.Within u) : s'.suspects.contains u = true :=
  (h.marks u).mpr ⟨(hq u hu).2, (hq u hu).1, hu⟩

theorem Sifted.queued {s s' : Simplex} (h : Sifted s s') (hq : s.Queued) : s'.Queued := by
  intro u hu
  rw [h.model] at hu
  exact ⟨by rw [h.tableau]; exact (hq u hu).1, h.marked hq hu⟩

theorem Sifted.fallback {s s' : Simplex} (h : Sifted s s') (pivots : Nat) :
    Sifted s (s'.fallback pivots) := by
  unfold Simplex.fallback
  split
  · exact ⟨h.frame.trans ⟨rfl, rfl, rfl, rfl, rfl, rfl, rfl⟩, h.tableau, h.model, h.marks⟩
  · exact h

/-- A step of the repair, once the marks have been sifted. -/
theorem repairStep_eq {s : Simplex} (h : s.Grounded) (pivots : Nat) :
    ∃ s₁, Sifted s s₁ ∧ s.repairStep pivots = (do
      match ← s₁.target? (s.blandThreshold ≤ pivots) with
      | none => return ({ s₁ with model := s₁.model.commit }, .repaired)
      | some (basic, side, bound) =>
        let r ← (s₁.fallback pivots).tableau.row basic
        match ← (s₁.fallback pivots).entering? side r (s.blandThreshold ≤ pivots) with
        | some entering =>
          return (← (s₁.fallback pivots).pivotTo basic entering (r.coefficient entering)
            bound.value, .pivoted)
        | none =>
          return ((s₁.fallback pivots).giveUp,
            .stuck (← rowConflict (s₁.fallback pivots).model side bound r))) := by
  obtain ⟨marks, hmarks, hmem⟩ := violatedSuspects_spec h
  refine ⟨{ s with suspects := marks }, ⟨⟨rfl, rfl, rfl, rfl, rfl, rfl, rfl⟩, rfl, rfl, hmem⟩, ?_⟩
  rw [repairStep, hmarks]
  rfl

/-- The repair targets a variable that violates a bound, under Bland's rule the smallest; if there
is none, all are within their bounds. -/
theorem target?_spec {s s₁ : Simplex} (h : s.Grounded) (hsifted : Sifted s s₁) (bland : Bool) :
    (s₁.target? bland = .ok none ∧ (s.Queued → ∀ u, s.model.Within u)) ∨
    ∃ b r side bound, s₁.target? bland = .ok (some (b, side, bound)) ∧
      s.tableau.row? b = some r ∧ s.model.boundOf side b = some bound ∧
      side.beyond bound.value (s.model.valueOf b) = true ∧
      (bland = true → s.Queued → ∀ u, u.id < b.id → s.model.Within u) := by
  rcases leaving?_spec (s := s₁) bland (fun u hu => by
      rw [hsifted.tableau]
      exact ((hsifted.marks u).mp hu).2.1) with
    ⟨hleave, hnone⟩ | ⟨b, hleave, hb, hsmallest⟩
  · refine .inl ⟨by rw [target?, hleave]; rfl, fun hq u => ?_⟩
    by_contra hu
    exact hnone u (hsifted.marked hq hu)
  · obtain ⟨_, ⟨r, hr⟩, hviol⟩ := (hsifted.marks b).mp hb
    rw [← Model.violation?_eq_none_iff] at hviol
    obtain ⟨⟨side, bound⟩, hsb⟩ := Option.ne_none_iff_exists'.mp hviol
    obtain ⟨hbound, hbeyond⟩ := Model.violation?_eq_some hsb
    refine .inr ⟨b, r, side, bound, ?_, hr, hbound, hbeyond, fun hbland hq u hlt => ?_⟩
    · have hread : s₁.model.violation? b = .ok (some (side, bound)) := by
        rw [hsifted.model]
        exact (Model.violation?_eq_ok (h.lt_of_mentions (.inl ⟨r, hr⟩))).trans (congrArg _ hsb)
      rw [target?, hleave, ok_bind]
      simp only [hread]
      rfl
    · by_contra hu
      exact Nat.not_lt.mpr (hsmallest hbland u (hsifted.marked hq hu)) hlt

/-- The basic variable `b` violates its bound on a side, and `e` is a variable of its row that is
free to move; under Bland's rule both are the smallest there are. -/
structure Chosen (bland : Bool) (s : Simplex) (b e : Var) (r : Row) (side : Side) (bound : Bound) :
    Prop where
  row : s.tableau.row? b = some r
  entry : r.contains e = true
  bounded : s.model.boundOf side b = some bound
  beyond : side.beyond bound.value (s.model.valueOf b) = true
  free : blocking? side (s.model.look e) (r.coefficient e) = none
  smallest : bland = true → s.Queued → ∀ u, u.id < b.id → s.model.Within u
  first : bland = true → ∀ f ∈ r.entries, f.1.id < e.id →
    ∃ block, blocking? side (s.model.look f.1) f.2 = some block

/-- One pivot of the repair: `b` leaves the basis for the bound that it violates, and `e` enters. -/
structure Pivots (bland : Bool) (s s' : Simplex) (b e : Var) : Prop where
  frame : Frame s s'
  grounded : s'.Grounded
  rebased : Rebased s.tableau s'.tableau
  solves : s'.tableau.Solves s'.model.valueOf
  saved : ∀ u, ¬ s.tableau.Mentions u → s'.model.savedOf u = s.model.savedOf u
  queued : s.model.Ordered → s.Queued → s'.Queued
  nonbasic : ∀ u, s'.tableau.row? u = none ↔ u ≠ e ∧ (u = b ∨ s.tableau.row? u = none)
  rests : ∀ u, u ≠ e → s.tableau.row? u = none → s'.model.valueOf u = s.model.valueOf u
  chosen : ∃ r side bound, Chosen bland s b e r side bound ∧ s'.model.valueOf b = bound.value

/-- Exchanging the chosen variables, after the marks have been sifted, is a pivot of the repair. -/
theorem Chosen.pivots {bland : Bool} {s s₂ s' : Simplex} {b e : Var} {r : Row} {side : Side}
    {bound : Bound} (h : Chosen bland s b e r side bound) (hsifted : Sifted s s₂)
    (hx : Exchanged b e bound.value s₂ s') : Pivots bland s s' b e where
  frame := hsifted.frame.trans hx.frame
  grounded := hx.grounded
  rebased := hsifted.tableau ▸ hx.rebased
  solves := hx.solves
  saved u hu := by rw [hx.saved u (by rwa [hsifted.tableau]), hsifted.model]
  queued hord hq :=
    hx.queued (hord.congr hsifted.frame.bounds) (hsifted.queued hq) (by
      rw [hsifted.model]
      exact h.bounded)
  nonbasic := by
    rw [← hsifted.tableau]
    exact hx.nonbasic
  rests := by
    rw [← hsifted.tableau, ← hsifted.model]
    exact hx.rests
  chosen := ⟨r, side, bound, h, hx.reached⟩

/-- One step of the repair. -/
theorem repairStep_spec {s : Simplex} (h : s.Grounded) (hs : s.tableau.Solves s.model.valueOf)
    (pivots : Nat) :
    (∃ s', s.repairStep pivots = .ok (s', .repaired) ∧ s'.tableau = s.tableau ∧
      s'.model = s.model.commit ∧ s'.lemmas = s.lemmas ∧ (s.Queued → ∀ u, s.model.Within u)) ∨
    (∃ s' c, s.repairStep pivots = .ok (s', .stuck c) ∧ s'.tableau = s.tableau ∧
      s'.model = s.model.revert ∧ s'.lemmas = s.lemmas ∧
      RowStuck s.tableau s.model.boundOf c) ∨
    ∃ s' b e, s.repairStep pivots = .ok (s', .pivoted) ∧
      Pivots (s.blandThreshold ≤ pivots) s s' b e := by
  obtain ⟨s₁, hsifted, heq⟩ := repairStep_eq h pivots
  have hsifted₂ : Sifted s (s₁.fallback pivots) := hsifted.fallback pivots
  revert heq hsifted₂
  generalize s₁.fallback pivots = s₂, decide (s.blandThreshold ≤ pivots) = bland
  intro heq hsifted₂
  rw [heq]
  rcases target?_spec h hsifted bland with
    ⟨htarget, hwithin⟩ | ⟨b, r, side, bound, htarget, hr, hbound, hbeyond, hsmallest⟩
  · refine .inl ⟨{ s₁ with model := s₁.model.commit }, ?_, hsifted.tableau,
      congrArg Model.commit hsifted.model, hsifted.frame.lemmas, hwithin⟩
    rw [htarget]
    rfl
  · have hr₂ : s₂.tableau.row? b = some r := by rwa [hsifted₂.tableau]
    have hgr₂ : s₂.Grounded := hsifted₂.grounded h
    have hroom : ∀ e ∈ r.entries, e.1.id < s₂.model.numVariables := fun e he =>
      hgr₂.lt_of_mentions (.inr ⟨b, r, hr₂, Row.contains_of_mem_entries he⟩)
    simp only [htarget, ok_bind, Tableau.row_eq_ok hr₂]
    rcases entering?_spec side bland hroom with
      ⟨henter, hblocked⟩ | ⟨e, he, henter, hfree, hfirst⟩
    · obtain ⟨c, hconflict, hstuck⟩ := rowConflict_spec (hsifted₂.solves hs) hr₂
        (by rwa [hsifted₂.model]) (by rwa [hsifted₂.model]) hroom hblocked
      refine .inr (.inl ⟨s₂.giveUp, c, ?_, hsifted₂.tableau, congrArg Model.revert hsifted₂.model,
        hsifted₂.frame.lemmas, ?_⟩)
      · simp only [henter, ok_bind, hconflict]
        rfl
      · rwa [hsifted₂.tableau, hsifted₂.model] at hstuck
    · rw [hsifted₂.model] at hfree hfirst
      have hcoef? : r.coefficient? e.1 = some e.2 := Row.mem_entries_iff.mp he
      have hcoef : r.coefficient e.1 = e.2 := Row.coefficient_eq_of_some hcoef?
      have hchosen : Chosen bland s b e.1 r side bound :=
        { row := hr
          entry := by rw [Row.contains, hcoef?]; rfl
          bounded := hbound
          beyond := hbeyond
          free := by rw [hcoef]; exact hfree
          smallest := hsmallest
          first := hfirst }
      obtain ⟨s', hok, hx⟩ := pivotTo_spec hgr₂ (hsifted₂.solves hs) hr₂ hcoef? bound.value
      refine .inr (.inr ⟨s', b, e.1, ?_, hchosen.pivots hsifted₂ hx⟩)
      simp only [henter, ok_bind, hcoef, hok]
      rfl

/-! ## The check of an outcome -/

/-- A solution within all bounds passes the check. -/
theorem Grounded.isConsistent_eq_ok {s : Simplex} (h : s.Grounded)
    (hs : s.tableau.Solves s.model.valueOf) (hin : ∀ u, s.model.Within u) :
    s.isConsistent = .ok true := by
  have hrows : s.tableau.basicVars.allM (fun b => do
      return decide ((← s.model.value b) = (← s.currentRowValue b))) = .ok true := by
    refine Checked.allM_eq_ok fun b hb => ?_
    obtain ⟨r, hr⟩ := Tableau.mem_basicVars_iff.mp hb
    rw [Model.value_eq_ok (h.lt_of_mentions (.inl ⟨r, hr⟩)), h.currentRowValue_eq_ok hr, hs b r hr]
    simp
  have hbounds : (s.model.byVar.keys.map Var.mk).allM (fun v => do
      return (← s.model.violation? v).isNone) = .ok true := by
    refine Checked.allM_eq_ok fun v hv => ?_
    obtain ⟨i, hi, rfl⟩ := List.mem_map.mp hv
    rw [Model.violation?_eq_ok (List.mem_range.mp hi), Model.violation?_eq_none_iff.mpr (hin _)]
    rfl
  rw [isConsistent, h.tableau.isConsistent, hrows]
  exact hbounds

/-- The check changes nothing, and fails only if some value is out of its bounds. -/
theorem Grounded.verified_spec {s : Simplex} (h : s.Grounded)
    (hs : s.tableau.Solves s.model.valueOf) :
    Checked.Meets (fun _ => ¬ ∀ u, s.model.Within u) (· = s) s.verified := by
  rw [verified]
  split
  · rcases em (∀ u, s.model.Within u) with hin | hout
    · rw [h.isConsistent_eq_ok hs hin]
      rfl
    · cases s.isConsistent with
      | error f => exact hout
      | ok b =>
        cases b with
        | false => exact hout
        | true => rfl
  · rfl

/-! ## The whole loop -/

/-- The outcome of a repair that ends, from the state it started in. -/
structure Repaired (s s' : Simplex) (conflict : Option Conflict) : Prop where
  grounded : s'.Grounded
  rebased : Rebased s.tableau s'.tableau
  kept : Kept s s'
  solves : s'.tableau.Solves s'.model.valueOf
  committed : s'.model.Committed
  within : conflict = none → s.model.Ordered → s.Queued → ∀ u, s'.model.Within u
  stuck : ∀ c, conflict = some c →
    s'.model.valueOf = s.model.safeOf ∧ RowStuck s'.tableau s.model.boundOf c

/-- The repair with any number of steps left runs out of them, or ends with every bound satisfied
or a stuck row. -/
theorem repairWithin_spec {s : Simplex} (h : s.Grounded) (hs : s.tableau.Solves s.model.valueOf)
    (hsafe : s.tableau.Solves s.model.safeOf) (n pivots : Nat) :
    Checked.Meets (· = .stepsExhausted) (fun p => Repaired s p.1 p.2)
      (s.repairWithin n pivots) := by
  induction n generalizing s pivots with
  | zero => exact rfl
  | succ n ih =>
    rw [repairWithin]
    rcases repairStep_spec h hs pivots with ⟨s', hok, ht, hm, hl, hwithin⟩ |
      ⟨s', c, hok, ht, hm, hl, hstuck⟩ | ⟨s', b, e, hok, hp⟩
    · rw [hok]
      have hval : s'.model.valueOf = s.model.valueOf := by rw [hm, Model.valueOf_commit]
      have hbounds : s'.model.boundOf = s.model.boundOf := by rw [hm, Model.boundOf_commit]
      have hroom : s'.model.numVariables = s.model.numVariables := by
        rw [hm, Model.numVariables_commit]
      refine ⟨h.congr ht hroom, ht ▸ .refl _,
        ⟨hroom, by rw [hm]; rfl, hbounds, hl⟩, by rwa [ht, hval],
        by rw [hm]; exact Model.committed_commit _, fun _ _ hq u => ?_, fun c hc => (by cases hc)⟩
      unfold Model.Within
      rw [hbounds, hval]
      exact hwithin hq u
    · rw [hok]
      have hval : s'.model.valueOf = s.model.safeOf := by rw [hm, Model.valueOf_revert]
      have hroom : s'.model.numVariables = s.model.numVariables := by
        rw [hm, Model.numVariables_revert]
      refine ⟨h.congr ht hroom, ht ▸ .refl _,
        ⟨hroom, by rw [hm]; rfl, by rw [hm, Model.boundOf_revert], hl⟩, by rwa [ht, hval],
        by rw [hm]; exact Model.committed_revert _, fun hc => (by cases hc), fun d hd => ?_⟩
      rw [← Option.some.inj hd, ht]
      exact ⟨hval, hstuck⟩
    · rw [hok]
      have hsafe' : s'.tableau.Solves s'.model.safeOf := by
        rw [hp.frame.safe]
        exact (hp.rebased.solves_iff _ _).mpr hsafe
      refine (ih hp.grounded hp.solves hsafe' (pivots + 1)).mono fun p hrest => ?_
      refine ⟨hrest.grounded, hp.rebased.trans hrest.rebased, hp.frame.kept.trans hrest.kept,
        hrest.solves, hrest.committed,
        fun hc hord hq => hrest.within hc (hord.congr hp.frame.bounds) (hp.queued hord hq),
        fun c hc => ?_⟩
      obtain ⟨hval, hstuck⟩ := hrest.stuck c hc
      rw [hp.frame.safe] at hval
      rw [hp.frame.bounds] at hstuck
      exact ⟨hval, hstuck⟩

end LinearArithmetic.Simplex
