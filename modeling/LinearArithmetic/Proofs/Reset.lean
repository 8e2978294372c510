import LinearArithmetic.Proofs.Rebuilding

/-!
# Resetting the tableau

After the rows have been rebuilt a reset moves the variables without a row onto their bounds, and
marks the others for the next repair, so only marked basic variables can violate a bound. If the
values were within the bounds, no value changes.
-/

namespace LinearArithmetic.Theory

/-! ## Assigning values in turn -/

/-- Values assigned in turn, where each computed value depends only on the values of variables that
are not assigned. -/
theorem assignAll_spec (s : Theory) (value : Theory → Var → Checked DeltaRat) (τ : Var → DeltaRat)
    (vs : List Var) (hvs : ∀ v ∈ vs, v.id < s.simplex.model.numVariables)
    (hvalue : ∀ (m : Model) v, v ∈ vs → m.numVariables = s.simplex.model.numVariables →
      (∀ u, u ∉ vs → m.valueOf u = s.simplex.model.valueOf u) →
        value (s.setModel m) v = .ok (τ v)) :
    ∃ m, s.assignAll value vs = .ok (s.setModel m) ∧ s.simplex.model.Revalued m ∧
      ∀ u, m.valueOf u = if u ∈ vs then τ u else s.simplex.model.valueOf u := by
  obtain ⟨b, hok, _, m, rfl, hm, hout, hin⟩ :=
    Checked.exists_foldlM (f := fun (s : Theory) v => do
        let x ← value s v
        return s.setModel (← s.simplex.model.setValue v x))
      (fun rest (b : Theory) => (∀ v ∈ rest, v ∈ vs) ∧ ∃ m, b = s.setModel m ∧
        s.simplex.model.Revalued m ∧
        (∀ u, u ∉ vs → m.valueOf u = s.simplex.model.valueOf u) ∧
        ∀ u, u ∈ vs → u ∉ rest → m.valueOf u = τ u)
      (by
        rintro v rest b ⟨hrest, m, rfl, hm, hout, hin⟩
        have hv := hrest v List.mem_cons_self
        have hlt : v.id < m.numVariables := hm.room ▸ hvs v hv
        have hset : (s.setModel m).simplex.model.setValue v (τ v) = .ok (m.assigned v (τ v)) :=
          Model.setValue_eq_ok hlt _
        refine ⟨s.setModel (m.assigned v (τ v)), ?_,
          fun w hw => hrest w (List.mem_cons_of_mem _ hw), m.assigned v (τ v), rfl,
          hm.assigned v (τ v), fun u hu => ?_, fun u hu hur => ?_⟩
        · rw [hvalue m v hv hm.room hout]
          simp only [ok_bind, hset]
          rfl
        · rw [Model.valueOf_assigned hlt, Function.update_of_ne (ne_of_mem_of_not_mem hv hu).symm]
          exact hout u hu
        · rw [Model.valueOf_assigned hlt]
          by_cases huv : u = v
          · rw [huv, Function.update_self]
          · rw [Function.update_of_ne huv]
            exact hin u hu (List.not_mem_cons_of_ne_of_not_mem huv hur))
      vs s ⟨fun _ hv => hv, s.simplex.model, rfl, .refl _, fun _ _ => rfl,
        fun u hu hnot => absurd hu hnot⟩
  refine ⟨m, hok, hm, fun u => ?_⟩
  split
  · exact hin u ‹_› List.not_mem_nil
  · exact hout u ‹_›

/-! ## Repairing variables that are not basic -/

/-- Another model with the same room leaves the rows in order. -/
theorem Arranged.setModel {s : Theory} (h : s.Arranged) {m : Model}
    (hm : m.numVariables = s.simplex.model.numVariables) : (s.setModel m).Arranged :=
  h.congr rfl rfl hm rfl

/-- What repairing variables that are not basic does to the simplex state. -/
structure Nudged (x x' : Simplex) : Prop where
  frame : Simplex.Frame x x'
  tableau : x'.tableau = x.tableau
  solves : x.tableau.Solves x.model.valueOf → x'.tableau.Solves x'.model.valueOf

theorem Nudged.refl (x : Simplex) : Nudged x x := ⟨.refl x, rfl, id⟩

theorem Nudged.trans {x₁ x₂ x₃ : Simplex} (h : Nudged x₁ x₂) (k : Nudged x₂ x₃) : Nudged x₁ x₃ where
  frame := h.frame.trans k.frame
  tableau := k.tableau.trans h.tableau
  solves hs := k.solves (h.solves hs)

/-- Unless the variable is basic or eliminated, it is within its bounds. -/
def Placed (s : Theory) (x : Simplex) (u : Var) : Prop :=
  s.simplex.tableau.row? u = none → s.isEliminated u = false → x.model.Within u

/-- Repairing a variable puts it within its bounds and moves no other variable that is not basic. If
it is in its place, nothing moves. -/
theorem repairNonBasic_spec {s : Theory} (h : s.simplex.Coherent)
    (hord : s.simplex.model.Ordered) {v : Var} (hv : v.id < s.simplex.model.numVariables) :
    ∃ x, s.repairNonBasic v = .ok { s with simplex := x } ∧ Nudged s.simplex x ∧ s.Placed x v ∧
      (∀ u, u ≠ v → s.simplex.tableau.row? u = none →
        x.model.valueOf u = s.simplex.model.valueOf u) ∧
      (s.Placed s.simplex v → x.model.valueOf = s.simplex.model.valueOf) := by
  rw [Theory.repairNonBasic, Model.violation?_eq_ok hv]
  cases hskip : s.simplex.tableau.isBasic v || s.isEliminated v with
  | true =>
    refine ⟨s.simplex, rfl, .refl _, fun hrow helim => ?_, fun _ _ _ => rfl, fun _ => rfl⟩
    rw [Tableau.isBasic_eq_false_iff.mpr hrow, helim] at hskip
    cases hskip
  | false =>
    obtain ⟨hbasic, helim⟩ := Bool.or_eq_false_iff.mp hskip
    have hrow := Tableau.isBasic_eq_false_iff.mp hbasic
    cases hviol : (s.simplex.model.look v).violation? with
    | none =>
      exact ⟨s.simplex, rfl, .refl _, fun _ _ => Model.violation?_eq_none_iff.mp hviol,
        fun _ _ _ => rfl, fun _ => rfl⟩
    | some p =>
      obtain ⟨side, b⟩ := p
      obtain ⟨x, hok, hm⟩ := Simplex.move_spec h.grounded hrow hv b.value
      have hmoved : ∀ u, s.simplex.tableau.row? u = none → x.model.valueOf u =
          if u = v then b.value else s.simplex.model.valueOf u := by
        intro u hu
        rw [hm.values, Tableau.shift_of_none hu]
        by_cases huv : u = v
        · rw [if_pos huv, if_pos huv, huv, add_sub_cancel]
        · rw [if_neg huv, if_neg huv]
      refine ⟨x, ?_, ⟨hm.frame, hm.tableau, fun hs => ?_⟩, fun _ _ => ?_, fun u huv hu => ?_,
        fun hplaced => ?_⟩
      · simp only [Bool.false_eq_true, if_false, ok_bind, hok]
        rfl
      · rw [hm.tableau, hm.values]
        exact h.tableau.solves_shift hs _ _
      · have hbound : x.model.boundOf side v = some b := by
          rw [hm.frame.bounds]
          exact (Model.violation?_eq_some hviol).1
        refine Simplex.within_of_eq (hord.congr hm.frame.bounds) hbound ?_
        rw [hmoved v hrow, if_pos rfl]
      · rw [hmoved u hu, if_neg huv]
      · have hnone := Model.violation?_eq_none_iff.mpr (hplaced hrow helim)
        rw [hviol] at hnone
        cases hnone

theorem repairNonBasics_spec {s : Theory} (h : s.simplex.Coherent)
    (hord : s.simplex.model.Ordered) (vs : List Var)
    (hvs : ∀ v ∈ vs, v.id < s.simplex.model.numVariables) :
    ∃ x, vs.foldlM repairNonBasic s = .ok { s with simplex := x } ∧ Nudged s.simplex x ∧
      (∀ u ∈ vs, s.Placed x u) ∧
      ((∀ u, s.Placed s.simplex u) → x.model.valueOf = s.simplex.model.valueOf) := by
  obtain ⟨b, hok, _, x, rfl, hx, hplaced, hsettled⟩ := Checked.exists_foldlM (f := repairNonBasic)
    (fun rest b => (∀ v ∈ rest, v.id < s.simplex.model.numVariables) ∧
      ∃ x, b = { s with simplex := x } ∧ Nudged s.simplex x ∧
        (∀ u ∈ vs, u ∉ rest → s.Placed x u) ∧
        ((∀ u, s.Placed s.simplex u) → x.model.valueOf = s.simplex.model.valueOf))
    (by
      rintro v rest b ⟨hrest, x, rfl, hx, hplaced, hsettled⟩
      have hcoh : x.Coherent := ⟨hx.tableau ▸ h.tableau, by rw [hx.tableau, hx.frame.room, h.room]⟩
      obtain ⟨x', hok, hx', hv, hothers, hstill⟩ := repairNonBasic_spec
        (s := { s with simplex := x }) hcoh (hord.congr hx.frame.bounds) (v := v)
        (by rw [hx.frame.room]; exact hrest v List.mem_cons_self)
      refine ⟨_, hok, fun w hw => hrest w (List.mem_cons_of_mem _ hw), x', rfl, hx.trans hx',
        fun u hu hurest hrow helim => ?_, fun hall => ?_⟩
      · have hrow' : x.tableau.row? u = none := by
          rw [hx.tableau]
          exact hrow
        by_cases huv : u = v
        · subst huv
          exact hv hrow' helim
        · -- a variable that was repaired before stays where it is
          have hnot : u ∉ v :: rest := List.not_mem_cons_of_ne_of_not_mem huv hurest
          exact (hplaced u hu hnot hrow helim).congr hx'.frame.bounds (hothers u huv hrow')
      · have hsame := hsettled hall
        refine (hstill fun hrow helim => ?_).trans hsame
        exact (hall v (hx.tableau ▸ hrow) helim).congr hx.frame.bounds (congrFun hsame v))
    vs s ⟨hvs, s.simplex, rfl, .refl _, fun u hu hnot => absurd hu hnot, fun _ => rfl⟩
  exact ⟨x, hok, hx, fun u hu => hplaced u hu List.not_mem_nil, hsettled⟩

theorem markBasics_spec (s : Theory) :
    ∃ x, s.markBasics = { s with simplex := x } ∧ Simplex.Frame s.simplex x ∧
      x.tableau = s.simplex.tableau ∧ x.model = s.simplex.model ∧
      ∀ u ∈ s.simplex.tableau.basicVars, x.suspects.contains u = true := by
  have hfold : ∀ (vs : List Var) (x : Simplex), ∃ y, vs.foldl (fun x v => x.mark v) x = y ∧
      Simplex.Frame x y ∧ y.tableau = x.tableau ∧ y.model = x.model ∧
      ∀ u, u ∈ vs ∨ x.suspects.contains u = true → y.suspects.contains u = true := by
    intro vs
    induction vs with
    | nil =>
      intro x
      exact ⟨x, rfl, .refl x, rfl, rfl, fun u hu => hu.resolve_left List.not_mem_nil⟩
    | cons v rest ih =>
      intro x
      obtain ⟨y, hy, hframe, htab, hmodel, hmarks⟩ := ih (x.mark v)
      refine ⟨y, hy, (Simplex.Frame.mark x v).trans hframe, htab, hmodel, fun u hu => hmarks u ?_⟩
      rw [Simplex.contains_mark]
      rcases hu with hu | hu
      · exact (List.mem_cons.mp hu).symm.imp_right .inl
      · exact .inr (.inr hu)
  obtain ⟨y, hy, hframe, htab, hmodel, hmarks⟩ := hfold s.simplex.tableau.basicVars s.simplex
  exact ⟨y, by rw [markBasics, hy], hframe, htab, hmodel, fun u hu => hmarks u (.inl hu)⟩

/-- The simplex state after the variables that are not basic were repaired and the basic ones
marked. -/
structure Tidied (s : Theory) (y : Simplex) : Prop extends Nudged s.simplex y where
  watches : ∀ u, ¬ s.Dormant u → ¬ y.model.Within u → y.Watches u
  settled : (∀ u, s.Placed s.simplex u) → y.model.valueOf = s.simplex.model.valueOf

/-- After the repair of the other variables only basic ones can violate a bound. -/
theorem Arranged.tidy {s : Theory} (h : s.Arranged) (hord : s.simplex.model.Ordered) :
    ∃ x y, s.vars.foldlM repairNonBasic s = .ok { s with simplex := x } ∧
      markBasics { s with simplex := x } = { s with simplex := y } ∧ s.Tidied y := by
  obtain ⟨x, hok, hx, hplaced, hsettled⟩ := repairNonBasics_spec h.coherent hord s.vars
    fun v hv => by
      rw [h.room]
      exact mem_vars_iff.mp hv
  obtain ⟨y, hmark, hframe, htab, hmodel, hmarks⟩ := markBasics_spec { s with simplex := x }
  have hy : Nudged x y := by
    refine ⟨hframe, htab, fun hs => ?_⟩
    rw [htab, hmodel]
    exact hs
  refine ⟨x, y, hok, hmark, hx.trans hy, fun u hu hviol => ?_, fun hall => by
    rw [hmodel, hsettled hall]⟩
  rw [Dormant, not_or, not_not] at hu
  have helim : s.isEliminated u = false := by
    rw [← Bool.not_eq_true, isEliminated_iff]
    exact hu.2
  have hbasic : x.tableau.row? u ≠ none := by
    intro hnone
    rw [hx.tableau] at hnone
    rw [hmodel] at hviol
    exact hviol (hplaced u (mem_vars_iff.mpr hu.1.lt) hnone helim)
  obtain ⟨r, hr⟩ := Option.ne_none_iff_exists'.mp hbasic
  exact ⟨⟨r, htab ▸ hr⟩, hmarks u (Tableau.mem_basicVars_iff.mpr ⟨r, hr⟩)⟩

/-! ## The reset -/

/-- The outcome of a reset. -/
structure Rebuilt (vs : List Var) (s s' : Theory) : Prop where
  framed : s'.Framed
  balanced : s'.Balanced
  committed : s'.simplex.model.Committed
  rearranged : Rearranged s { s' with database := s.database }
  active : ∀ u, s'.Active u → s.IsLeaf u ∨ u ∈ vs
  dormant : ∀ u, s'.Dormant u →
    ¬ s.IsLeaf u ∧ u ∉ vs ∨ s.database.hasConstraints u = false
  values : (∀ v ∈ vs, s.Active v) → s.Balanced →
    (∀ u side b, s.simplex.model.boundOf side u = some b → side.Inside b.value (s.currentOf u)) →
      s'.simplex.model.valueOf = s.currentOf
  watches : ∀ u, ¬ s'.Dormant u → ¬ s'.simplex.model.Within u → s'.simplex.Watches u

/-- Where no value was beyond a bound, all values are those of before, with all rows. -/
theorem Rebuilt.currentOf_eq {vs : List Var} {s s' : Theory} (h : Rebuilt vs s s')
    (hs : s.Framed) (hb : s.Balanced) (hvs : ∀ v ∈ vs, s.Active v)
    (hin : ∀ u side b, s.simplex.model.boundOf side u = some b →
      side.Inside b.value (s.currentOf u)) :
    s'.simplex.model.valueOf = s.currentOf ∧ s'.currentOf = s.currentOf := by
  have hvalues := h.values hvs hb hin
  have hdefined : s'.Defined s.currentOf := by
    intro v i r hi hdef hmat
    have hr : s.definition? v = some r := by
      rw [← h.rearranged.definition? v]
      exact definition?_eq_some_iff.mpr ⟨i, hi, hdef⟩
    have hv : v ∈ vs := (h.active v ⟨i, hi, .inr hmat⟩).resolve_left (not_isLeaf_of_definition? hr)
    exact hs.currentOf_eq_eval hb hr (hvs v hv)
  refine ⟨hvalues, h.framed.triangular.extended_eq ((h.balanced _ _).mpr hdefined).2 fun u _ => ?_⟩
  rw [hvalues]

/-- The eliminated variables are assigned the values of their rows. -/
theorem Arranged.assignEliminated {s : Theory} (h : s.Arranged) :
    ∃ m, s.assignAll value (s.vars.filter s.isEliminated) = .ok (s.setModel m) ∧
      s.simplex.model.Revalued m ∧ m.valueOf = s.currentOf := by
  have hmem : ∀ u, u ∈ s.vars.filter s.isEliminated ↔ u ∈ s.eliminated.map Prod.fst := by
    intro u
    rw [List.mem_filter, isEliminated_iff, mem_vars_iff]
    refine and_iff_right_of_imp fun hu => ?_
    obtain ⟨e, he, rfl⟩ := List.mem_map.mp hu
    exact (h.eliminated e he).1.lt
  obtain ⟨m, hok, hm, hval⟩ := assignAll_spec s value
    s.currentOf (s.vars.filter s.isEliminated)
    (fun v hv => by rw [h.room]; exact mem_vars_iff.mp (List.mem_filter.mp hv).1)
    (fun m v hv hroom hm => h.value_eq_ok hroom (fun u hu => hm u fun hc => hu ((hmem u).mp hc))
      (mem_vars_iff.mp (List.mem_filter.mp hv).1))
  refine ⟨m, hok, hm, funext fun u => ?_⟩
  rw [hval]
  split
  · rfl
  · rename_i hu
    exact (extended_of_not_mem (fun hc => hu ((hmem u).mpr hc)) _).symm

/-- The basic variables are assigned the values of their rows. -/
theorem Arranged.assignBasics {s : Theory} (h : s.Arranged) :
    ∃ m, s.assignAll (fun s v => s.simplex.currentRowValue v) s.simplex.tableau.basicVars =
        .ok (s.setModel m) ∧
      s.simplex.model.Revalued m ∧ s.simplex.tableau.Solves m.valueOf ∧
      ((∀ b r, s.simplex.tableau.row? b = some r →
        s.simplex.model.valueOf b = r.eval s.simplex.model.valueOf) →
          m.valueOf = s.simplex.model.valueOf) := by
  have hfree : ∀ b r u, s.simplex.tableau.row? b = some r → r.contains u = true →
      u ∉ s.simplex.tableau.basicVars := by
    intro b r u hr hu hc
    obtain ⟨q, hq⟩ := Tableau.mem_basicVars_iff.mp hc
    rw [h.coherent.tableau.nonbasic hr hu] at hq
    cases hq
  obtain ⟨m, hok, hm, hval⟩ := assignAll_spec s
    (fun s v => s.simplex.currentRowValue v)
    (fun v => ((s.simplex.tableau.row? v).getD ∅).eval s.simplex.model.valueOf)
    s.simplex.tableau.basicVars
    (fun v hv => h.coherent.lt_of_mentions (.inl (Tableau.mem_basicVars_iff.mp hv)))
    (by
      intro m v hv hroom hm
      obtain ⟨r, hr⟩ := Tableau.mem_basicVars_iff.mp hv
      have hrow : (s.setModel m).simplex.tableau.row v = .ok r := Tableau.row_eq_ok hr
      have hlt : ∀ u, r.contains u = true → u.id < m.numVariables := fun u hu => by
        rw [hroom]
        exact h.coherent.lt_of_mentions (.inr ⟨v, r, hr, hu⟩)
      have heval : r.valueUnder (s.setModel m).simplex.model.value = .ok (r.eval m.valueOf) :=
        Row.valueUnder_eq_ok fun u hu => Model.value_eq_ok (hlt u hu)
      rw [Simplex.currentRowValue, hrow, ok_bind, heval, hr]
      exact congrArg _ (Row.eval_congr fun u hu => hm u (hfree v r u hr hu)))
  have hrow : ∀ b r, s.simplex.tableau.row? b = some r →
      m.valueOf b = r.eval s.simplex.model.valueOf := by
    intro b r hr
    rw [hval, if_pos (Tableau.mem_basicVars_iff.mpr ⟨r, hr⟩), hr]
    rfl
  refine ⟨m, hok, hm, fun b r hr => ?_, fun hs => funext fun u => ?_⟩
  · rw [hrow b r hr]
    refine Row.eval_congr fun u hu => ?_
    rw [hval, if_neg (hfree b r u hr hu)]
  · by_cases hu : u ∈ s.simplex.tableau.basicVars
    · obtain ⟨r, hr⟩ := Tableau.mem_basicVars_iff.mp hu
      rw [hrow u r hr, hs u r hr]
    · rw [hval, if_neg hu]

/-- Once the variables are repaired and marked the values can be committed. -/
theorem Tidied.framed {s : Theory} {y : Simplex} (hy : s.Tidied y) (h : s.Arranged)
    (hsolves : s.simplex.tableau.Solves s.simplex.model.valueOf) (schedule : ResetSchedule)
    (db : Database) :
    ({ s with
      simplex := { y with model := y.model.commit }
      schedule
      database := db } : Theory).Framed where
  toArranged := by
    refine h.congr rfl hy.tableau ?_ rfl
    change y.model.commit.numVariables = _
    rw [Model.numVariables_commit, hy.frame.room]
  values := by
    change y.tableau.Solves y.model.commit.valueOf
    rw [Model.valueOf_commit]
    exact hy.solves hsolves
  safe := by
    change y.tableau.Solves y.model.commit.safeOf
    rw [Model.safeOf_commit]
    exact hy.solves hsolves
  dormant u _ := Model.committed_commit _ u

/-- The stages of a reset from `s` to `s'`, with the needed slack variables. -/
structure Stages (needed : List Var) (s s' : Theory) where
  /-- the values with those of the eliminated variables filled in -/
  filled : Model
  /-- the theory with its rows rebuilt -/
  rebuilt : Theory
  /-- the values with those of the basic variables computed from their rows -/
  valued : Model
  /-- the theory with variables eliminated again, and their number -/
  shrunk : Theory
  count : Nat
  /-- the simplex state with the variables repaired and marked -/
  tidied : Simplex
  schedule : ResetSchedule
  database : Database
  filled_revalued : s.simplex.model.Revalued filled
  filled_values : filled.valueOf = s.currentOf
  rebuild : (s.rowsToRebuild needed).foldlM (rebuildRow needed) (s.setModel filled).unbuilt =
    .ok rebuilt
  rebuilding : Rebuilding needed (s.rowsToRebuild needed) [] (s.setModel filled) rebuilt
  valued_revalued : rebuilt.simplex.model.Revalued valued
  valued_solves : rebuilt.simplex.tableau.Solves valued.valueOf
  valued_values : (∀ b r, rebuilt.simplex.tableau.row? b = some r →
    rebuilt.simplex.model.valueOf b = r.eval rebuilt.simplex.model.valueOf) →
      valued.valueOf = rebuilt.simplex.model.valueOf
  eliminate : (rebuilt.setModel valued).eliminateAll (s.vars.filter s.isEliminated) =
    .ok (shrunk, count)
  shrinks : Shrinks (rebuilt.setModel valued) shrunk
  tidy : shrunk.Tidied tidied
  outcome : s' = { shrunk with
    simplex := { tidied with model := tidied.model.commit }, schedule, database }

section Stages

variable {needed : List Var} {s s' : Theory} (h : Stages needed s s')

include h

theorem Stages.bounds : h.shrunk.simplex.model.boundOf = s.simplex.model.boundOf := by
  rw [h.shrinks.model]
  refine h.valued_revalued.bounds.trans ?_
  rw [h.rebuilding.model]
  exact h.filled_revalued.bounds

theorem Stages.rearranged : Rearranged s { s' with database := s.database } := by
  have hre := h.rebuilding.rearranged
  have hre' := h.shrinks.rearranged
  rw [h.outcome]
  refine ⟨hre'.options.trans hre.options, fun k => (hre'.infos k).trans (hre.infos k),
    hre'.leaves.trans hre.leaves, hre'.slacks.trans hre.slacks,
    hre'.constantAtoms.trans hre.constantAtoms, rfl, hre'.pending.trans hre.pending,
    hre'.processed.trans hre.processed, hre'.disequalities.trans hre.disequalities,
    hre'.propagations.trans hre.propagations, ?_, ?_, ?_⟩
  · change h.tidied.model.commit.trail = _
    rw [Model.trail_commit, h.tidy.frame.trail, h.shrinks.model]
    refine h.valued_revalued.trail.trans ?_
    rw [h.rebuilding.model]
    exact h.filled_revalued.trail
  · change h.tidied.model.commit.boundOf = _
    rw [Model.boundOf_commit, h.tidy.frame.bounds, h.bounds]
  · exact h.tidy.frame.lemmas.trans (hre'.lemmas.trans hre.lemmas)

theorem Stages.solves : h.shrunk.simplex.tableau.Solves h.shrunk.simplex.model.valueOf := by
  rw [h.shrinks.model]
  exact h.shrinks.forward _ h.valued_solves

/-- Where all rows that come back were there before, no value changes before the repair. -/
theorem Stages.shrunk_values (hs : s.Framed) (hb : s.Balanced) (hact : ∀ v ∈ needed, s.Active v) :
    h.shrunk.simplex.model.valueOf = s.currentOf := by
  have hval : h.rebuilt.simplex.model.valueOf = s.currentOf := by
    rw [h.rebuilding.model]
    exact h.filled_values
  have hrows : ∀ b r, h.rebuilt.simplex.tableau.row? b = some r →
      h.rebuilt.simplex.model.valueOf b = r.eval h.rebuilt.simplex.model.valueOf := by
    intro b r hr
    rw [hval]
    exact h.rebuilding.rows_hold hact ((hb _ _).mp hs.solves_currentOf) hr
  rw [h.shrinks.model]
  exact (h.valued_values hrows).trans hval

/-- What the stages of a reset come to. -/
theorem Stages.toRebuilt (hs : s.Framed) (hneeded : ∀ v ∈ needed, s.isSlack v = true) :
    Rebuilt needed s s' := by
  have hre := h.rearranged
  have hy := h.tidy
  have hbounds := h.bounds
  have hvalues : (∀ v ∈ needed, s.Active v) → s.Balanced →
      (∀ u side b, s.simplex.model.boundOf side u = some b → side.Inside b.value (s.currentOf u)) →
        h.tidied.model.valueOf = s.currentOf := by
    intro hact hbal hin
    have hval := h.shrunk_values hs hbal hact
    refine (hy.settled fun u _ _ side b hb => ?_).trans hval
    rw [hbounds] at hb
    rw [hval]
    exact hin u side b hb
  rw [h.outcome] at hre ⊢
  refine ⟨hy.framed h.shrinks.arranged h.solves _ _, ?_, Model.committed_commit _, hre,
    fun u hu => (h.rebuilding.active u (h.shrinks.active_iff.mp hu)).imp_right And.left,
    fun u hu => ?_, fun hact hbal hin => ?_, fun u hu hviol => hy.watches u hu fun hw => hviol ?_⟩
  · have hbal : (h.rebuilt.setModel h.valued).Balanced := h.rebuilding.balanced.congr rfl rfl rfl
    exact (h.shrinks.balanced hbal).congr rfl hy.tableau rfl
  · have hu' : h.shrunk.Dormant u := hu
    rcases h.shrinks.dormant u hu' with hu' | hcon
    · exact .inl (h.rebuilding.of_dormant hneeded hu')
    · change h.rebuilt.database.hasConstraints u = false at hcon
      rw [h.rebuilding.rearranged.database] at hcon
      exact .inr hcon
  · change h.tidied.model.commit.valueOf = s.currentOf
    rw [Model.valueOf_commit, hvalues hact hbal hin]
  · exact hw.congr (Model.boundOf_commit _) (congrFun (Model.valueOf_commit _) u)

end Stages

/-- Resetting the tableau goes through these stages; it can fail at an eliminated variable that a
constraint mentions. -/
theorem Framed.resetTableau_stages {s : Theory} (h : s.Framed) (hc : s.simplex.model.Committed)
    (hord : s.simplex.model.Ordered) {excluded : List Var}
    (hex : s.excludedVars = .ok excluded) {db : Database} {n : Nat}
    (hcollect : s.database.collect = .ok (db, n)) :
    Checked.Meets
      (fun f => ∃ v, s.isEliminated v = true ∧ s.database.hasConstraints v = true ∧
        f = .constrained v)
      (fun s' => Nonempty (Stages (s.needed excluded) s s') ∧ s'.database = db) s.resetTableau := by
  let vs := s.needed excluded
  -- eliminated variables get their values, and all rows are dropped
  obtain ⟨m₁, hok₁, hm₁, hval₁⟩ := h.assignEliminated
  let s₁ : Theory := { s.setModel m₁ with eliminated := [] }
  have ha₁ : (s.setModel m₁).Arranged := h.toArranged.setModel hm₁.room
  -- the rows are rebuilt
  obtain ⟨s₂, hok₂, hb₂⟩ := (ha₁.rebuilding vs (s.rowsToRebuild vs) fun v hv =>
    mem_rowsToRebuild_iff.mpr ⟨(mem_needed_iff.mp hv).1, .inl hv⟩).rebuildAll
      ((nodup_vars s).filter _)
  obtain ⟨m₃, hok₃, hm₃, hsolves₃, hval₃⟩ := hb₂.arranged.assignBasics
  have ha₃ : (s₂.setModel m₃).Arranged := hb₂.arranged.setModel hm₃.room
  have huncommitted : s.simplex.model.hasUncommitted = false :=
    Model.hasUncommitted_eq_false_iff.mpr hc
  rw [Theory.resetTableau, huncommitted]
  simp only [Bool.false_eq_true, if_false, neededSlacks_eq_ok h.room hex, ok_bind, hok₁]
  change Checked.Meets _ _ (s₁.slacksWithRow >>= _)
  rw [slacksWithRow_eq_ok, ok_bind]
  change Checked.Meets _ _
    ((s.rowsToRebuild vs).foldlM (rebuildRow vs) (s.setModel m₁).unbuilt >>= _)
  rw [hok₂, ok_bind, hok₃, ok_bind]
  have hmeets := ha₃.eliminateAll (s.vars.filter s.isEliminated)
  cases hall : (s₂.setModel m₃).eliminateAll (s.vars.filter s.isEliminated) with
  | error f =>
    rw [hall] at hmeets
    obtain ⟨v, hv, hcon, rfl⟩ := hmeets
    refine ⟨v, (List.mem_filter.mp hv).2, ?_, rfl⟩
    change s₂.database.hasConstraints v = true at hcon
    rwa [hb₂.rearranged.database] at hcon
  | ok p =>
    rw [hall] at hmeets
    obtain ⟨s₄, count⟩ := p
    have hs₄ : Shrinks (s₂.setModel m₃) s₄ := hmeets.1
    have hord₄ : s₄.simplex.model.Ordered := hord.congr (by
      rw [hs₄.model]
      exact hm₃.bounds.trans (by rw [hb₂.model]; exact hm₁.bounds))
    obtain ⟨x, y, hokx, hmark, hy⟩ := hs₄.arranged.tidy hord₄
    rw [ok_bind]
    dsimp only
    rw [hokx, ok_bind, hmark]
    have hdb : s₄.database = s.database := hs₄.rearranged.database.trans hb₂.rearranged.database
    simp only [setModel, hdb, hcollect, ok_bind, pure_eq_ok, Checked.meets_ok]
    exact ⟨⟨⟨m₁, s₂, m₃, s₄, count, y, _, db, hm₁, hval₁, hok₂, hb₂, hm₃, hsolves₃, hval₃, hall,
      hs₄, hy, rfl⟩⟩, trivial⟩

/-- Resetting the tableau; it can fail at an eliminated variable that a constraint mentions. -/
theorem Framed.resetTableau {s : Theory} (h : s.Framed) (hc : s.simplex.model.Committed)
    (hord : s.simplex.model.Ordered) {excluded : List Var}
    (hex : s.excludedVars = .ok excluded) {db : Database} {n : Nat}
    (hcollect : s.database.collect = .ok (db, n)) :
    Checked.Meets
      (fun f => ∃ v, s.isEliminated v = true ∧ s.database.hasConstraints v = true ∧
        f = .constrained v)
      (fun s' => Rebuilt (s.needed excluded) s s' ∧ s'.database = db) s.resetTableau :=
  (h.resetTableau_stages hc hord hex hcollect).mono fun _ ⟨⟨hstages⟩, hdb⟩ =>
    ⟨hstages.toRebuilt h fun _ hv => (mem_needed_iff.mp hv).2.1, hdb⟩

end LinearArithmetic.Theory
