import LinearArithmetic.Proofs.Satisfaction

/-!
# A second reset

The first reset changes what a reset starts from: the rows that are set aside, the variables that
are eliminated, values and constraints. A second one adds the same rows again in the same order,
since every row of the first is in the tableau or set aside. It tries to eliminate only what the
first one managed to; the variables left out are those that changed no row.
-/

namespace LinearArithmetic.Theory

/-! ## States with the same rows -/

/-- In two states the same rows are in the tableau, set aside and kept for eliminated variables, and
the same slack variables are materialised. -/
structure SameRows (s s' : Theory) : Prop where
  infos : s'.infos = s.infos
  tableau : s'.simplex.tableau = s.simplex.tableau
  eliminated : s'.eliminated = s.eliminated

theorem SameRows.trans {s₁ s₂ s₃ : Theory} (h : SameRows s₁ s₂) (k : SameRows s₂ s₃) :
    SameRows s₁ s₃ :=
  ⟨k.infos.trans h.infos, k.tableau.trans h.tableau, k.eliminated.trans h.eliminated⟩

theorem SameRows.symm {s s' : Theory} (h : SameRows s s') : SameRows s' s :=
  ⟨h.infos.symm, h.tableau.symm, h.eliminated.symm⟩

theorem SameRows.setModel {s s' : Theory} (h : SameRows s s') (m m' : Model) :
    SameRows (s.setModel m) (s'.setModel m') :=
  ⟨h.infos, h.tableau, h.eliminated⟩

theorem SameRows.definition? {s s' : Theory} (h : SameRows s s') (v : Var) :
    s'.definition? v = s.definition? v := by
  rw [Theory.definition?, Theory.definition?, h.infos]

theorem SameRows.isEliminated {s s' : Theory} (h : SameRows s s') (v : Var) :
    s'.isEliminated v = s.isEliminated v := by
  rw [Theory.isEliminated, Theory.isEliminated, h.eliminated]

/-! ## Adding rows again -/

/-- The row of a slack variable depends on the rows alone. -/
theorem SameRows.rebuildRow {needed : List Var} {s₁ s₂ t₁ t₂ : Theory} {v : Var}
    (h : SameRows s₁ s₂) (h₁ : rebuildRow needed s₁ v = .ok t₁)
    (h₂ : rebuildRow needed s₂ v = .ok t₂) : SameRows t₁ t₂ := by
  rw [Theory.rebuildRow] at h₁
  rw [Theory.rebuildRow, h.definition?, h.tableau] at h₂
  cases hdef : s₁.definition? v with
  | none =>
    rw [hdef] at h₁ h₂
    obtain rfl := Except.ok.inj h₁
    obtain rfl := Except.ok.inj h₂
    exact h
  | some r =>
    rw [hdef] at h₁ h₂
    obtain ⟨t, hadd, h₁⟩ := bind_eq_ok.mp h₁
    obtain ⟨u, hadd', h₂⟩ := bind_eq_ok.mp h₂
    obtain rfl := Except.ok.inj (hadd.symm.trans hadd')
    by_cases hv : needed.contains v = true
    · rw [if_pos hv] at h₁ h₂
      obtain rfl := Except.ok.inj h₁
      obtain rfl := Except.ok.inj h₂
      refine ⟨?_, rfl, h.eliminated⟩
      change s₂.infos.modify v.id _ = s₁.infos.modify v.id _
      rw [h.infos]
    · rw [if_neg hv] at h₁ h₂
      obtain ⟨t', haside, h₁⟩ := bind_eq_ok.mp h₁
      rw [haside, ok_bind] at h₂
      obtain rfl := Except.ok.inj h₁
      obtain rfl := Except.ok.inj h₂
      exact ⟨h.infos, rfl, h.eliminated⟩

theorem debugChecks_rebuildRow {needed : List Var} {s s' : Theory} {v : Var}
    (h : rebuildRow needed s v = .ok s') :
    s'.simplex.tableau.debugChecks = s.simplex.tableau.debugChecks := by
  rw [rebuildRow] at h
  split at h
  · obtain rfl := Except.ok.inj h
    rfl
  · obtain ⟨t, hadd, h⟩ := bind_eq_ok.mp h
    split at h
    · obtain rfl := Except.ok.inj h
      exact Tableau.debugChecks_addRow hadd
    · obtain ⟨t', haside, h⟩ := bind_eq_ok.mp h
      obtain rfl := Except.ok.inj h
      exact (Tableau.debugChecks_eject haside).trans (Tableau.debugChecks_addRow hadd)

theorem debugChecks_rebuildAll {needed vs : List Var} {s s' : Theory}
    (h : vs.foldlM (rebuildRow needed) s = .ok s') :
    s'.simplex.tableau.debugChecks = s.simplex.tableau.debugChecks := by
  induction vs generalizing s with
  | nil =>
    obtain rfl := Except.ok.inj h
    rfl
  | cons v rest ih =>
    rw [List.foldlM_cons] at h
    obtain ⟨b, hstep, h⟩ := bind_eq_ok.mp h
    exact (ih h).trans (debugChecks_rebuildRow hstep)

/-! ## Eliminating variables again -/

/-- The variable is eliminated already, or in no row. -/
def Idle (v : Var) (s : Theory) : Prop :=
  s.isEliminated v = true ∨ s.simplex.tableau.makeBasic v = .ok none

/-- What eliminating a variable does: nothing if it is idle, and otherwise its row leaves a tableau
in which it is basic. -/
inductive Eliminates (v : Var) (s : Theory) : Theory → Prop
  | stays (h : Idle v s) : Eliminates v s s
  | leaves {t t' : Tableau} {r : Row} (hnot : s.isEliminated v = false)
      (hbasic : s.simplex.tableau.makeBasic v = .ok (some t))
      (hremove : t.removeRow v = .ok (t', r)) :
      Eliminates v s { s.setTableau t' with eliminated := (v, r) :: s.eliminated }

theorem eliminates_of_eliminate {s s' : Theory} {v : Var} {b : Bool}
    (h : s.eliminate v = .ok (s', b)) : Eliminates v s s' := by
  cases hcon : s.database.hasConstraints v with
  | true =>
    rw [eliminate, hcon] at h
    cases h
  | false =>
    cases hv : s.isEliminated v with
    | true =>
      rw [eliminate, hcon, hv] at h
      obtain ⟨rfl, -⟩ := Prod.mk.inj (Except.ok.inj h)
      exact .stays (.inl hv)
    | false =>
      rw [eliminate_of_not hcon hv] at h
      obtain ⟨basic?, hbasic, h⟩ := bind_eq_ok.mp h
      cases basic? with
      | none =>
        obtain ⟨rfl, -⟩ := Prod.mk.inj (Except.ok.inj h)
        exact .stays (.inr hbasic)
      | some t =>
        obtain ⟨⟨t', r⟩, hremove, h⟩ := bind_eq_ok.mp h
        obtain ⟨rfl, -⟩ := Prod.mk.inj (Except.ok.inj h)
        exact .leaves hv hbasic hremove

/-- Eliminating the variables of a list in turn. -/
inductive EliminatesAll : List Var → Theory → Theory → Prop
  | nil (s : Theory) : EliminatesAll [] s s
  | cons {v : Var} {vs : List Var} {s₁ s₂ s₃ : Theory} (head : Eliminates v s₁ s₂)
      (tail : EliminatesAll vs s₂ s₃) : EliminatesAll (v :: vs) s₁ s₃

theorem eliminatesAll_of_eliminateAll {vs : List Var} {s s' : Theory} {n : Nat}
    (h : s.eliminateAll vs = .ok (s', n)) : EliminatesAll vs s s' := by
  rw [eliminateAll] at h
  generalize 0 = m at h
  induction vs generalizing s m with
  | nil =>
    obtain ⟨rfl, -⟩ := Prod.mk.inj (Except.ok.inj h)
    exact .nil s
  | cons v rest ih =>
    rw [List.foldlM_cons] at h
    obtain ⟨⟨s₁, m₁⟩, hstep, h⟩ := bind_eq_ok.mp h
    obtain ⟨⟨s₂, done⟩, helim, hstep⟩ := bind_eq_ok.mp hstep
    obtain ⟨rfl, -⟩ := Prod.mk.inj (Except.ok.inj hstep)
    exact .cons (eliminates_of_eliminate helim) (ih _ h)

section Eliminates

variable {v : Var} {vs : List Var} {s s' : Theory}

theorem Eliminates.debugChecks (h : Eliminates v s s') :
    s'.simplex.tableau.debugChecks = s.simplex.tableau.debugChecks := by
  cases h with
  | stays _ => rfl
  | leaves _ hbasic hremove =>
    exact (Tableau.debugChecks_uninstall hremove).trans (Tableau.debugChecks_makeBasic hbasic)

/-- Other variables stay eliminated or not. -/
theorem Eliminates.isEliminated_of_ne (h : Eliminates v s s') {u : Var} (huv : u ≠ v) :
    s'.isEliminated u = s.isEliminated u := by
  cases h with
  | stays _ => rfl
  | leaves _ _ _ =>
    unfold isEliminated
    rw [List.lookup_cons, beq_eq_false_iff_ne.mpr huv]

theorem Eliminates.isEliminated_of (h : Eliminates v s s') {u : Var}
    (hu : s.isEliminated u = true) : s'.isEliminated u = true := by
  cases h with
  | stays _ => exact hu
  | leaves _ _ _ =>
    rw [isEliminated_iff] at hu ⊢
    exact List.mem_cons_of_mem _ hu

/-- A variable that is not eliminated in the end changed nothing. -/
theorem Eliminates.eq_of_not (h : Eliminates v s s') (hv : s'.isEliminated v = false) :
    s' = s := by
  cases h with
  | stays _ => rfl
  | leaves _ _ _ =>
    rw [isEliminated, List.lookup_cons_self] at hv
    cases hv

theorem EliminatesAll.debugChecks (h : EliminatesAll vs s s') :
    s'.simplex.tableau.debugChecks = s.simplex.tableau.debugChecks := by
  induction h with
  | nil _ => rfl
  | cons head _ ih => exact ih.trans head.debugChecks

theorem EliminatesAll.isEliminated_of_not_mem (h : EliminatesAll vs s s') {u : Var} (hu : u ∉ vs) :
    s'.isEliminated u = s.isEliminated u := by
  induction h with
  | nil _ => rfl
  | cons head _ ih =>
    obtain ⟨hne, hrest⟩ := not_or.mp (List.mem_cons.not.mp hu)
    exact (ih hrest).trans (head.isEliminated_of_ne hne)

theorem EliminatesAll.isEliminated_of (h : EliminatesAll vs s s') {u : Var}
    (hu : s.isEliminated u = true) : s'.isEliminated u = true := by
  induction h with
  | nil _ => exact hu
  | cons head _ ih => exact ih (head.isEliminated_of hu)

end Eliminates

theorem SameRows.idle_iff {s s' : Theory} (h : SameRows s s') (v : Var) :
    Idle v s' ↔ Idle v s := by
  rw [Idle, Idle, h.isEliminated, h.tableau]

theorem not_idle {v : Var} {s : Theory} {t : Tableau} (hnot : s.isEliminated v = false)
    (hbasic : s.simplex.tableau.makeBasic v = .ok (some t)) : ¬ Idle v s := by
  rintro (h | h)
  · rw [hnot] at h
    cases h
  · rw [hbasic] at h
    cases h

/-- What happens to a variable depends on the rows alone. -/
theorem Eliminates.sameRows {v : Var} {s₁ s₂ t₁ t₂ : Theory} (h₁ : Eliminates v s₁ t₁)
    (h₂ : Eliminates v s₂ t₂) (h : SameRows s₁ s₂) : SameRows t₁ t₂ := by
  cases h₁ with
  | stays hidle =>
    cases h₂ with
    | stays _ => exact h
    | leaves hnot hbasic _ => exact absurd ((h.idle_iff v).mpr hidle) (not_idle hnot hbasic)
  | leaves hnot hbasic hremove =>
    cases h₂ with
    | stays hidle => exact absurd ((h.idle_iff v).mp hidle) (not_idle hnot hbasic)
    | leaves _ hbasic' hremove' =>
      rw [h.tableau, hbasic] at hbasic'
      obtain rfl := Option.some.inj (Except.ok.inj hbasic')
      rw [hremove] at hremove'
      obtain ⟨rfl, rfl⟩ := Prod.mk.inj (Except.ok.inj hremove')
      refine ⟨h.infos, rfl, ?_⟩
      change _ :: s₂.eliminated = _ :: s₁.eliminated
      rw [h.eliminated]

/-- The variables that could not be eliminated can be left out. -/
theorem EliminatesAll.sameRows {vs : List Var} {s₁ s₂ t₁ t₂ : Theory}
    (h₁ : EliminatesAll vs s₁ t₁) (h₂ : EliminatesAll (vs.filter t₁.isEliminated) s₂ t₂)
    (h : SameRows s₁ s₂) : SameRows t₁ t₂ := by
  induction h₁ generalizing s₂ with
  | nil s =>
    cases h₂
    exact h
  | @cons v rest s₁ s t₁ head tail ih =>
    cases hv : t₁.isEliminated v with
    | true =>
      rw [List.filter_cons_of_pos hv] at h₂
      cases h₂ with
      | cons head' tail' => exact ih tail' (head.sameRows head' h)
    | false =>
      rw [List.filter_cons_of_neg (by rw [hv]; exact Bool.false_ne_true)] at h₂
      have hidle : s = s₁ := head.eq_of_not (by
        rw [← Bool.not_eq_true]
        intro hs
        rw [tail.isEliminated_of hs] at hv
        cases hv)
      exact ih h₂ (hidle ▸ h)

/-! ## What the second reset starts from -/

/-- Without rows, only the terms and definitions of the variables are left. -/
theorem sameRows_unbuilt {s s' : Theory}
    (hinfos : ∀ k, (s'.infos.get? k).map content = (s.infos.get? k).map content)
    (hclear : s'.simplex.tableau.clear = s.simplex.tableau.clear) :
    SameRows s.unbuilt s'.unbuilt where
  infos := by
    refine Arena.ext_get? fun k => ?_
    have hmap : ∀ o : Option VarInfo, (o.map fun i => { i with materialized := false }) =
        (o.map content).map fun p => ({ term := p.1, definition := p.2 } : VarInfo) := by
      intro o
      cases o <;> rfl
    rw [get?_unbuilt, get?_unbuilt, hmap, hmap, hinfos]
  tableau := hclear
  eliminated := rfl

section Stages

variable {needed : List Var} {s s₁ s₂ : Theory} (h : Stages needed s s₁)

include h

theorem Stages.sameRows : SameRows h.shrunk s₁ where
  infos := (congrArg (·.infos) h.outcome).trans rfl
  tableau := (congrArg (·.simplex.tableau) h.outcome).trans h.tidy.tableau
  eliminated := (congrArg (·.eliminated) h.outcome).trans rfl

theorem Stages.eliminatesAll :
    EliminatesAll (s.vars.filter s.isEliminated) (h.rebuilt.setModel h.valued) h.shrunk :=
  eliminatesAll_of_eliminateAll h.eliminate

theorem Stages.debugChecks :
    s₁.simplex.tableau.debugChecks = s.simplex.tableau.debugChecks := by
  have hrebuilt := debugChecks_rebuildAll h.rebuild
  rw [h.sameRows.tableau]
  exact h.eliminatesAll.debugChecks.trans hrebuilt

theorem Stages.active_iff {u : Var} : s₁.Active u ↔ h.rebuilt.Active u := by
  rw [Active, h.sameRows.infos]
  exact h.shrinks.active_iff

theorem Stages.isEjected (u : Var) :
    s₁.simplex.tableau.isEjected u = h.rebuilt.simplex.tableau.isEjected u := by
  rw [Tableau.isEjected, h.sameRows.tableau, h.shrinks.ejected]
  rfl

/-- Of the slack variables whose rows are not needed, the same have a row set aside as had one. -/
theorem Stages.mem_withRow_iff {v : Var} (hv : v ∉ needed) : v ∈ s₁.withRow ↔ v ∈ s.withRow := by
  have hre := h.rearranged
  have hsize : s₁.infos.size = s.infos.size := hre.size
  have hslack : s₁.isSlack v = s.isSlack v := hre.isSlack v
  rw [Theory.mem_withRow_iff, hsize, hslack, h.active_iff, h.isEjected, h.rebuilding.ejected,
    mem_rowsToRebuild_iff]
  constructor
  · rintro ⟨_, hs, hact | ⟨⟨⟨_, hmem⟩, _⟩, _⟩⟩
    · rcases h.rebuilding.active v hact with hleaf | ⟨hmem, _⟩
      · obtain ⟨r, hr⟩ := Option.isSome_iff_exists.mp hs
        exact absurd hleaf (not_isLeaf_of_definition? hr)
      · exact absurd hmem hv
    · exact hmem.resolve_left hv
  · intro hmem
    obtain ⟨hlt, hs, _⟩ := Theory.mem_withRow_iff.mp hmem
    exact ⟨hlt, hs, .inr ⟨⟨⟨hlt, .inr hmem⟩, List.not_mem_nil⟩, hv, hs⟩⟩

theorem Stages.rowsToRebuild_eq : s₁.rowsToRebuild needed = s.rowsToRebuild needed := by
  have hvars : s₁.vars = s.vars := h.rearranged.vars
  rw [rowsToRebuild, rowsToRebuild, hvars]
  refine List.filter_congr fun v _ => ?_
  rw [Bool.eq_iff_iff, Bool.or_eq_true, Bool.or_eq_true, List.contains_iff_mem,
    List.contains_iff_mem, List.contains_iff_mem]
  by_cases hv : v ∈ needed
  · exact iff_of_true (.inl hv) (.inl hv)
  · exact or_congr_right (h.mem_withRow_iff hv)

/-- The second reset leaves out the variables that the first one could not eliminate. -/
theorem Stages.filter_isEliminated :
    s₁.vars.filter s₁.isEliminated =
      (s.vars.filter s.isEliminated).filter h.shrunk.isEliminated := by
  have hvars : s₁.vars = s.vars := h.rearranged.vars
  rw [hvars, List.filter_filter]
  refine List.filter_congr fun v hv => ?_
  rw [h.sameRows.isEliminated]
  cases hs : s.isEliminated v with
  | true => rw [Bool.and_true]
  | false =>
    have hnot : v ∉ s.vars.filter s.isEliminated := by
      rw [List.mem_filter, hs]
      exact fun hmem => Bool.false_ne_true hmem.2
    rw [h.eliminatesAll.isEliminated_of_not_mem hnot, Bool.and_false, isEliminated]
    change (h.rebuilt.eliminated.lookup v).isSome = false
    rw [h.rebuilding.eliminated]
    rfl

/-- The second reset builds the same rows. -/
theorem Stages.sameRows_again (k : Stages needed s₁ s₂) (hs : s.Framed) (hs₁ : s₁.Framed) :
    SameRows s₁ s₂ := by
  have hre := h.rearranged
  have hroom : s₁.simplex.tableau.numVariables = s.simplex.tableau.numVariables :=
    hs₁.room'.trans (Eq.trans hre.size hs.room'.symm)
  have hunbuilt : SameRows (s.setModel h.filled).unbuilt (s₁.setModel k.filled).unbuilt :=
    sameRows_unbuilt hre.infos (Tableau.clear_congr hroom h.debugChecks)
  have hrebuild := k.rebuild
  rw [h.rowsToRebuild_eq] at hrebuild
  have hrebuilt : SameRows h.rebuilt k.rebuilt :=
    Checked.related_foldlM (fun _ _ _ _ _ hR => hR.rebuildRow) hunbuilt h.rebuild hrebuild
  have hagain := k.eliminatesAll
  rw [h.filter_isEliminated] at hagain
  have hshrunk := h.eliminatesAll.sameRows hagain (hrebuilt.setModel h.valued k.valued)
  exact h.sameRows.symm.trans (hshrunk.trans k.sameRows)

/-- Where no variable without a row is beyond its bounds, the second reset moves nothing. -/
theorem Stages.valueOf_again (k : Stages needed s₁ s₂) (hneeded : ∀ v ∈ needed, s.isSlack v = true)
    (hs₁ : s₁.Framed) (hb₁ : s₁.Balanced) (hq₁ : s₁.simplex.Queued) (hsame : SameRows s₁ s₂) :
    s₂.simplex.model.valueOf = s₁.currentOf := by
  have hact : ∀ v ∈ needed, s₁.Active v := fun v hv =>
    h.active_iff.mpr (h.rebuilding.done v hv List.not_mem_nil (hneeded v hv))
  have hval := k.shrunk_values hs₁ hb₁ hact
  have hrows : SameRows k.shrunk s₁ := k.sameRows.trans hsame.symm
  have hplaced : ∀ u, k.shrunk.Placed k.shrunk.simplex u := by
    intro u hrow helim
    rw [← hrows.tableau] at hrow
    rw [← hrows.isEliminated] at helim
    have hwithin : s₁.simplex.model.Within u := by
      by_contra hviol
      obtain ⟨⟨r, hr⟩, _⟩ := hq₁ u hviol
      rw [hrow] at hr
      cases hr
    refine hwithin.congr k.bounds ?_
    rw [hval, currentOf_of_not_mem]
    rw [← isEliminated_iff, helim]
    exact Bool.false_ne_true
  have hmodel : s₂.simplex.model = k.tidied.model.commit :=
    (congrArg (·.simplex.model) k.outcome).trans rfl
  rw [hmodel, Model.valueOf_commit, k.tidy.settled hplaced, hval]

end Stages

/-! ## Resetting twice -/

/-- The second state has the rows, the constraints and the values of the first, in which there was
no constraint to collect. -/
structure Repeats (s s' : Theory) : Prop extends SameRows s s' where
  database : s'.database = s.database
  collected : s.database.collect = .ok (s.database, 0)
  values : ∀ v ∈ s.vars, ∃ x, s.value v = .ok x ∧ s'.value v = .ok x

theorem Sane.resetTableau_repeats {s : Theory} (hs : s.Sane) (hc : s.simplex.model.Committed) :
    ∃ s₁ s₂, s.resetTableau = .ok s₁ ∧ s₁.resetTableau = .ok s₂ ∧ Repeats s₁ s₂ := by
  obtain ⟨s₁, hok₁, hm₁, -, hq₁⟩ := hs.resetTableau_spec hc
  have hs₁ := hm₁.sane
  have hc₁ := hm₁.committed hc
  obtain ⟨s₂, hok₂, hm₂, -, -⟩ := hs₁.resetTableau_spec hc₁
  obtain ⟨excluded, hex, hmem⟩ := hs.needed_spec
  obtain ⟨db, n, hcollect, hcollected⟩ := hs.linked.valid.collect
  obtain ⟨⟨h⟩, rfl⟩ := (hs.framed.resetTableau_stages hc hs.recorded.sound_now.ordered hex
    hcollect).of_ok hok₁
  obtain ⟨⟨k⟩, hdb⟩ := (hs₁.framed.resetTableau_stages hc₁ hs₁.recorded.sound_now.ordered
    ((hm₁.excludedVars hs).trans hex) hcollected.collect_self).of_ok hok₂
  have hneeded : s₁.needed excluded = s.needed excluded := h.rearranged.needed excluded
  rw [hneeded] at k
  have hsame := h.sameRows_again k hs.framed hs₁.framed
  have hvalues := h.valueOf_again k (fun v hv => ((hmem v).mp hv).1) hs₁.framed hs₁.balanced hq₁
    hsame
  have hcurrent : s₂.currentOf = s₁.currentOf := by
    rw [currentOf, hvalues, hsame.eliminated]
    exact hs₁.framed.triangular.extended_eq hs₁.framed.solves_currentOf.2 fun _ _ => rfl
  refine ⟨s₁, s₂, hok₁, hok₂, hsame, hdb, hcollected.collect_self, fun v hv => ?_⟩
  have hlt : v.id < s₁.infos.size := mem_vars_iff.mp hv
  refine ⟨s₁.currentOf v, hs₁.value_eq_ok hlt, ?_⟩
  rw [hm₂.sane.value_eq_ok (hsame.infos ▸ hlt), hcurrent]

/-- In every state of a run, a second reset repeats the first: it builds the same rows, sets the
same rows aside, eliminates the same variables, and leaves values and constraints as they are. -/
theorem resetTableau_idempotent {o : Options} {ops : List Operation} {s : Theory}
    {as : List Answer} (hrun : (start o).run ops = .ok (s, as)) :
    ∃ s₁ s₂, s.resetTableau = .ok s₁ ∧ s₁.resetTableau = .ok s₂ ∧ Repeats s₁ s₂ := by
  have hr := running_of_run hrun
  exact hr.sane.resetTableau_repeats hr.committed

/-- A bound and a disequality on `x + y`, and a scope with a bound on `x + z`, which is left after
`x` and `y` have been eliminated. -/
def leftScope : List Operation :=
  [.assert (.rel .ge (.sum [.var "x", .var "y"]) (.const 2)),
    .assert (.neg (.rel .eq (.sum [.var "x", .var "y"]) (.const 3))), .check .full, .push,
    .assert (.rel .le (.sum [.var "x", .var "z"]) (.const 1)), .check .full, .presolve, .pop 1,
    .push]

/-- The first reset sets the row of `x + z` aside and eliminates only `x` again, which leaves `y` in
no row; the second one leaves `y` alone, and `x` still has the value of its row. -/
theorem leftScope_repeats :
    ∃ s as s₁ s₂, (start {}).run leftScope = .ok (s, as) ∧ s.resetTableau = .ok s₁ ∧
      s₁.resetTableau = .ok s₂ ∧ Repeats s₁ s₂ ∧ s.eliminated.map Prod.fst = [⟨1⟩, ⟨0⟩] ∧
      s₂.eliminated.map Prod.fst = [⟨0⟩] ∧ s₂.simplex.tableau.ejected.keys = [⟨4⟩] ∧
      s₂.value ⟨0⟩ = .ok ⟨2, 0⟩ := by
  have h : ((start {}).run leftScope >>= fun p => p.1.resetTableau >>= fun s₁ => s₁.value ⟨0⟩ >>=
      fun x => Except.ok (p.1.eliminated.map Prod.fst, s₁.eliminated.map Prod.fst,
        s₁.simplex.tableau.ejected.keys, s₁.vars.contains ⟨0⟩, x)) =
      .ok ([⟨1⟩, ⟨0⟩], [⟨0⟩], [⟨4⟩], true, ⟨2, 0⟩) := by decide +kernel
  obtain ⟨⟨s, as⟩, hrun, h⟩ := bind_eq_ok.mp h
  obtain ⟨s₁, hreset, h⟩ := bind_eq_ok.mp h
  obtain ⟨x, hvalue, h⟩ := bind_eq_ok.mp h
  simp only [Except.ok.injEq, Prod.mk.injEq] at h
  obtain ⟨hgone, hgone₁, haside, hvar, rfl⟩ := h
  obtain ⟨_, s₂, hreset', hagain, hrepeats⟩ := resetTableau_idempotent hrun
  rw [hreset] at hreset'
  obtain rfl := Except.ok.inj hreset'
  obtain ⟨y, hy, hy'⟩ := hrepeats.values _ (List.contains_iff_mem.mp hvar)
  rw [hvalue] at hy
  obtain rfl := Except.ok.inj hy
  exact ⟨s, as, s₁, s₂, hrun, hreset, hagain, hrepeats, hgone, hrepeats.eliminated ▸ hgone₁,
    hrepeats.tableau ▸ haside, hy'⟩

end LinearArithmetic.Theory
