import LinearArithmetic.Proofs.Materialize
import LinearArithmetic.Proofs.Repair

/-!
# Rows that go

Eliminating variables keeps the rows in order and changes no solution and no value. A presolve
materialises slack variables first.
-/

namespace LinearArithmetic

/-! ## Making a variable basic -/

namespace Tableau

/-- The tableau in which a variable is basic, if it has a row or a row mentions it. -/
def makeBasic (v : Var) (t : Tableau) : Checked (Option Tableau) :=
  if t.isBasic v then pure (some t)
  else do
    match ← t.shortestRowContaining v with
    | none => pure none
    | some b => pure (some (← t.pivot b v))

theorem debugChecks_makeBasic {t t' : Tableau} {v : Var}
    (h : t.makeBasic v = .ok (some t')) : t'.debugChecks = t.debugChecks := by
  rw [makeBasic] at h
  split at h
  · rw [← Option.some.inj (Except.ok.inj h)]
  · obtain ⟨b?, _, h⟩ := bind_eq_ok.mp h
    cases b? with
    | none => cases h
    | some b =>
      obtain ⟨u, hpivot, h⟩ := bind_eq_ok.mp h
      rw [← Option.some.inj (Except.ok.inj h)]
      exact debugChecks_pivot hpivot

/-- Making a variable basic can only exchange it with another one. -/
theorem Consistent.makeBasic {t : Tableau} (h : t.Consistent) (v : Var) :
    ∃ basic?, t.makeBasic v = .ok basic? ∧ ∀ t', basic? = some t' →
      t'.Consistent ∧ Simplex.Rebased t t' ∧ ∃ r, t'.row? v = some r := by
  rw [Tableau.makeBasic]
  cases hrow : t.row? v with
  | some r =>
    rw [if_pos (isBasic_iff.mpr ⟨r, hrow⟩)]
    refine ⟨some t, rfl, ?_⟩
    rintro _ ⟨rfl⟩
    exact ⟨h, .refl t, r, hrow⟩
  | none =>
    rw [isBasic_eq_false_iff.mpr hrow]
    simp only [Bool.false_eq_true, if_false, shortestRowContaining]
    have hcolumn : ∀ b ∈ t.column v, ∃ r, t.row? b = some r ∧ r.contains v = true := fun b hb =>
      h.uses_iff.mp (mem_column_iff.mp hb)
    rcases shortest_spec _ _ (fun b hb => (hcolumn b hb).imp fun _ => And.left) with
      ⟨_, hshort⟩ | ⟨b, hb, hshort, -⟩
    · exact ⟨none, by rw [hshort]; rfl, nofun⟩
    · obtain ⟨q, hq, hqv⟩ := hcolumn b hb
      obtain ⟨c, hcq⟩ := Option.isSome_iff_exists.mp hqv
      obtain ⟨u, hpivot, hu, hroom, hej, hnone, hmentions, hsolves⟩ := h.pivot hq hcq
      refine ⟨some u, by simp only [hshort, ok_bind, hpivot, pure_eq_ok], ?_⟩
      rintro _ ⟨rfl⟩
      exact ⟨hu, ⟨hroom, hej, hmentions, hsolves⟩,
        Option.ne_none_iff_exists'.mp fun hn => ((hnone v).mp hn).1 rfl⟩

end Tableau

namespace Theory

/-! ## Eliminating variables -/

/-- The outcome of eliminating variables. -/
structure Shrinks (s s' : Theory) : Prop where
  arranged : s'.Arranged
  infos : s'.infos = s.infos
  rearranged : Rearranged s s'
  model : s'.simplex.model = s.simplex.model
  solves_iff : ∀ (M : Type) [AddCommGroup M] [Module ℚ M] (σ : Var → M), s'.Solves σ ↔ s.Solves σ
  forward : ∀ σ : Var → DeltaRat, s.simplex.tableau.Solves σ → s'.simplex.tableau.Solves σ
  extended : ∀ σ : Var → DeltaRat, s.simplex.tableau.Solves σ →
    extended σ s'.eliminated = extended σ s.eliminated
  dormant : ∀ u, s'.Dormant u → s.Dormant u ∨ s.database.hasConstraints u = false
  ejected : s'.simplex.tableau.ejected = s.simplex.tableau.ejected

theorem Shrinks.refl {s : Theory} (h : s.Arranged) : Shrinks s s :=
  ⟨h, rfl, .refl s, rfl, fun _ _ _ _ => .rfl, fun _ => id, fun _ _ => rfl, fun _ => .inl, rfl⟩

theorem Shrinks.trans {s₁ s₂ s₃ : Theory} (h : Shrinks s₁ s₂) (k : Shrinks s₂ s₃) :
    Shrinks s₁ s₃ where
  arranged := k.arranged
  infos := k.infos.trans h.infos
  rearranged := h.rearranged.trans k.rearranged
  model := k.model.trans h.model
  solves_iff M _ _ σ := (k.solves_iff M σ).trans (h.solves_iff M σ)
  forward σ hσ := k.forward σ (h.forward σ hσ)
  extended σ hσ := (k.extended σ (h.forward σ hσ)).trans (h.extended σ hσ)
  dormant u hu := by
    rcases k.dormant u hu with hu | hu
    · exact h.dormant u hu
    · rw [h.rearranged.database] at hu
      exact .inr hu
  ejected := k.ejected.trans h.ejected

theorem Shrinks.balanced {s s' : Theory} (h : Shrinks s s') (hb : s.Balanced) : s'.Balanced := by
  intro M _ _ σ
  rw [h.solves_iff, hb M σ, Defined, Defined, h.infos]

/-- No value changes, though more of them are those of rows. -/
theorem Shrinks.currentOf_eq {s s' : Theory} (h : Shrinks s s') (hs : s.Framed) :
    s'.currentOf = s.currentOf := by
  rw [currentOf, h.model]
  exact h.extended _ hs.values

theorem Shrinks.active_iff {s s' : Theory} (h : Shrinks s s') {u : Var} :
    s'.Active u ↔ s.Active u := by
  unfold Active
  rw [h.infos]

/-- The variables that get eliminated have no constraints. -/
theorem Shrinks.eliminated {s s' : Theory} (h : Shrinks s s') :
    ∀ v ∈ s'.eliminated.map Prod.fst,
      v ∈ s.eliminated.map Prod.fst ∨ s.database.hasConstraints v = false := by
  intro v hv
  obtain ⟨e, he, rfl⟩ := List.mem_map.mp hv
  have hactive : s.Active e.1 := h.active_iff.mp (h.arranged.eliminated e he).1
  exact (h.dormant e.1 (.inr hv)).imp_left fun hd => hd.resolve_left fun hn => hn hactive

/-- Values that were committed still satisfy the rows. -/
theorem Shrinks.framed {s s' : Theory} (h : Shrinks s s') (hs : s.Framed)
    (hc : s.simplex.model.Committed) : s'.Framed where
  toArranged := h.arranged
  values := by
    rw [h.model]
    exact h.forward _ hs.values
  safe := by
    rw [h.model]
    exact h.forward _ hs.safe
  dormant u _ := by
    rw [h.model]
    exact hc u

/-- The row of a variable is set aside, with a tableau that does not mention the variable. -/
theorem Arranged.setAside {s : Theory} (h : s.Arranged) {t : Tableau} (ht : t.Consistent)
    (hroom : t.numVariables = s.simplex.tableau.numVariables)
    (hejected : t.ejected = s.simplex.tableau.ejected)
    (hmentions : ∀ u, t.Mentions u → s.simplex.tableau.Mentions u) {v : Var} {r : Row}
    (hv : s.simplex.tableau.Mentions v) (hgone : ¬ t.Mentions v) (hself : r.contains v = false)
    (hr : ∀ u, r.contains u = true → s.simplex.tableau.Mentions u) :
    ({ s.setTableau t with eliminated := (v, r) :: s.eliminated } : Theory).Arranged where
  coherent := ⟨ht, hroom.trans h.coherent.room⟩
  room := h.room
  definitions := h.definitions
  mentions u hu := h.mentions u (hmentions u hu)
  eliminated := List.forall_mem_cons.mpr
    ⟨⟨h.mentions v hv, fun u hu => h.mentions u (hr u hu)⟩, h.eliminated⟩
  triangular := by
    -- the tableau mentions no variable that was eliminated before
    refine h.triangular.cons hself fun e he => ⟨?_, ?_⟩
    · rintro rfl
      exact h.apart e he hv
    · rw [← Bool.not_eq_true]
      exact fun hre => h.apart e he (hr e.1 hre)
  apart := List.forall_mem_cons.mpr
    ⟨hgone, fun e he hm => h.apart e he (hmentions e.1 hm)⟩
  ejected u q hq := h.ejected u q (hejected ▸ hq)

/-- The row of a variable leaves a tableau with the same solutions as that of the theory. -/
theorem Arranged.removeRow {s : Theory} (h : s.Arranged) {t : Tableau} (ht : t.Consistent)
    (hreb : Simplex.Rebased s.simplex.tableau t) {v : Var} {r : Row} (hr : t.row? v = some r)
    (hcon : s.database.hasConstraints v = false) :
    ∃ t', t.removeRow v = .ok (t', r) ∧
      Shrinks s { s.setTableau t' with eliminated := (v, r) :: s.eliminated } := by
  obtain ⟨t', hok, ht', hout, hsolves⟩ := ht.uninstall hr
  have hself : r.contains v = false := by
    rw [← Bool.not_eq_true]
    intro hrv
    rw [ht.nonbasic hr hrv] at hr
    cases hr
  have hforward : ∀ (M : Type) [AddCommGroup M] [Module ℚ M] (σ : Var → M),
      s.simplex.tableau.Solves σ ↔ t'.Solves σ ∧ σ v = r.eval σ := fun M _ _ σ =>
    (hreb.solves_iff M σ).symm.trans (hsolves M σ)
  refine ⟨t', hok, ?_, rfl,
    ⟨rfl, fun _ => rfl, rfl, rfl, rfl, rfl, rfl, rfl, rfl, rfl, rfl, rfl, rfl⟩, rfl, ?_, ?_, ?_, ?_,
    hout.ejected.trans hreb.ejected⟩
  · exact h.setAside ht' (hout.room.trans hreb.room) (hout.ejected.trans hreb.ejected)
      (fun u hu => hreb.mentions u (hout.mentions hu)) (hreb.mentions v (.inl ⟨r, hr⟩))
      (hout.not_mentions ht hr) hself fun u hu => hreb.mentions u (.inr ⟨v, r, hr, hu⟩)
  · intro M _ _ σ
    unfold Solves Solved
    rw [hforward, List.forall_mem_cons]
    exact and_assoc.symm
  · intro σ hσ
    exact ((hforward _ σ).mp hσ).1
  · intro σ hσ
    rw [extended, ← ((hforward _ σ).mp hσ).2, Function.update_eq_self]
  · rintro u (hu | hu)
    · exact .inl (.inl hu)
    · rcases List.mem_cons.mp hu with rfl | hu
      · exact .inr hcon
      · exact .inl (.inr hu)

/-- A variable that is not eliminated is first made basic. -/
theorem eliminate_of_not {s : Theory} {v : Var} (hcon : s.database.hasConstraints v = false)
    (hv : s.isEliminated v = false) :
    s.eliminate v = s.simplex.tableau.makeBasic v >>= fun
      | none => .ok (s, false)
      | some t => t.removeRow v >>= fun (t', r) =>
        .ok ({ s.setTableau t' with eliminated := (v, r) :: s.eliminated }, true) := by
  simp only [eliminate, hcon, hv, Bool.false_eq_true, if_false, Tableau.makeBasic]
  cases s.simplex.tableau.isBasic v with
  | true => rfl
  | false =>
    cases s.simplex.tableau.shortestRowContaining v with
    | error f => rfl
    | ok b? =>
      cases b? with
      | none => rfl
      | some b =>
        simp only [Bool.false_eq_true, if_false, ok_bind]
        cases s.simplex.tableau.pivot b v <;> rfl

/-- Eliminating a variable that no constraint mentions. -/
theorem Arranged.eliminate {s : Theory} (h : s.Arranged) {v : Var}
    (hcon : s.database.hasConstraints v = false) :
    ∃ s' b, s.eliminate v = .ok (s', b) ∧ Shrinks s s' ∧ (b = false → s' = s) := by
  cases helim : s.isEliminated v with
  | true => exact ⟨s, true, by rw [Theory.eliminate, hcon, helim]; rfl, .refl h, nofun⟩
  | false =>
    obtain ⟨basic?, hbasic, hsome⟩ := h.coherent.tableau.makeBasic v
    rw [eliminate_of_not hcon helim, hbasic, ok_bind]
    cases basic? with
    | none => exact ⟨s, false, rfl, .refl h, fun _ => rfl⟩
    | some t =>
      obtain ⟨ht, hreb, r, hr⟩ := hsome t rfl
      obtain ⟨t', hok, hs⟩ := h.removeRow ht hreb hr hcon
      exact ⟨_, true, by simp only [hok, ok_bind], hs, nofun⟩

/-- Eliminating the variables of a list; it can fail at a variable that a constraint mentions. -/
theorem Arranged.eliminateAll {s : Theory} (h : s.Arranged) (vs : List Var) :
    Checked.Meets (fun f => ∃ v ∈ vs, s.database.hasConstraints v = true ∧ f = .constrained v)
      (fun p => Shrinks s p.1 ∧ (p.2 = 0 → p.1 = s)) (s.eliminateAll vs) := by
  refine (Checked.meets_foldlM (fun rest (p : Theory × Nat) => rest.Sublist vs ∧ Shrinks s p.1 ∧
    (p.2 = 0 → p.1 = s)) ?_ vs (s, 0) ⟨.refl _, .refl h, fun _ => rfl⟩).mono fun p hp => hp.2
  rintro v rest ⟨b, n⟩ ⟨hrest, hs, hidle⟩
  cases hcon : b.database.hasConstraints v with
  | true =>
    have hfault : b.eliminate v = .error (.constrained v) := by
      rw [Theory.eliminate, hcon]
      rfl
    dsimp only
    rw [hfault]
    rw [hs.rearranged.database] at hcon
    exact ⟨v, hrest.subset List.mem_cons_self, hcon, rfl⟩
  | false =>
    obtain ⟨b', d, hok, hs', hkept⟩ := hs.arranged.eliminate hcon
    dsimp only
    rw [hok]
    refine ⟨(List.sublist_cons_self _ _).trans hrest, hs.trans hs', ?_⟩
    intro hn
    cases d with
    | false => exact (hkept rfl).trans (hidle hn)
    | true => cases hn

/-- Variables that no constraint mentions can all be eliminated. -/
theorem Arranged.eliminateAll_of_unconstrained {s : Theory} (h : s.Arranged) (vs : List Var)
    (hvs : ∀ v ∈ vs, s.database.hasConstraints v = false) :
    ∃ s' n, s.eliminateAll vs = .ok (s', n) ∧ Shrinks s s' ∧ (n = 0 → s' = s) := by
  obtain ⟨⟨s', n⟩, hok, hs⟩ := (h.eliminateAll vs).exists_ok fun f ⟨v, hv, hcon, _⟩ => by
    rw [hvs v hv] at hcon
    cases hcon
  exact ⟨s', n, hok, hs⟩

/-! ## Presolving -/

theorem mem_vars_iff {s : Theory} {v : Var} : v ∈ s.vars ↔ v.id < s.infos.size := by
  rw [vars, List.mem_map]
  constructor
  · rintro ⟨k, hk, rfl⟩
    exact List.mem_range.mp hk
  · intro h
    exact ⟨v.id, List.mem_range.mpr h, rfl⟩

/-- Materialising the variables of a list. -/
theorem Framed.materializeAll {s : Theory} (h : s.Framed) (vs : List Var)
    (hvs : ∀ v ∈ vs, v.id < s.infos.size) :
    ∃ s', vs.foldlM (fun (s : Theory) v => s.materialize v) s = .ok s' ∧ Grows s s' ∧
      Rearranged s s' ∧ ∀ u, s'.Active u → s.Active u ∨ u ∈ vs := by
  obtain ⟨s', hok, hgrows, hre, hactive, _⟩ :=
    Checked.exists_foldlM (f := fun (s : Theory) v => s.materialize v)
      (fun rest (b : Theory) => Grows s b ∧ Rearranged s b ∧
        (∀ u, b.Active u → s.Active u ∨ u ∈ vs) ∧ ∀ v ∈ rest, v ∈ vs)
      (by
        rintro v rest b ⟨hgrows, hre, hactive, hrest⟩
        have hv := hrest v List.mem_cons_self
        obtain ⟨b', hok, hgrows', hre', _, hactive'⟩ := hgrows.framed.materialize (v := v)
          (hre.size ▸ hvs v hv)
        refine ⟨b', hok, hgrows.trans hgrows', hre.trans hre', fun u hu => ?_,
          fun w hw => hrest w (List.mem_cons_of_mem _ hw)⟩
        rcases hactive' u hu with hu | rfl
        · exact hactive u hu
        · exact .inr hv)
      vs s ⟨.refl h, .refl s, fun _ => .inl, fun _ hv => hv⟩
  exact ⟨s', hok, hgrows, hre, hactive⟩

/-- The outcome of a presolve. -/
structure Presolved (s s' : Theory) : Prop where
  framed : s'.Framed
  rearranged : Rearranged s s'
  fresh : ∀ u, s'.Active u → s.Active u ∨ s.database.hasConstraints u = true
  eliminated : ∀ v ∈ s'.eliminated.map Prod.fst,
    v ∈ s.eliminated.map Prod.fst ∨ s.database.hasConstraints v = false
  balanced : s.Balanced → s'.Balanced
  committed : s'.simplex.model.Committed
  values : ∀ u, ¬ s.Dormant u → s'.simplex.model.valueOf u = s.simplex.model.valueOf u
  dormant : ∀ u, s'.Dormant u → s.Dormant u ∨ s.database.hasConstraints u = false
  current : s.Balanced → ∀ u, s.Active u → s'.currentOf u = s.currentOf u

/-- A committed state stays in order when it is committed again. -/
theorem Framed.commit {s : Theory} (h : s.Framed) :
    (s.setModel s.simplex.model.commit).Framed where
  coherent := ⟨h.coherent.tableau, by
    change _ = s.simplex.model.commit.numVariables
    rw [Model.numVariables_commit]
    exact h.coherent.room⟩
  room := by
    change s.simplex.model.commit.numVariables = _
    rw [Model.numVariables_commit]
    exact h.room
  definitions := h.definitions
  mentions := h.mentions
  eliminated := h.eliminated
  triangular := h.triangular
  apart := h.apart
  ejected := h.ejected
  values := by
    change s.simplex.tableau.Solves s.simplex.model.commit.valueOf
    rw [Model.valueOf_commit]
    exact h.values
  safe := by
    change s.simplex.tableau.Solves s.simplex.model.commit.safeOf
    rw [Model.safeOf_commit]
    exact h.values
  dormant u _ := Model.committed_commit _ u

/-- Committing the values leaves the other records alone. -/
theorem rearranged_commit (s : Theory) : Rearranged s (s.setModel s.simplex.model.commit) :=
  ⟨rfl, fun _ => rfl, rfl, rfl, rfl, rfl, rfl, rfl, rfl, rfl, rfl, Model.boundOf_commit _, rfl⟩

/-- Constrained slack variables were materialised, the values committed, and then variables
without constraints eliminated. -/
theorem Shrinks.presolved {s s₁ s' : Theory} (h : s.Framed) (hgrows : Grows s s₁)
    (hre : Rearranged s s₁)
    (hfresh : ∀ u, s₁.Active u → s.Active u ∨ s.database.hasConstraints u = true)
    (hs : Shrinks (s₁.setModel s₁.simplex.model.commit) s') : Presolved s s' where
  framed := hs.framed hgrows.framed.commit (Model.committed_commit _)
  rearranged := (hre.trans (rearranged_commit s₁)).trans hs.rearranged
  fresh u hu := hfresh u (hs.active_iff.mp hu)
  eliminated v hv := by
    rcases hs.eliminated v hv with hv | hv
    · exact .inl ((hgrows.sublist.map Prod.fst).subset hv)
    · exact .inr (hre.database ▸ hv)
  balanced hb := hs.balanced (hgrows.balanced hb)
  committed := by
    rw [hs.model]
    exact Model.committed_commit _
  values u hu := by
    rw [hs.model]
    change s₁.simplex.model.commit.valueOf u = _
    rw [Model.valueOf_commit]
    exact (hgrows.values u hu).1
  dormant u hu := by
    rcases hs.dormant u hu with hu | hu
    · exact .inl (hgrows.awake u hu)
    · exact .inr (hre.database ▸ hu)
  current hb u hu := by
    have hcommit : (s₁.setModel s₁.simplex.model.commit).currentOf = s₁.currentOf :=
      congrArg (Theory.extended · s₁.eliminated) (Model.valueOf_commit s₁.simplex.model)
    have hup := hgrows.upholds fun v r hr => (hre.definition? v).trans hr
    rw [hs.currentOf_eq hgrows.framed.commit, hcommit]
    exact hup.currentOf_eq h.toArranged hb hgrows.framed (hgrows.balanced hb) hu

/-- Presolving a state without open changes of values. -/
theorem Framed.presolve {s : Theory} (h : s.Framed) (hc : s.simplex.model.Committed) :
    ∃ s' n, s.presolve = .ok (s', n) ∧ Presolved s s' ∧ (n = 0 →
      ∀ u, ¬ s.Dormant u → s.simplex.Watches u → s'.simplex.Watches u) := by
  rw [Theory.presolve]
  cases hopt : s.options.eliminateUnconstrained with
  | false =>
    exact ⟨s, 0, rfl, ⟨h, .refl s, fun _ => .inl, fun _ => .inl, id, hc, fun _ _ => rfl,
      fun _ => .inl, fun _ _ _ => rfl⟩, fun _ _ _ hw => hw⟩
  | true =>
    obtain ⟨s₁, hok₁, hgrows, hre, hfresh⟩ := h.materializeAll
      (s.vars.filter fun v => s.isSlack v && s.database.hasConstraints v)
      fun v hv => mem_vars_iff.mp (List.mem_filter.mp hv).1
    let s₂ := s₁.setModel s₁.simplex.model.commit
    obtain ⟨s', n, hall, hs, hidle⟩ := hgrows.framed.commit.eliminateAll_of_unconstrained
      (s₂.vars.filter fun v =>
        !s₂.isSlack v && !s₂.database.hasConstraints v && !s₂.isEliminated v) fun v hv => by
      have hfree := (List.mem_filter.mp hv).2
      simp only [Bool.and_eq_true, Bool.not_eq_true'] at hfree
      exact hfree.1.2
    refine ⟨s', n, ?_, hs.presolved h hgrows hre fun u hu => ?_, fun hn u hu hw => ?_⟩
    · simp only [Bool.not_true, Bool.false_eq_true, if_false, hok₁, ok_bind]
      exact hall
    · refine (hfresh u hu).imp_right fun hmem => ?_
      exact (Bool.and_eq_true_iff.mp (List.mem_filter.mp hmem).2).2
    · -- no row has left
      rw [hidle hn]
      exact hgrows.watches u hu hw

end Theory

end LinearArithmetic
