import LinearArithmetic.Proofs.Eliminated
import LinearArithmetic.Proofs.SimplexBounds
import LinearArithmetic.Theory.Elimination

/-!
# The rows of the theory

A variable is active if it stands for a leaf or its row has been materialised. The tableau and the
rows of eliminated variables mention active variables alone, the latter form a triangular system
over variables that the tableau does not mention, and both the current and the committed values
satisfy the tableau.
-/

namespace LinearArithmetic

namespace Simplex

/-- The simplex state after it got a row for `v`, and `v` the values of the row. -/
structure Gains (v : Var) (r : Row) (x x' : Simplex) : Prop where
  tableau : Tableau.Gains v r x.tableau x'.tableau
  room : x'.model.numVariables = x.model.numVariables
  values : x'.model.valueOf = Function.update x.model.valueOf v (r.eval x.model.valueOf)
  safe : x'.model.safeOf = Function.update x.model.safeOf v (r.eval x.model.safeOf)
  saved : ∀ u, u ≠ v → x'.model.savedOf u = x.model.savedOf u
  committed : r.eval x.model.valueOf = r.eval x.model.safeOf → x'.model.savedOf v = none
  trail : x'.model.trail = x.model.trail
  bounds : x'.model.boundOf = x.model.boundOf
  lemmas : x'.lemmas = x.lemmas
  suspects : ∀ u, x.suspects.contains u = true → x'.suspects.contains u = true

/-- Any other variable that was basic and marked still is. -/
theorem Gains.watches {v : Var} {r : Row} {x x' : Simplex} (h : Gains v r x x') {u : Var}
    (huv : u ≠ v) (hu : x.Watches u) : x'.Watches u := by
  obtain ⟨⟨q, hq⟩, hmark⟩ := hu
  exact ⟨⟨q, (h.tableau.row_of_ne u huv).trans hq⟩, h.suspects u hmark⟩

theorem Gains.values_of_ne {v : Var} {r : Row} {x x' : Simplex} (h : Gains v r x x') {u : Var}
    (hu : u ≠ v) : x'.model.valueOf u = x.model.valueOf u ∧
      x'.model.safeOf u = x.model.safeOf u := by
  rw [h.values, h.safe, Function.update_of_ne hu, Function.update_of_ne hu]
  exact ⟨rfl, rfl⟩

/-- The value of a row of committed values is committed. -/
theorem Gains.commits {v : Var} {r : Row} {x x' : Simplex} (h : Gains v r x x')
    (hc : x.model.Committed) : x'.model.Committed := by
  intro u
  by_cases hu : u = v
  · rw [hu]
    exact h.committed (by rw [hc.safeOf_eq])
  · exact (h.saved u hu).trans (hc u)

end Simplex

namespace Theory

/-! ## Variables by their role -/

/-- The variable stands for a leaf. -/
def IsLeaf (s : Theory) (v : Var) : Prop :=
  ∃ i, s.infos.get? v.id = some i ∧ i.definition = none

/-- The variable stands for a leaf, or it is a slack variable whose row has been materialised. -/
def Active (s : Theory) (v : Var) : Prop :=
  ∃ i, s.infos.get? v.id = some i ∧ (i.definition = none ∨ i.materialized = true)

/-- The variable is not active, or it is eliminated: no value of it is kept. -/
def Dormant (s : Theory) (v : Var) : Prop := ¬ s.Active v ∨ v ∈ s.eliminated.map Prod.fst

theorem IsLeaf.active {s : Theory} {v : Var} (h : s.IsLeaf v) : s.Active v :=
  h.imp fun _ hi => ⟨hi.1, .inl hi.2⟩

theorem Active.lt {s : Theory} {v : Var} (h : s.Active v) : v.id < s.infos.size := by
  obtain ⟨i, hi, _⟩ := h
  exact Arena.lt_size_of_get? hi

theorem definition?_eq (s : Theory) (v : Var) :
    s.definition? v = (s.infos.get? v.id).bind (·.definition) := rfl

theorem definition?_eq_some_iff {s : Theory} {v : Var} {r : Row} :
    s.definition? v = some r ↔ ∃ i, s.infos.get? v.id = some i ∧ i.definition = some r := by
  rw [definition?_eq, Option.bind_eq_some_iff]

theorem lt_of_definition? {s : Theory} {v : Var} {r : Row} (h : s.definition? v = some r) :
    v.id < s.infos.size := by
  obtain ⟨i, hi, _⟩ := definition?_eq_some_iff.mp h
  exact Arena.lt_size_of_get? hi

/-- A leaf is not a slack variable. -/
theorem not_isLeaf_of_definition? {s : Theory} {v : Var} {r : Row}
    (h : s.definition? v = some r) : ¬ s.IsLeaf v := by
  rintro ⟨i, hi, hleaf⟩
  rw [definition?_eq, hi, Option.bind_some, hleaf] at h
  cases h

theorem isEliminated_iff {s : Theory} {v : Var} :
    s.isEliminated v = true ↔ v ∈ s.eliminated.map Prod.fst := by
  rw [isEliminated, List.lookup_isSome_iff]
  simp only [List.mem_map, beq_iff_eq]
  exact exists_congr fun e => and_congr_right fun _ => eq_comm

/-! ## Equations -/

section Equations

variable {M : Type} [AddCommGroup M] [Module ℚ M]

/-- The rows of the tableau and those of the eliminated variables hold. -/
def Solves (s : Theory) (σ : Var → M) : Prop :=
  s.simplex.tableau.Solves σ ∧ Solved s.eliminated σ

/-- Every slack variable whose row has been materialised equals its definition. -/
def Defined (s : Theory) (σ : Var → M) : Prop :=
  ∀ v i r, s.infos.get? v.id = some i → i.definition = some r → i.materialized = true →
    σ v = r.eval σ

end Equations

/-- The rows hold exactly when the definitions of the materialised slack variables do. -/
def Balanced (s : Theory) : Prop :=
  ∀ (M : Type) [AddCommGroup M] [Module ℚ M] (σ : Var → M), s.Solves σ ↔ s.Defined σ

/-! ## The invariant -/

/-- The rows are in order. -/
structure Arranged (s : Theory) : Prop where
  coherent : s.simplex.Coherent
  room : s.simplex.model.numVariables = s.infos.size
  definitions : ∀ v r, s.definition? v = some r → ∀ u, r.contains u = true → s.IsLeaf u
  mentions : ∀ v, s.simplex.tableau.Mentions v → s.Active v
  eliminated : ∀ e ∈ s.eliminated, s.Active e.1 ∧ ∀ u, e.2.contains u = true → s.Active u
  triangular : Triangular s.eliminated
  apart : ∀ e ∈ s.eliminated, ¬ s.simplex.tableau.Mentions e.1
  ejected : ∀ v r, s.simplex.tableau.ejected.get? v = some r →
    s.definition? v = some r ∧ ¬ s.Active v

/-- The rows are in order, and the values satisfy them. -/
structure Framed (s : Theory) : Prop extends Arranged s where
  values : s.simplex.tableau.Solves s.simplex.model.valueOf
  safe : s.simplex.tableau.Solves s.simplex.model.safeOf
  dormant : ∀ v, s.Dormant v → s.simplex.model.savedOf v = none

theorem Arranged.room' {s : Theory} (h : s.Arranged) :
    s.simplex.tableau.numVariables = s.infos.size :=
  h.coherent.room.trans h.room

theorem Arranged.lt_model {s : Theory} (h : s.Arranged) {v : Var} (hv : s.Active v) :
    v.id < s.simplex.model.numVariables := by
  rw [h.room]
  exact hv.lt

/-- The tableau mentions no eliminated variable. -/
theorem Arranged.not_mem_of_mentions {s : Theory} (h : s.Arranged) {v : Var}
    (hv : s.simplex.tableau.Mentions v) : v ∉ s.eliminated.map Prod.fst := by
  intro hmem
  obtain ⟨e, he, rfl⟩ := List.mem_map.mp hmem
  exact h.apart e he hv

/-- A dormant variable is mentioned nowhere. -/
theorem Arranged.not_mentions_of_dormant {s : Theory} (h : s.Arranged) {v : Var}
    (hv : s.Dormant v) : ¬ s.simplex.tableau.Mentions v := by
  intro hm
  rcases hv with hv | hv
  · exact hv (h.mentions v hm)
  · exact h.not_mem_of_mentions hm hv

/-- A solution of the tableau extends to eliminated variables. -/
theorem Arranged.solves_extended {M : Type} [AddCommGroup M] [Module ℚ M] {s : Theory}
    (h : s.Arranged) {σ : Var → M} (hσ : s.simplex.tableau.Solves σ) :
    s.Solves (extended σ s.eliminated) :=
  ⟨hσ.congr fun _ hv => (extended_of_not_mem (h.not_mem_of_mentions hv) σ).symm,
    h.triangular.solved_extended σ⟩

/-- The order of the rows depends on the rows and the variables alone. -/
theorem Arranged.congr {s s' : Theory} (h : s.Arranged) (hinfos : s'.infos = s.infos)
    (htab : s'.simplex.tableau = s.simplex.tableau)
    (hroom : s'.simplex.model.numVariables = s.simplex.model.numVariables)
    (helim : s'.eliminated = s.eliminated) : s'.Arranged where
  coherent := by
    refine ⟨htab ▸ h.coherent.tableau, ?_⟩
    rw [htab, hroom, h.coherent.room]
  room := by rw [hroom, hinfos, h.room]
  definitions := by
    unfold definition? IsLeaf
    rw [hinfos]
    exact h.definitions
  mentions := by
    unfold Active
    rw [htab, hinfos]
    exact h.mentions
  eliminated := by
    unfold Active
    rw [helim, hinfos]
    exact h.eliminated
  triangular := helim ▸ h.triangular
  apart := by
    rw [helim, htab]
    exact h.apart
  ejected := by
    unfold definition? Active
    rw [htab, hinfos]
    exact h.ejected

/-- The balance depends on the rows and the variables alone. -/
theorem Balanced.congr {s s' : Theory} (h : s.Balanced) (hinfos : s'.infos = s.infos)
    (htab : s'.simplex.tableau = s.simplex.tableau) (helim : s'.eliminated = s.eliminated) :
    s'.Balanced := by
  intro M _ _ σ
  have hσ := h M σ
  unfold Solves Defined at hσ ⊢
  rw [htab, hinfos, helim]
  exact hσ

theorem dormant_congr {s s' : Theory} (hinfos : s'.infos = s.infos)
    (helim : s'.eliminated = s.eliminated) {v : Var} : s'.Dormant v ↔ s.Dormant v := by
  unfold Dormant Active
  rw [hinfos, helim]

/-! ## The variables that constraints ask for -/

/-- No constraint mentions an eliminated variable, and some constraint mentions every slack
variable whose row has been materialised. -/
structure Trimmed (s : Theory) : Prop where
  eliminated : ∀ v ∈ s.eliminated.map Prod.fst, s.database.hasConstraints v = false
  active : ∀ v, s.Active v → s.IsLeaf v ∨ s.database.hasConstraints v = true

theorem Trimmed.congr {s s' : Theory} (h : s.Trimmed) (hinfos : s'.infos = s.infos)
    (helim : s'.eliminated = s.eliminated)
    (hcon : ∀ v, s'.database.hasConstraints v = s.database.hasConstraints v) : s'.Trimmed where
  eliminated v hv := by
    rw [helim] at hv
    rw [hcon]
    exact h.eliminated v hv
  active v := by
    unfold Active IsLeaf
    rw [hinfos, hcon]
    exact h.active v

/-- Rows of other variables come only for variables with constraints, and go only for ones
without. -/
theorem Trimmed.step {s s' : Theory} (h : s.Trimmed) (hdb : s'.database = s.database)
    (hleaf : ∀ v, s.IsLeaf v → s'.IsLeaf v)
    (helim : ∀ v ∈ s'.eliminated.map Prod.fst,
      v ∈ s.eliminated.map Prod.fst ∨ s.database.hasConstraints v = false)
    (hactive : ∀ v, s'.Active v →
      s.Active v ∨ s'.IsLeaf v ∨ s.database.hasConstraints v = true) : s'.Trimmed where
  eliminated v hv := by
    rw [hdb]
    exact (helim v hv).elim (h.eliminated v) id
  active v hv := by
    rw [hdb]
    rcases hactive v hv with hv | hv
    · exact (h.active v hv).imp_left (hleaf v)
    · exact hv

/-- Only variables of leaves are eliminated. -/
theorem Trimmed.isLeaf {s : Theory} (h : s.Trimmed) (ha : s.Arranged) {v : Var}
    (hv : v ∈ s.eliminated.map Prod.fst) : s.IsLeaf v := by
  obtain ⟨e, he, rfl⟩ := List.mem_map.mp hv
  refine (h.active e.1 (ha.eliminated e he).1).resolve_right fun hc => ?_
  rw [h.eliminated e.1 hv] at hc
  cases hc

/-! ## What moving rows leaves alone -/

/-- What is kept for a variable, but for the mark of a materialised row. -/
def content (i : VarInfo) : Term × Option Row := (i.term, i.definition)

/-- Everything but rows, values and the marks of materialised rows is as before. -/
structure Rearranged (s s' : Theory) : Prop where
  options : s'.options = s.options
  infos : ∀ k, (s'.infos.get? k).map content = (s.infos.get? k).map content
  leaves : s'.leaves = s.leaves
  slacks : s'.slacks = s.slacks
  constantAtoms : s'.constantAtoms = s.constantAtoms
  database : s'.database = s.database
  pending : s'.pending = s.pending
  processed : s'.processed = s.processed
  disequalities : s'.disequalities = s.disequalities
  propagations : s'.propagations = s.propagations
  trail : s'.simplex.model.trail = s.simplex.model.trail
  bounds : s'.simplex.model.boundOf = s.simplex.model.boundOf
  lemmas : s'.simplex.lemmas = s.simplex.lemmas

theorem Rearranged.refl (s : Theory) : Rearranged s s :=
  ⟨rfl, fun _ => rfl, rfl, rfl, rfl, rfl, rfl, rfl, rfl, rfl, rfl, rfl, rfl⟩

theorem Rearranged.trans {s₁ s₂ s₃ : Theory} (h : Rearranged s₁ s₂) (k : Rearranged s₂ s₃) :
    Rearranged s₁ s₃ where
  options := k.options.trans h.options
  infos n := (k.infos n).trans (h.infos n)
  leaves := k.leaves.trans h.leaves
  slacks := k.slacks.trans h.slacks
  constantAtoms := k.constantAtoms.trans h.constantAtoms
  database := k.database.trans h.database
  pending := k.pending.trans h.pending
  processed := k.processed.trans h.processed
  disequalities := k.disequalities.trans h.disequalities
  propagations := k.propagations.trans h.propagations
  trail := k.trail.trans h.trail
  bounds := k.bounds.trans h.bounds
  lemmas := k.lemmas.trans h.lemmas

theorem Rearranged.gains {s s' : Theory} (h : Rearranged s s') {v : Var} {r : Row} {x : Simplex}
    (hx : Simplex.Gains v r s'.simplex x) : Rearranged s { s' with simplex := x } :=
  ⟨h.options, h.infos, h.leaves, h.slacks, h.constantAtoms, h.database, h.pending, h.processed,
    h.disequalities, h.propagations, hx.trail.trans h.trail, hx.bounds.trans h.bounds,
    hx.lemmas.trans h.lemmas⟩

theorem Rearranged.definition? {s s' : Theory} (h : Rearranged s s') (v : Var) :
    s'.definition? v = s.definition? v := by
  have hv := congrArg (fun o => o.bind Prod.snd) (h.infos v.id)
  rw [Option.bind_map, Option.bind_map] at hv
  exact hv

theorem Rearranged.size {s s' : Theory} (h : Rearranged s s') : s'.infos.size = s.infos.size := by
  have hle : ∀ {a b : Arena VarInfo},
      (∀ k, (a.get? k).map content = (b.get? k).map content) → a.size ≤ b.size := by
    intro a b hab
    rw [← Arena.get?_eq_none_iff]
    have hk := hab b.size
    rw [Arena.get?_eq_none_iff.mpr (Nat.le_refl _)] at hk
    exact Option.map_eq_none_iff.mp hk
  exact Nat.le_antisymm (hle h.infos) (hle fun k => (h.infos k).symm)

theorem Rearranged.isLeaf {s s' : Theory} (h : Rearranged s s') {v : Var} (hv : s.IsLeaf v) :
    s'.IsLeaf v := by
  obtain ⟨i, hi, hd⟩ := hv
  have hk := h.infos v.id
  rw [hi] at hk
  obtain ⟨j, hj, hji⟩ := Option.map_eq_some_iff.mp hk
  exact ⟨j, hj, (Prod.mk.inj hji).2.trans hd⟩

/-! ## A new row -/

/-- Adding the row of a variable that no row mentions, in terms of other variables. -/
theorem addRow_spec {s : Theory} (hcoh : s.simplex.Coherent)
    (hval : s.simplex.tableau.Solves s.simplex.model.valueOf)
    (hsafe : s.simplex.tableau.Solves s.simplex.model.safeOf) {v : Var} {r : Row}
    (hv : v.id < s.simplex.model.numVariables) (hfree : ¬ s.simplex.tableau.Mentions v)
    (hej : s.simplex.tableau.isEjected v = false)
    (hr : ∀ u, r.contains u = true → u ≠ v ∧ u.id < s.simplex.model.numVariables)
    (hsaved : s.simplex.model.savedOf v = none) :
    ∃ x, s.addRow v r = .ok { s with simplex := x } ∧ Simplex.Gains v r s.simplex x := by
  obtain ⟨t, hok, ht⟩ := hcoh.tableau.gains (r := r) (by rwa [hcoh.room]) hfree hej
    (by rwa [hcoh.room])
  have heval : ∀ (σ : Var → DeltaRat), s.simplex.tableau.Solves σ →
      (s.simplex.tableau.expand r.entries).eval σ = r.eval σ := by
    intro σ hσ
    rw [Tableau.eval_expand hσ, ← Row.eval_ofList, Row.ofList_entries]
  have hlt : ∀ u, (s.simplex.tableau.expand r.entries).contains u = true →
      u.id < s.simplex.model.numVariables := by
    intro u hu
    rw [← hcoh.room, ← ht.room]
    exact ht.consistent.inRange ht.row hu
  have hcurrent : (s.setTableau t).simplex.currentRowValue v =
      .ok (r.eval s.simplex.model.valueOf) := by
    have hcoh' : (s.setTableau t).simplex.Coherent := ⟨ht.consistent, ht.room.trans hcoh.room⟩
    rw [hcoh'.grounded.currentRowValue_eq_ok ht.row]
    exact congrArg _ (heval _ hval)
  have hsafeRow : (s.setTableau t).simplex.safeRowValue v =
      .ok (r.eval s.simplex.model.safeOf) := by
    rw [Simplex.safeRowValue]
    simp only [setTableau, Tableau.row_eq_ok ht.row, ok_bind]
    rw [Row.valueUnder_eq_ok fun u hu => Model.safeValue_eq_ok (hlt u hu), heval _ hsafe]
  obtain ⟨m, hmok, hmroom, hmtrail, hmval, hmsafe, hmbounds, hmsaved, hmnew⟩ :=
    Model.introduce_spec hv hsaved (r.eval s.simplex.model.valueOf) (r.eval s.simplex.model.safeOf)
  refine ⟨({ s.simplex with tableau := t, model := m } : Simplex).mark v, ?_, ?_⟩
  · rw [addRow, hok, ok_bind, valueNewBasic, hcurrent, ok_bind, hsafeRow, ok_bind]
    simp only [setTableau, hmok]
    rfl
  · exact ⟨ht, hmroom, hmval, hmsafe, hmsaved, hmnew, hmtrail, hmbounds, rfl,
      fun u hu => Simplex.contains_mark.mpr (.inr hu)⟩

/-- A row for an active variable that is not eliminated, over such variables, keeps the rows in
order. -/
theorem Arranged.gains {s : Theory} (h : s.Arranged) {v : Var} {r : Row} {x : Simplex}
    (ht : Tableau.Gains v r s.simplex.tableau x.tableau)
    (hroom : x.model.numVariables = s.simplex.model.numVariables) (hv : s.Active v)
    (hve : v ∉ s.eliminated.map Prod.fst)
    (hr : ∀ u, r.contains u = true → s.Active u ∧ u ∉ s.eliminated.map Prod.fst) :
    ({ s with simplex := x } : Theory).Arranged := by
  have hmention : ∀ u, x.tableau.Mentions u → s.Active u ∧ u ∉ s.eliminated.map Prod.fst := by
    intro u hu
    rcases ht.mentions u hu with hm | rfl | hm
    · exact ⟨h.mentions u hm, h.not_mem_of_mentions hm⟩
    · exact ⟨hv, hve⟩
    · exact hr u hm
  exact {
    coherent := ⟨ht.consistent, ht.room.trans (h.coherent.room.trans hroom.symm)⟩
    room := hroom.trans h.room
    definitions := h.definitions
    mentions := fun u hu => (hmention u hu).1
    eliminated := h.eliminated
    triangular := h.triangular
    apart := fun e he hm => (hmention e.1 hm).2 (List.mem_map.mpr ⟨e, he, rfl⟩)
    ejected := fun u q hq => h.ejected u q (by rwa [← ht.ejected]) }

/-- The row of `v` may enter the tableau: no row mentions `v`, and all variables are active and not
eliminated. -/
structure Enters (v : Var) (r : Row) (s : Theory) : Prop where
  active : s.Active v
  kept : v ∉ s.eliminated.map Prod.fst
  free : ¬ s.simplex.tableau.Mentions v
  set : s.simplex.tableau.isEjected v = false
  saved : s.simplex.model.savedOf v = none
  row : ∀ u, r.contains u = true → u ≠ v ∧ s.Active u ∧ u ∉ s.eliminated.map Prod.fst

/-- The values of such a row satisfy it. -/
theorem Framed.gains {s : Theory} (h : s.Framed) {v : Var} {r : Row} {x : Simplex}
    (hx : Simplex.Gains v r s.simplex x) (he : s.Enters v r) :
    ({ s with simplex := x } : Theory).Framed := by
  have hupdate : ∀ σ : Var → DeltaRat, s.simplex.tableau.Solves σ →
      x.tableau.Solves (Function.update σ v (r.eval σ)) := by
    intro σ hσ
    refine (hx.tableau.solves_iff _ _).mpr ⟨hσ.congr fun u hu => ?_, ?_⟩
    · rw [Function.update_of_ne]
      rintro rfl
      exact he.free hu
    · rw [Function.update_self]
      refine Row.eval_congr fun u hu => ?_
      rw [Function.update_of_ne (he.row u hu).1]
  exact {
    toArranged := h.toArranged.gains hx.tableau hx.room he.active he.kept fun u hu =>
      (he.row u hu).2
    values := by
      change x.tableau.Solves x.model.valueOf
      rw [hx.values]
      exact hupdate _ h.values
    safe := by
      change x.tableau.Solves x.model.safeOf
      rw [hx.safe]
      exact hupdate _ h.safe
    dormant := fun u hu => by
      have huv : u ≠ v := by
        rintro rfl
        rcases hu with hu | hu
        · exact hu he.active
        · exact he.kept hu
      exact (hx.saved u huv).trans (h.dormant u hu) }

/-- Such a row can be added, in any theory with this simplex state. -/
theorem Framed.enters {s s₀ : Theory} (h : s.Framed) {v : Var} {r : Row} (he : s.Enters v r)
    (hs₀ : s₀.simplex = s.simplex) :
    ∃ x, s₀.addRow v r = .ok { s₀ with simplex := x } ∧ Simplex.Gains v r s.simplex x ∧
      ({ s with simplex := x } : Theory).Framed := by
  obtain ⟨x, hadd, hx⟩ := addRow_spec (s := s₀) (hs₀ ▸ h.coherent) (hs₀ ▸ h.values)
    (hs₀ ▸ h.safe) (hs₀ ▸ h.lt_model he.active) (hs₀ ▸ he.free) (hs₀ ▸ he.set)
    (fun u hu => ⟨(he.row u hu).1, hs₀ ▸ h.lt_model (he.row u hu).2.1⟩) (hs₀ ▸ he.saved)
  rw [hs₀] at hx
  exact ⟨x, hadd, hx, h.gains hx he⟩

end Theory

end LinearArithmetic
