import LinearArithmetic.Proofs.Elimination
import LinearArithmetic.Theory.Reset

/-!
# Rebuilding the rows

A reset drops all rows and adds them again one by one, each as the definition of its slack variable.
Rows of variables without bounds and disequalities are set aside. The rows are in order and in
balance on the way, whatever was there before.
-/

namespace LinearArithmetic

/-! ## Adding a row and setting it aside -/

namespace Tableau

/-- The second tableau has another row set aside, and otherwise the same rows. -/
structure Stows (v : Var) (r : Row) (t t' : Tableau) : Prop where
  consistent : t'.Consistent
  room : t'.numVariables = t.numVariables
  row? : ∀ u, t'.row? u = t.row? u
  ejected : ∀ u, t'.ejected.get? u = if u = v then some r else t.ejected.get? u

/-- A row that is set aside as soon as it has been added leaves the other rows as they were. -/
theorem Gains.eject {v : Var} {r : Row} {t t' : Tableau} (h : Gains v r t t')
    (hrow : t'.row? v = some r) (hfree : t.row? v = none) :
    ∃ t'', t'.eject v = .ok t'' ∧ Stows v r t t'' := by
  obtain ⟨u, hout, hu, hgone, _⟩ := h.consistent.uninstall hrow
  refine ⟨{ u with ejected := u.ejected.insert v r }, by rw [Tableau.eject, hout]; rfl,
    hu.withEjected _, hgone.room.trans h.room, fun w => ?_, fun w => ?_⟩
  · change u.row? w = t.row? w
    by_cases hwv : w = v
    · rw [hwv, hgone.row_self, hfree]
    · rw [hgone.row_of_ne hwv, h.row_of_ne w hwv]
  · change (u.ejected.insert v r).get? w = _
    rw [SortedMap.get?_insert, hgone.ejected, h.ejected]

section Stows

variable {v : Var} {r : Row} {t t' : Tableau} (h : Stows v r t t')

include h

theorem Stows.mentions {u : Var} (hu : t'.Mentions u) : t.Mentions u := by
  rcases hu with ⟨q, hq⟩ | ⟨w, q, hq, hqu⟩
  · exact .inl ⟨q, (h.row? u).symm.trans hq⟩
  · exact .inr ⟨w, q, (h.row? w).symm.trans hq, hqu⟩

theorem Stows.isEjected_iff {u : Var} :
    t'.isEjected u = true ↔ u = v ∨ t.isEjected u = true := by
  rw [isEjected, isEjected, SortedMap.contains_iff_exists, SortedMap.contains_iff_exists]
  simp only [h.ejected]
  by_cases huv : u = v <;> simp [huv]

end Stows

end Tableau

namespace Theory

/-! ## The slack variables whose rows are rebuilt -/

/-- The slack variables with bounds, or with an asserted disequality. -/
def needed (s : Theory) (excluded : List Var) : List Var :=
  (s.vars.filter s.isSlack).filter fun v =>
    (s.simplex.model.boundOf .lower v).isSome || (s.simplex.model.boundOf .upper v).isSome ||
      excluded.contains v

theorem mem_needed_iff {s : Theory} {excluded : List Var} {v : Var} :
    v ∈ s.needed excluded ↔ v.id < s.infos.size ∧ s.isSlack v = true ∧
      ((∃ side b, s.simplex.model.boundOf side v = some b) ∨ v ∈ excluded) := by
  rw [needed, List.mem_filter, List.mem_filter, mem_vars_iff, and_assoc]
  refine and_congr_right fun _ => and_congr_right fun _ => ?_
  rw [Bool.or_eq_true, Bool.or_eq_true, List.contains_iff_mem, Option.isSome_iff_exists,
    Option.isSome_iff_exists]
  refine or_congr_left ⟨?_, ?_⟩
  · rintro (⟨b, hb⟩ | ⟨b, hb⟩)
    · exact ⟨.lower, b, hb⟩
    · exact ⟨.upper, b, hb⟩
  · rintro ⟨side, b, hb⟩
    cases side with
    | lower => exact .inl ⟨b, hb⟩
    | upper => exact .inr ⟨b, hb⟩

theorem Rearranged.vars {s s' : Theory} (h : Rearranged s s') : s'.vars = s.vars := by
  rw [Theory.vars, Theory.vars, Arena.keys, Arena.keys, h.size]

theorem Rearranged.isSlack {s s' : Theory} (h : Rearranged s s') (v : Var) :
    s'.isSlack v = s.isSlack v := by
  rw [Theory.isSlack, Theory.isSlack, h.definition?]

theorem Rearranged.needed {s s' : Theory} (h : Rearranged s s') (excluded : List Var) :
    s'.needed excluded = s.needed excluded := by
  rw [Theory.needed, Theory.needed, h.vars, h.bounds, List.filter_congr fun v _ => h.isSlack v]

theorem neededSlacks_eq_ok {s : Theory} (hroom : s.simplex.model.numVariables = s.infos.size)
    {excluded : List Var} (hex : s.excludedVars = .ok excluded) :
    s.neededSlacks = .ok (s.needed excluded) := by
  rw [neededSlacks, hex, ok_bind]
  refine Checked.filterM_eq_ok fun v hv => ?_
  have hlt : v.id < s.simplex.model.numVariables := by
    rw [hroom]
    exact mem_vars_iff.mp (List.mem_filter.mp hv).1
  rw [Model.hasBounds_eq_ok hlt]
  rfl

/-- The slack variables whose rows have been materialised or are set aside. -/
def withRow (s : Theory) : List Var :=
  (s.vars.filter s.isSlack).filter fun v =>
    (s.infos.get? v.id).any (·.materialized) || s.simplex.tableau.isEjected v

theorem slacksWithRow_eq_ok (s : Theory) : s.slacksWithRow = .ok s.withRow := by
  refine Checked.filterM_eq_ok fun v hv => ?_
  obtain ⟨i, hi⟩ := Arena.get?_isSome (mem_vars_iff.mp (List.mem_filter.mp hv).1)
  rw [info, Arena.get_eq_ok hi, hi]
  rfl

theorem mem_withRow_iff {s : Theory} {v : Var} :
    v ∈ s.withRow ↔ v.id < s.infos.size ∧ s.isSlack v = true ∧
      (s.Active v ∨ s.simplex.tableau.isEjected v = true) := by
  rw [withRow, List.mem_filter, List.mem_filter, mem_vars_iff, and_assoc]
  refine and_congr_right fun _ => and_congr_right fun hslack => ?_
  rw [Bool.or_eq_true, Option.any_eq_true]
  refine or_congr_left ⟨fun ⟨i, hi, hm⟩ => ⟨i, hi, .inr hm⟩, fun ⟨i, hi, hd⟩ => ⟨i, hi, ?_⟩⟩
  refine hd.resolve_left fun hleaf => ?_
  rw [isSlack, definition?_eq, hi, Option.bind_some, hleaf] at hslack
  cases hslack

/-- The slack variables whose rows a reset rebuilds, in order. -/
def rowsToRebuild (s : Theory) (needed : List Var) : List Var :=
  s.vars.filter fun v => needed.contains v || s.withRow.contains v

theorem mem_rowsToRebuild_iff {s : Theory} {needed : List Var} {v : Var} :
    v ∈ s.rowsToRebuild needed ↔ v.id < s.infos.size ∧ (v ∈ needed ∨ v ∈ s.withRow) := by
  rw [rowsToRebuild, List.mem_filter, mem_vars_iff, Bool.or_eq_true, List.contains_iff_mem,
    List.contains_iff_mem]

/-! ## The state without rows -/

/-- The theory without rows, and without marks of materialised rows. -/
def unbuilt (s : Theory) : Theory :=
  { s.setTableau s.simplex.tableau.clear with
    eliminated := []
    infos := s.infos.map fun i => { i with materialized := false } }

theorem get?_unbuilt (s : Theory) (k : Nat) :
    s.unbuilt.infos.get? k = (s.infos.get? k).map fun i => { i with materialized := false } :=
  Arena.get?_map _ _ _

theorem rearranged_unbuilt (s : Theory) : Rearranged s s.unbuilt where
  options := rfl
  infos k := by
    rw [get?_unbuilt]
    cases s.infos.get? k <;> rfl
  leaves := rfl
  slacks := rfl
  constantAtoms := rfl
  database := rfl
  pending := rfl
  processed := rfl
  disequalities := rfl
  propagations := rfl
  trail := rfl
  bounds := rfl
  lemmas := rfl

theorem active_unbuilt {s : Theory} {v : Var} (h : s.unbuilt.Active v) : s.IsLeaf v := by
  obtain ⟨i, hi, hd⟩ := h
  rw [get?_unbuilt] at hi
  obtain ⟨j, hj, rfl⟩ := Option.map_eq_some_iff.mp hi
  rcases hd with hd | hd
  · exact ⟨j, hj, hd⟩
  · cases hd

theorem Arranged.unbuilt {s : Theory} (h : s.Arranged) : s.unbuilt.Arranged where
  coherent := by
    refine ⟨Tableau.consistent_clear _, ?_⟩
    change s.simplex.tableau.clear.numVariables = s.simplex.model.numVariables
    rw [Tableau.numVariables_clear]
    exact h.coherent.room
  room := h.room.trans (rearranged_unbuilt s).size.symm
  definitions u r hr w hw := (rearranged_unbuilt s).isLeaf
    (h.definitions u r (((rearranged_unbuilt s).definition? u).symm.trans hr) w hw)
  mentions u hu := by
    rcases hu with ⟨r, hr⟩ | ⟨b, r, hr, _⟩ <;>
    · change s.simplex.tableau.clear.row? _ = some r at hr
      rw [Tableau.row?_clear] at hr
      cases hr
  eliminated e he := absurd he List.not_mem_nil
  triangular := ⟨.nil, fun e he => absurd he List.not_mem_nil⟩
  apart e he := absurd he List.not_mem_nil
  ejected u r hr := by cases hr

theorem balanced_unbuilt (s : Theory) : s.unbuilt.Balanced := by
  intro M _ _ σ
  constructor
  · rintro - v i r hi - hm
    rw [get?_unbuilt] at hi
    obtain ⟨j, _, rfl⟩ := Option.map_eq_some_iff.mp hi
    cases hm
  · intro _
    refine ⟨fun b r hr => ?_, fun e he => absurd he List.not_mem_nil⟩
    change s.simplex.tableau.clear.row? b = some r at hr
    rw [Tableau.row?_clear] at hr
    cases hr

/-! ## Rebuilding the rows -/

/-- A state on the way to rebuilt rows: every row is the definition of its slack variable. -/
structure Rebuilding (vs slacks rest : List Var) (s b : Theory) : Prop where
  listed : ∀ v ∈ rest, v ∈ slacks
  arranged : b.Arranged
  balanced : b.Balanced
  rearranged : Rearranged s b
  model : b.simplex.model = s.simplex.model
  suspects : b.simplex.suspects = s.simplex.suspects
  eliminated : b.eliminated = []
  rows : ∀ u q, b.simplex.tableau.row? u = some q → b.definition? u = some q
  active : ∀ u, b.Active u → s.IsLeaf u ∨ u ∈ vs ∧ u ∉ rest
  ejected : ∀ u, b.simplex.tableau.isEjected u = true ↔
    (u ∈ slacks ∧ u ∉ rest) ∧ u ∉ vs ∧ s.isSlack u = true
  done : ∀ u, u ∈ vs → u ∉ rest → s.isSlack u = true → b.Active u

/-- Rebuilding starts without rows. -/
theorem Arranged.rebuilding {s : Theory} (h : s.Arranged) (vs slacks : List Var)
    (hvs : ∀ v ∈ vs, v ∈ slacks) : Rebuilding vs slacks slacks s s.unbuilt where
  listed _ hv := hv
  arranged := h.unbuilt
  balanced := balanced_unbuilt s
  rearranged := rearranged_unbuilt s
  model := rfl
  suspects := rfl
  eliminated := rfl
  rows u q hq := by
    change s.simplex.tableau.clear.row? u = some q at hq
    rw [Tableau.row?_clear] at hq
    cases hq
  active u hu := .inl (active_unbuilt hu)
  ejected u := ⟨fun hu => (by cases hu), fun hu => absurd hu.1.1 hu.1.2⟩
  done u hu hnot := absurd (hvs u hu) hnot

/-- A new row is the definition, since leaves have no rows yet. -/
theorem Rebuilding.expand_eq {vs slacks rest : List Var} {s b : Theory}
    (h : Rebuilding vs slacks rest s b) {v : Var} {r : Row} (hdef : b.definition? v = some r) :
    b.simplex.tableau.expand r.entries = r := by
  refine Tableau.expand_of_nonbasic fun u hu => ?_
  by_contra hne
  obtain ⟨q, hq⟩ := Option.ne_none_iff_exists'.mp hne
  exact not_isLeaf_of_definition? (h.rows u q hq) (h.arranged.definitions v r hdef u hu)

theorem Rebuilding.not_active {vs slacks rest : List Var} {s b : Theory} {v : Var}
    (h : Rebuilding vs slacks (v :: rest) s b) {r : Row} (hdef : b.definition? v = some r) :
    ¬ b.Active v := by
  intro hact
  rcases h.active v hact with hleaf | ⟨_, hc⟩
  · exact not_isLeaf_of_definition? hdef (h.rearranged.isLeaf hleaf)
  · exact hc List.mem_cons_self

theorem Rebuilding.isEjected_eq_false {vs slacks rest : List Var} {s b : Theory} {v : Var}
    (h : Rebuilding vs slacks (v :: rest) s b) : b.simplex.tableau.isEjected v = false := by
  rw [← Bool.not_eq_true, h.ejected]
  exact fun hc => hc.1.2 List.mem_cons_self

/-- No row is set aside for a variable whose row is needed, or for one without a definition. -/
theorem Rebuilding.ejected_iff {vs slacks rest : List Var} {s b : Theory} {v : Var}
    (h : Rebuilding vs slacks (v :: rest) s b) (hv : v ∈ vs ∨ s.isSlack v = false) (u : Var) :
    b.simplex.tableau.isEjected u = true ↔
      (u ∈ slacks ∧ u ∉ rest) ∧ u ∉ vs ∧ s.isSlack u = true := by
  rw [h.ejected, List.mem_cons, not_or]
  constructor
  · rintro ⟨⟨hs, -, hrest⟩, haside⟩
    exact ⟨⟨hs, hrest⟩, haside⟩
  · rintro ⟨⟨hs, hrest⟩, hnot, hslack⟩
    refine ⟨⟨hs, ?_, hrest⟩, hnot, hslack⟩
    rintro rfl
    rcases hv with hv | hv
    · exact hnot hv
    · rw [hv] at hslack
      cases hslack

/-- The row of a slack variable can be added to rows that are being rebuilt. -/
theorem Rebuilding.gains {vs slacks rest : List Var} {s b : Theory} {v : Var}
    (h : Rebuilding vs slacks (v :: rest) s b) {r : Row} (hdef : b.definition? v = some r) :
    ∃ t, b.simplex.tableau.addRow v r.entries = .ok t ∧
      Tableau.Gains v r b.simplex.tableau t ∧ t.row? v = some r := by
  have hnot := h.not_active hdef
  have hactive : ∀ u, r.contains u = true → b.Active u := fun u hu =>
    (h.arranged.definitions v r hdef u hu).active
  have hlt : v.id < b.infos.size := lt_of_definition? hdef
  have hne : ∀ u, r.contains u = true → u ≠ v := by
    rintro u hu rfl
    exact hnot (hactive u hu)
  obtain ⟨t, hadd, ht⟩ := h.arranged.coherent.tableau.gains (r := r) (by rwa [h.arranged.room'])
    (h.arranged.not_mentions_of_dormant (.inl hnot)) h.isEjected_eq_false fun u hu =>
      ⟨hne u hu, by rw [h.arranged.room']; exact (hactive u hu).lt⟩
  exact ⟨t, hadd, ht, by rw [ht.row, h.expand_eq hdef]⟩

/-- The row of a needed slack variable stays in the tableau. -/
theorem Rebuilding.keep {vs slacks rest : List Var} {s b : Theory} {v : Var}
    (h : Rebuilding vs slacks (v :: rest) s b) (hrest : v ∉ rest) (hv : v ∈ vs) {r : Row}
    (hdef : b.definition? v = some r) {t : Tableau}
    (ht : Tableau.Gains v r b.simplex.tableau t) (hrow : t.row? v = some r) :
    Rebuilding vs slacks rest s
      ((b.setTableau t).updateInfo v fun i => { i with materialized := true }) := by
  let x : Simplex := { b.simplex with tableau := t }
  change Rebuilding vs slacks rest s { b.materialized v with simplex := x }
  have htab : (b.materialized v).simplex.tableau = b.simplex.tableau :=
    Tableau.erase_ejected_of_not h.isEjected_eq_false
  have hlt : v.id < b.infos.size := lt_of_definition? hdef
  have hactive : ∀ u, ({ b.materialized v with simplex := x } : Theory).Active u ↔
      b.Active u ∨ u = v ∧ v.id < b.infos.size := fun u => active_materialized
  have hre : Rearranged b { b.materialized v with simplex := x } := by
    have := rearranged_materialized b v
    exact ⟨this.options, this.infos, this.leaves, this.slacks, this.constantAtoms,
      this.database, this.pending, this.processed, this.disequalities, this.propagations, rfl,
      rfl, rfl⟩
  refine ⟨fun u hu => h.listed u (List.mem_cons_of_mem _ hu), ?_, ?_, h.rearranged.trans hre,
    h.model, h.suspects, h.eliminated, fun u q hq => ?_, fun u hu => ?_, fun u => ?_,
    fun u hu hur hs => ?_⟩
  · refine (h.arranged.materialized v).gains (by rw [htab]; exact ht) rfl
      (active_materialized.mpr (.inr ⟨rfl, hlt⟩)) ?_ fun u hu =>
        ⟨active_materialized.mpr (.inl (h.arranged.definitions v r hdef u hu).active), ?_⟩ <;>
    · change _ ∉ b.eliminated.map Prod.fst
      rw [h.eliminated]
      exact List.not_mem_nil
  · intro M _ _ σ
    have hbal := h.balanced M σ
    unfold Solves at hbal ⊢
    change t.Solves σ ∧ Solved b.eliminated σ ↔ (b.materialized v).Defined σ
    rw [ht.solves_iff, and_right_comm, hbal, defined_materialized hdef]
  · rw [hre.definition?]
    change t.row? u = some q at hq
    by_cases huv : u = v
    · subst huv
      rw [hrow] at hq
      rw [hdef, hq]
    · rw [ht.row_of_ne u huv] at hq
      exact h.rows u q hq
  · rcases (hactive u).mp hu with hu | ⟨rfl, _⟩
    · exact (h.active u hu).imp_right (And.imp_right List.not_mem_of_not_mem_cons)
    · exact .inr ⟨hv, hrest⟩
  · change t.ejected.contains u = true ↔ _
    rw [ht.ejected]
    exact h.ejected_iff (.inl hv) u
  · by_cases huv : u = v
    · exact (hactive u).mpr (.inr ⟨huv, hlt⟩)
    · have hnot := List.not_mem_cons_of_ne_of_not_mem huv hur
      exact (hactive u).mpr (.inl (h.done u hu hnot hs))

/-- The row of any other slack variable is set aside. -/
theorem Rebuilding.setAside {vs slacks rest : List Var} {s b : Theory} {v : Var}
    (h : Rebuilding vs slacks (v :: rest) s b) (hrest : v ∉ rest) (hv : v ∉ vs) {r : Row}
    (hdef : b.definition? v = some r) {t : Tableau}
    (ht : Tableau.Gains v r b.simplex.tableau t) (hrow : t.row? v = some r) :
    ∃ t', t.eject v = .ok t' ∧ Rebuilding vs slacks rest s (b.setTableau t') := by
  have ha := h.arranged
  have hre := h.rearranged
  have hnot := h.not_active hdef
  have hfree : b.simplex.tableau.row? v = none :=
    Tableau.row?_of_not_mentions (ha.not_mentions_of_dormant (.inl hnot))
  have hslack : s.isSlack v = true := by
    rw [isSlack, ← hre.definition?, hdef]
    rfl
  obtain ⟨t', hok, hs⟩ := ht.eject hrow hfree
  refine ⟨t', hok, fun u hu => h.listed u (List.mem_cons_of_mem _ hu), ?_, ?_,
    ⟨hre.options, hre.infos, hre.leaves, hre.slacks, hre.constantAtoms, hre.database, hre.pending,
      hre.processed, hre.disequalities, hre.propagations, hre.trail, hre.bounds, hre.lemmas⟩,
    h.model, h.suspects, h.eliminated, fun u q hq => h.rows u q ((hs.row? u).symm.trans hq),
    fun u hu => (h.active u hu).imp_right (And.imp_right List.not_mem_of_not_mem_cons),
    fun u => ?_, fun u hu hur hslack' => ?_⟩
  · exact {
      coherent := ⟨hs.consistent, hs.room.trans ha.coherent.room⟩
      room := ha.room
      definitions := ha.definitions
      mentions := fun u hu => ha.mentions u (hs.mentions hu)
      eliminated := ha.eliminated
      triangular := ha.triangular
      apart := fun e he hm => ha.apart e he (hs.mentions hm)
      ejected := fun u q hq => by
        change t'.ejected.get? u = some q at hq
        rw [hs.ejected] at hq
        split at hq
        · rename_i huv
          subst huv
          rw [← Option.some.inj hq]
          exact ⟨hdef, hnot⟩
        · exact ha.ejected u q hq }
  · intro M _ _ σ
    refine Iff.trans (and_congr_left fun _ => ?_) (h.balanced M σ)
    change (∀ w q, t'.row? w = some q → _) ↔ _
    simp only [hs.row?]
    rfl
  · change t'.isEjected u = true ↔ _
    rw [hs.isEjected_iff, h.ejected, List.mem_cons, not_or]
    constructor
    · rintro (rfl | ⟨⟨hu, -, hur⟩, haside⟩)
      · exact ⟨⟨h.listed u List.mem_cons_self, hrest⟩, hv, hslack⟩
      · exact ⟨⟨hu, hur⟩, haside⟩
    · rintro ⟨⟨hu, hur⟩, haside⟩
      by_cases huv : u = v
      · exact .inl huv
      · exact .inr ⟨⟨hu, huv, hur⟩, haside⟩
  · have huv : u ≠ v := ne_of_mem_of_not_mem hu hv
    exact h.done u hu (List.not_mem_cons_of_ne_of_not_mem huv hur) hslack'

/-- The rebuilt row of a slack variable, in the tableau or set aside. -/
theorem Rebuilding.rebuildRow {vs slacks rest : List Var} {s b : Theory} {v : Var}
    (h : Rebuilding vs slacks (v :: rest) s b) (hrest : v ∉ rest) :
    ∃ b', rebuildRow vs b v = .ok b' ∧ Rebuilding vs slacks rest s b' := by
  cases hdef : b.definition? v with
  | none =>
    have hslack : s.isSlack v = false := by
      rw [isSlack, ← h.rearranged.definition?, hdef]
      rfl
    refine ⟨b, by rw [Theory.rebuildRow, hdef]; rfl, ⟨fun u hu => h.listed u
      (List.mem_cons_of_mem _ hu), h.arranged, h.balanced, h.rearranged, h.model, h.suspects,
      h.eliminated, h.rows, fun u hu => ?_, h.ejected_iff (.inr hslack), fun u hu hur hs => ?_⟩⟩
    · exact (h.active u hu).imp_right (And.imp_right List.not_mem_of_not_mem_cons)
    · have huv : u ≠ v := by
        rintro rfl
        rw [hslack] at hs
        cases hs
      exact h.done u hu (List.not_mem_cons_of_ne_of_not_mem huv hur) hs
  | some r =>
    obtain ⟨t, hadd, ht, hrow⟩ := h.gains hdef
    rw [Theory.rebuildRow, hdef]
    simp only [hadd, ok_bind]
    by_cases hv : v ∈ vs
    · refine ⟨_, ?_, h.keep hrest hv hdef ht hrow⟩
      rw [List.contains_iff_mem.mpr hv]
      rfl
    · obtain ⟨t', hej, hb'⟩ := h.setAside hrest hv hdef ht hrow
      refine ⟨_, ?_, hb'⟩
      rw [if_neg fun hc => hv (List.contains_iff_mem.mp hc), hej]
      rfl

/-- The rebuilt rows of the slack variables of a list. -/
theorem Rebuilding.rebuildAll {vs slacks : List Var} {s b : Theory}
    (h : Rebuilding vs slacks slacks s b) (hnodup : slacks.Nodup) :
    ∃ b', slacks.foldlM (Theory.rebuildRow vs) b = .ok b' ∧ Rebuilding vs slacks [] s b' := by
  obtain ⟨b', hok, hb', _⟩ := Checked.exists_foldlM (f := Theory.rebuildRow vs)
    (fun rest b => Rebuilding vs slacks rest s b ∧ rest.Nodup)
    (by
      rintro v rest b ⟨hb, hn⟩
      obtain ⟨hv, hrest⟩ := List.nodup_cons.mp hn
      obtain ⟨b', hok, hb'⟩ := hb.rebuildRow hv
      exact ⟨b', hok, hb', hrest⟩)
    slacks b ⟨h, hnodup⟩
  exact ⟨b', hok, hb'⟩

theorem nodup_vars (s : Theory) : s.vars.Nodup := by
  refine List.Nodup.map ?_ List.nodup_range
  intro a b hab
  exact congrArg Var.id hab

/-- Once all rows are back, values that fit the definitions fit the rows. -/
theorem Rebuilding.rows_hold {s b : Theory} {vs slacks : List Var}
    (h : Rebuilding vs slacks [] s b) (hact : ∀ v ∈ vs, s.Active v) {σ : Var → DeltaRat}
    (hσ : s.Defined σ) {v : Var} {r : Row}
    (hr : b.simplex.tableau.row? v = some r) : σ v = r.eval σ := by
  have hdef : s.definition? v = some r := (h.rearranged.definition? v).symm.trans (h.rows v r hr)
  have hslack := not_isLeaf_of_definition? hdef
  obtain ⟨i, hi, hir⟩ := definition?_eq_some_iff.mp hdef
  -- a variable with a row is not a leaf, and so one of those that were active before
  have hv : v ∈ vs := by
    rcases h.active v (h.arranged.mentions v (.inl ⟨r, hr⟩)) with hleaf | ⟨hv, _⟩
    · exact absurd hleaf hslack
    · exact hv
  obtain ⟨k, hk, hkd⟩ := hact v hv
  obtain rfl := Option.some.inj (hi.symm.trans hk)
  apply hσ v i r hi hir
  exact hkd.resolve_left fun hleaf => hslack ⟨i, hi, hleaf⟩

/-- A variable that is dormant once all rows are back is neither a leaf nor one of those whose rows
are kept. -/
theorem Rebuilding.of_dormant {s b : Theory} {vs slacks : List Var}
    (h : Rebuilding vs slacks [] s b) (hvs : ∀ v ∈ vs, s.isSlack v = true) {u : Var}
    (hu : b.Dormant u) : ¬ s.IsLeaf u ∧ u ∉ vs := by
  have hnot : ¬ b.Active u := by
    refine hu.resolve_right fun hmem => ?_
    rw [h.eliminated] at hmem
    cases hmem
  constructor
  · intro hleaf
    exact hnot (h.rearranged.isLeaf hleaf).active
  · intro hv
    exact hnot (h.done u hv List.not_mem_nil (hvs u hv))

end Theory

end LinearArithmetic
