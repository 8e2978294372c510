import LinearArithmetic.Proofs.Equations
import LinearArithmetic.Theory.Unwinding

/-!
# No cycles among eliminated variables

The row of an eliminated variable mentions only eliminated variables that stand before it in the
list, those eliminated later. So following rows never comes back to a variable, and it takes at most
as many steps as there are eliminated variables. Bringing a variable back takes its row away first,
and takes no more steps for that reason.
-/

namespace LinearArithmetic

namespace Row

theorem rationalUnder_congr {r : Row} {value value' : Var → Checked ℚ}
    (h : ∀ u, r.contains u = true → value u = value' u) :
    r.rationalUnder value = r.rationalUnder value' := by
  unfold rationalUnder
  apply foldlM_congr_left
  intro e he sum
  rw [h e.1 (contains_of_mem_entries he)]

/-- It makes no difference whether a number is substituted in the value of a row or in those of its
variables. -/
theorem rationalUnder_substitute (d : ℚ) (value : Var → Checked DeltaRat) (r : Row) :
    r.rationalUnder (fun u => DeltaRat.substitute d <$> value u) =
      DeltaRat.substitute d <$> r.valueUnder value := by
  have hzero : (0 : ℚ) = DeltaRat.substitute d 0 := ((DeltaRat.substituteHom d).map_zero).symm
  unfold rationalUnder valueUnder
  rw [hzero]
  apply Checked.foldlM_map
  intro sum e
  have hadd : ∀ x : DeltaRat, (sum + x.scale e.2).substitute d =
      sum.substitute d + e.2 * x.substitute d := by
    intro x
    have hscale := (DeltaRat.substituteHom d).map_smul e.2 x
    exact ((DeltaRat.substituteHom d).map_add _ _).trans (congrArg _ hscale)
  dsimp only
  cases value e.1 with
  | error f => rfl
  | ok x => exact congrArg Except.ok (hadd x).symm

end Row

namespace Theory

/-! ## The order of the rows -/

theorem lookup_eq_none_iff_not_mem {l : List (Var × Row)} {v : Var} :
    l.lookup v = none ↔ v ∉ l.map Prod.fst := by
  rw [List.lookup_eq_none_iff, List.mem_map]
  simp only [bne_iff_ne, not_exists, not_and]
  exact forall₂_congr fun _ _ => ne_comm

theorem mem_of_lookup {l : List (Var × Row)} {v : Var} {r : Row} (h : l.lookup v = some r) :
    v ∈ l.map Prod.fst := by
  by_contra hnot
  rw [lookup_eq_none_iff_not_mem.mpr hnot] at h
  cases h

/-- An eliminated variable that a row mentions stands before the row. -/
theorem Triangular.idxOf_lt {l : List (Var × Row)} (h : Triangular l) {v u : Var} {r : Row}
    (hr : l.lookup v = some r) (hu : r.contains u = true) (hmem : u ∈ l.map Prod.fst) :
    (l.map Prod.fst).idxOf u < (l.map Prod.fst).idxOf v := by
  obtain ⟨newer, older, rfl, -⟩ := List.lookup_eq_some_iff.mp hr
  have hbetween := h.between
  have hv : v ∉ newer.map Prod.fst := by
    intro hv
    apply hbetween.not_mem
    simp only [List.map_append, List.mem_append, hv, true_or]
  have hnewer : u ∈ newer.map Prod.fst := by
    simp only [List.map_append, List.map_cons, List.mem_append, List.mem_cons] at hmem
    rcases hmem with hmem | heq | hmem
    · exact hmem
    · exact absurd heq (hbetween.ne hu)
    · exact absurd hmem (hbetween.not_mem_older hu)
  rw [List.map_append, List.idxOf_append_of_mem hnewer, List.idxOf_append_of_notMem hv]
  have := List.idxOf_lt_length_of_mem hnewer
  omega

theorem Triangular.idxOf_lt_of_restsOn {s : Theory} (h : Triangular s.eliminated) {v u : Var}
    (hrest : s.RestsOn v u) :
    (s.eliminated.map Prod.fst).idxOf u < (s.eliminated.map Prod.fst).idxOf v := by
  obtain ⟨r, hr, hu, hmem⟩ := hrest
  exact h.idxOf_lt hr hu (isEliminated_iff.mp hmem)

/-- Along rows, the place in the list goes down. -/
theorem Triangular.acyclic {s : Theory} (h : Triangular s.eliminated) (v : Var) :
    ¬ Relation.TransGen s.RestsOn v v := by
  have hdown : ∀ {u}, Relation.TransGen s.RestsOn v u →
      (s.eliminated.map Prod.fst).idxOf u < (s.eliminated.map Prod.fst).idxOf v := by
    intro u hpath
    induction hpath with
    | single hrest => exact h.idxOf_lt_of_restsOn hrest
    | tail _ hrest ih => exact (h.idxOf_lt_of_restsOn hrest).trans ih
  intro hcycle
  exact lt_irrefl _ (hdown hcycle)

/-! ## Values -/

section Unwind

variable {α : Type} {own : Var → Checked α} {ofRow : (Var → Checked α) → Row → Checked α}
  {l : List (Var × Row)} {result : Var → Checked α} (h : Triangular l)
  (hcongr : ∀ (r : Row) (f g : Var → Checked α), (∀ u, r.contains u = true → f u = g u) →
    ofRow f r = ofRow g r)
  (hown : ∀ v, l.lookup v = none → result v = own v)
  (hrow : ∀ v r, l.lookup v = some r → result v = ofRow result r)

include h hcongr hown hrow

/-- What satisfies the equations of a recursion is what it finds, if its limit is beyond the place
of the variable. -/
theorem Triangular.unwind_eq_of_idxOf_lt (n : Nat) (v : Var)
    (hn : v ∈ l.map Prod.fst → (l.map Prod.fst).idxOf v < n) :
    unwind own ofRow l (n + 1) v = result v := by
  induction n generalizing v with
  | zero =>
    have hnone : l.lookup v = none := by
      rw [lookup_eq_none_iff_not_mem]
      intro hmem
      exact absurd (hn hmem) (Nat.not_lt_zero _)
    rw [hown v hnone, unwind, hnone]
  | succ n ih =>
    rw [unwind]
    cases hr : l.lookup v with
    | none => exact (hown v hr).symm
    | some r =>
      rw [hrow v r hr]
      apply hcongr
      intro u hu
      apply ih
      intro hmem
      have hbefore := h.idxOf_lt hr hu hmem
      have := hn (mem_of_lookup hr)
      omega

/-- Every place is within the list, so a limit beyond its length does for all variables. -/
theorem Triangular.unwind_eq {n : Nat} (hn : l.length < n) (v : Var) :
    unwind own ofRow l n v = result v := by
  obtain ⟨m, rfl⟩ : ∃ m, n = m + 1 := ⟨n - 1, by omega⟩
  apply h.unwind_eq_of_idxOf_lt hcongr hown hrow
  intro hmem
  have hplace := List.idxOf_lt_length_of_mem hmem
  rw [List.length_map] at hplace
  omega

end Unwind

/-- Going through the list once, from the row eliminated last, gives each variable the value that
its row has in the end. -/
theorem Triangular.extendValues_of_lookup {value : Var → Checked DeltaRat} {l : List (Var × Row)}
    (h : Triangular l) {v : Var} {r : Row} (hv : l.lookup v = some r) :
    extendValues value l v = r.valueUnder (extendValues value l) := by
  induction l generalizing value with
  | nil => cases hv
  | cons e older ih =>
    obtain ⟨w, q⟩ := e
    have hbetween : Between w q [] older := h.between
    simp only [extendValues]
    by_cases hvw : v = w
    · subst hvw
      rw [List.lookup_cons_self] at hv
      obtain rfl := Option.some.inj hv
      rw [extendValues_of_not_mem (l := older) hbetween.not_mem, if_pos rfl]
      apply Row.valueUnder_congr
      intro u hu
      rw [extendValues_of_not_mem (hbetween.not_mem_older hu), if_neg (hbetween.ne hu)]
    · have hbeq : (v == w) = false := beq_eq_false_iff_ne.mpr hvw
      rw [List.lookup_cons, hbeq] at hv
      exact ih (h.sublist (List.sublist_cons_self _ _)) hv

theorem Triangular.valueToDepth_eq {s : Theory} (h : Triangular s.eliminated) {n : Nat}
    (hn : s.eliminated.length < n) (v : Var) : s.valueToDepth n v = s.value v :=
  h.unwind_eq (fun _ _ _ => Row.valueUnder_congr)
    (fun _ hu => extendValues_of_not_mem (lookup_eq_none_iff_not_mem.mp hu) _)
    (fun _ _ hr => h.extendValues_of_lookup hr) hn v

/-- What the value of a variable goes back to has a value to a smaller depth. -/
theorem exists_valueToDepth_of_transGen {s : Theory} {n : Nat} {v u : Var} {x : DeltaRat}
    (hv : s.valueToDepth n v = .ok x) (h : Relation.TransGen s.RestsOn v u) :
    ∃ m < n, ∃ y, s.valueToDepth m u = .ok y := by
  have hstep : ∀ {n v u x}, s.valueToDepth n v = .ok x → s.RestsOn v u →
      ∃ m < n, ∃ y, s.valueToDepth m u = .ok y := by
    intro n v u x hv hrest
    obtain ⟨r, hr, hu, -⟩ := hrest
    cases n with
    | zero => cases hv
    | succ n =>
      rw [valueToDepth, unwind, hr] at hv
      exact ⟨n, Nat.lt_succ_self n, Row.exists_ok_of_valueUnder hv hu⟩
  induction h with
  | single hrest => exact hstep hv hrest
  | tail _ hrest ih =>
    obtain ⟨m, hm, y, hy⟩ := ih
    obtain ⟨k, hk, hz⟩ := hstep hy hrest
    exact ⟨k, hk.trans hm, hz⟩

/-- On a cycle no depth is enough, so the recursion ends only where there is none. -/
theorem not_transGen_of_valueToDepth {s : Theory} {n : Nat} {v : Var} {x : DeltaRat}
    (hv : s.valueToDepth n v = .ok x) : ¬ Relation.TransGen s.RestsOn v v := by
  intro hcycle
  induction n using Nat.strong_induction_on generalizing x with
  | _ n ih =>
    obtain ⟨m, hm, y, hy⟩ := exists_valueToDepth_of_transGen hv hcycle
    exact ih m hm hy

theorem Triangular.rationalToDepth_eq {s : Theory} (h : Triangular s.eliminated) (d : ℚ) {n : Nat}
    (hn : s.eliminated.length < n) (v : Var) :
    s.rationalToDepth d n v = DeltaRat.substitute d <$> s.value v := by
  apply h.unwind_eq (fun _ _ _ => Row.rationalUnder_congr) _ _ hn
  · intro u hu
    rw [value, extendValues_of_not_mem (lookup_eq_none_iff_not_mem.mp hu)]
    exact map_eq_pure_bind _ _
  · intro u r hr
    rw [Row.rationalUnder_substitute, value, h.extendValues_of_lookup hr]

/-! ## Coming back -/

theorem addRow_keeps_eliminated (v : Var) (r : Row) (s : Theory) :
    Checked.Meets (fun _ => True) (fun s' : Theory => s'.eliminated = s.eliminated)
      (s.addRow v r) := by
  cases h : s.addRow v r with
  | error f => trivial
  | ok s' =>
    simp only [addRow, valueNewBasic, bind_eq_ok, pure_eq_ok] at h
    obtain ⟨t, -, current, -, safe, -, m, -, hs'⟩ := h
    rw [← Except.ok.inj hs']
    rfl

theorem length_filter_lt {l : List (Var × Row)} {v : Var} {r : Row} (h : l.lookup v = some r) :
    (l.filter fun e => decide (e.1 ≠ v)).length < l.length := by
  obtain ⟨e, he, rfl⟩ := List.mem_map.mp (mem_of_lookup h)
  exact List.length_filter_lt_length_iff_exists.mpr ⟨e, he, by simp⟩

/-- Bringing a variable back eliminates none. -/
theorem reinstateWithin_shortens (n : Nat) (v : Var) (s : Theory) :
    Checked.Meets (fun _ => True)
      (fun s' : Theory => s'.eliminated.length ≤ s.eliminated.length)
      (s.reinstateWithin n v) := by
  induction n generalizing s v with
  | zero => exact le_refl s.eliminated.length
  | succ n ih =>
    rw [reinstateWithin]
    cases hr : s.eliminated.lookup v with
    | none => exact le_refl s.eliminated.length
    | some r =>
      have hshorter := length_filter_lt hr
      have hfold := Checked.meets_foldlM (E := fun _ => True)
        (f := fun s u => reinstateWithin n u s)
        (fun _ b => b.eliminated.length < s.eliminated.length)
        (fun u _ b hb => (ih u b).mono fun b' hb' => hb'.trans_lt hb) r.vars
        { s with eliminated := s.eliminated.filter fun e => e.1 ≠ v } hshorter
      refine hfold.bind ?_
      intro b hb
      refine (addRow_keeps_eliminated v r b).mono ?_
      intro s' hs'
      rw [hs']
      exact hb.le

/-- A row is taken away before those of its variables are looked for, so a limit on the depth that
is beyond the number of rows is not met. -/
theorem reinstateToDepth_eq {m n : Nat} {s : Theory} (hm : s.eliminated.length < m)
    (hn : s.eliminated.length ≤ n) (v : Var) : s.reinstateToDepth m v = s.reinstateWithin n v := by
  induction m generalizing n s v with
  | zero => omega
  | succ m ih =>
    rw [reinstateToDepth]
    cases hr : s.eliminated.lookup v with
    | none =>
      cases n with
      | zero => rfl
      | succ n => simp only [reinstateWithin, hr]
    | some r =>
      have hshorter := length_filter_lt hr
      obtain ⟨k, rfl⟩ : ∃ k, n = k + 1 := ⟨n - 1, by omega⟩
      simp only [reinstateWithin, hr]
      rw [foldlM_congr_of (g := fun s u => reinstateWithin k u s)
        (fun b => b.eliminated.length < s.eliminated.length) ?_ ?_ hshorter]
      · intro u _ b hb
        exact ih (by omega) (by omega) u
      · intro u _ b b' hb hok
        exact ((reinstateWithin_shortens k u b).of_ok hok).trans_lt hb

/-! ## The states of a run -/

/-- No path along rows of eliminated variables comes back, the tableau knows no eliminated variable,
and so the recursions along rows end, with what the list of the rows gives. -/
structure Unwinds (s : Theory) : Prop where
  acyclic : ∀ v, ¬ Relation.TransGen s.RestsOn v v
  apart : ∀ v, s.isEliminated v = true → s.simplex.tableau.isBasic v = false ∧
    ∀ b r, s.simplex.tableau.row? b = some r → r.contains v = false
  values : ∀ n, s.eliminated.length < n → ∀ v, s.valueToDepth n v = s.value v
  rationals : ∀ d n, s.eliminated.length < n → ∀ v,
    s.rationalToDepth d n v = DeltaRat.substitute d <$> s.value v
  valued : ∀ v : Var, v.id < s.infos.size → ∃ x, s.value v = .ok x
  reinstates : ∀ n, s.eliminated.length < n → ∀ v, s.reinstateToDepth n v = s.reinstate v
  reinstated : ∀ v, ∃ s', s.reinstate v = .ok s' ∧ s'.isEliminated v = false

theorem Framed.unwinds {s : Theory} (h : s.Framed) : s.Unwinds where
  acyclic := h.triangular.acyclic
  apart v hv := by
    have hnot : ¬ s.simplex.tableau.Mentions v := fun hm =>
      h.not_mem_of_mentions hm (isEliminated_iff.mp hv)
    constructor
    · rw [Tableau.isBasic_eq_false_iff, Option.eq_none_iff_forall_ne_some]
      intro r hr
      exact hnot (.inl ⟨r, hr⟩)
    · intro b r hr
      rw [← Bool.not_eq_true]
      intro hu
      exact hnot (.inr ⟨b, r, hr, hu⟩)
  values _ hn v := h.triangular.valueToDepth_eq hn v
  rationals d _ hn v := h.triangular.rationalToDepth_eq d hn v
  valued v hv := ⟨s.currentOf v, h.value_eq_ok rfl (fun _ _ => rfl) hv⟩
  reinstates _ hn v := reinstateToDepth_eq hn (le_refl _) v
  reinstated v := by
    obtain ⟨s', hok, -, hback⟩ := h.reinstate v
    refine ⟨s', hok, ?_⟩
    rw [← Bool.not_eq_true]
    intro hmem
    exact hback (isEliminated_iff.mp hmem)

/-- In every state of a run, and in every state that a check goes through, the rows of eliminated
variables can be followed to their end. -/
theorem unwinds_of_run {o : Options} {ops : List Operation} {as : List Answer} {s s' : Theory}
    (hrun : (start o).run ops = .ok (s, as)) (hstage : Stage s s') : s'.Unwinds :=
  (hstage.sane (running_of_run hrun).sane).framed.unwinds

/-- The presolver eliminates `x` through a row with `y`, and then `y`. The second bound on `x + y`
brings both back, and afterwards `y` is eliminated through a row with `z`, and then `z`. -/
def eliminatedAgain : List Operation :=
  [.assert (.rel .le (.sum [.var "x", .var "y"]) (.const 1)),
    .assert (.rel .le (.sum [.var "x", .var "z"]) (.const 1)), .presolve,
    .assert (.rel .le (.sum [.var "x", .var "y"]) (.const 2)), .check .full,
    .eliminate ⟨1⟩, .eliminate ⟨3⟩]

theorem unwinds_of_eliminatedAgain :
    ∃ s as, (start {}).run eliminatedAgain = .ok (s, as) ∧ s.RestsOn ⟨1⟩ ⟨3⟩ ∧ Stage s s ∧
      s.Unwinds := by
  have h : ((start {}).run eliminatedAgain >>= fun p => Except.ok
      (((p.1.eliminated.lookup ⟨1⟩).any fun r => r.contains ⟨3⟩), p.1.isEliminated ⟨3⟩)) =
      .ok (true, true) := by decide +kernel
  obtain ⟨⟨s, as⟩, hrun, hfound⟩ := bind_eq_ok.mp h
  obtain ⟨hrow, helim⟩ := Prod.mk.inj (Except.ok.inj hfound)
  obtain ⟨r, hr, hu⟩ := (Option.any_eq_true _ _).mp hrow
  exact ⟨s, as, hrun, ⟨r, hr, hu, helim⟩, .start, unwinds_of_run hrun .start⟩

end Theory

end LinearArithmetic
