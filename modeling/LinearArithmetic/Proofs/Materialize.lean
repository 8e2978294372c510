import LinearArithmetic.Proofs.Valuation

/-!
# Rows that come back

Reinstating and materialising variables keep the rows in order. Reinstating a variable changes no
solution, and materialising a slack variable adds exactly its definition.
-/

namespace LinearArithmetic.Theory

/-! ## Reinstating variables -/

/-- The outcome of reinstating variables. -/
structure Returned (s s' : Theory) : Prop where
  framed : s'.Framed
  infos : s'.infos = s.infos
  rearranged : Rearranged s s'
  sublist : s'.eliminated.Sublist s.eliminated
  ejected : s'.simplex.tableau.ejected = s.simplex.tableau.ejected
  solves_iff : ∀ (M : Type) [AddCommGroup M] [Module ℚ M] (σ : Var → M), s'.Solves σ ↔ s.Solves σ
  values : ∀ u, ¬ s.Dormant u → s'.simplex.model.valueOf u = s.simplex.model.valueOf u ∧
    s'.simplex.model.safeOf u = s.simplex.model.safeOf u
  saved : ∀ u, ¬ s.Dormant u → s'.simplex.model.savedOf u = s.simplex.model.savedOf u
  committed : s.simplex.model.Committed → s'.simplex.model.Committed
  watches : ∀ u, ¬ s.Dormant u → s.simplex.Watches u → s'.simplex.Watches u

theorem Returned.refl {s : Theory} (h : s.Framed) : Returned s s :=
  ⟨h, rfl, .refl s, .refl _, rfl, fun _ _ _ _ => .rfl, fun _ _ => ⟨rfl, rfl⟩,
    fun _ _ => rfl, id, fun _ _ h => h⟩

theorem Returned.active_iff {s s' : Theory} (h : Returned s s') {u : Var} :
    s'.Active u ↔ s.Active u := by
  unfold Active
  rw [h.infos]

theorem Returned.dormant {s s' : Theory} (h : Returned s s') {u : Var} (hu : s'.Dormant u) :
    s.Dormant u := by
  rcases hu with hu | hu
  · exact .inl fun ha => hu (h.active_iff.mpr ha)
  · exact .inr ((h.sublist.map Prod.fst).subset hu)

theorem Returned.trans {s₁ s₂ s₃ : Theory} (h : Returned s₁ s₂) (k : Returned s₂ s₃) :
    Returned s₁ s₃ where
  framed := k.framed
  infos := k.infos.trans h.infos
  rearranged := h.rearranged.trans k.rearranged
  sublist := k.sublist.trans h.sublist
  ejected := k.ejected.trans h.ejected
  solves_iff M _ _ σ := (k.solves_iff M σ).trans (h.solves_iff M σ)
  values u hu := by
    obtain ⟨hv, hs⟩ := h.values u hu
    obtain ⟨hv', hs'⟩ := k.values u fun hd => hu (h.dormant hd)
    exact ⟨hv'.trans hv, hs'.trans hs⟩
  saved u hu := (k.saved u fun hd => hu (h.dormant hd)).trans (h.saved u hu)
  committed hc := k.committed (h.committed hc)
  watches u hu hw := k.watches u (fun hd => hu (h.dormant hd)) (h.watches u hu hw)

/-- Forgetting the rows of eliminated variables leaves everything else alone. -/
theorem rearranged_forget (s : Theory) (l : List (Var × Row)) :
    Rearranged s { s with eliminated := l } :=
  ⟨rfl, fun _ => rfl, rfl, rfl, rfl, rfl, rfl, rfl, rfl, rfl, rfl, rfl, rfl⟩

/-- Setting the row of an eliminated variable free. -/
theorem Framed.forget {s : Theory} (h : s.Framed) {l : List (Var × Row)}
    (hl : l.Sublist s.eliminated) : ({ s with eliminated := l } : Theory).Framed where
  coherent := h.coherent
  room := h.room
  definitions := h.definitions
  mentions := h.mentions
  eliminated e he := h.eliminated e (hl.subset he)
  triangular := h.triangular.sublist hl
  apart e he := h.apart e (hl.subset he)
  ejected := h.ejected
  values := h.values
  safe := h.safe
  dormant u hu := h.dormant u (hu.imp_right fun hm => (hl.map Prod.fst).subset hm)

theorem mem_keys_of_mem {l : List (Var × Row)} {e : Var × Row} (h : e ∈ l) :
    e.1 ∈ l.map Prod.fst := List.mem_map.mpr ⟨e, h, rfl⟩

theorem Arranged.isEjected_eq_false {s : Theory} (h : s.Arranged) {v : Var} (hv : s.Active v) :
    s.simplex.tableau.isEjected v = false := by
  rw [← Bool.not_eq_true]
  intro hej
  obtain ⟨r, hr⟩ := SortedMap.contains_iff_exists.mp hej
  exact (h.ejected v r hr).2 hv

/-- The second tableau mentions only what the first or one of the rows does. -/
def Draws (rows : List (Var × Row)) (t t' : Tableau) : Prop :=
  ∀ u, t'.Mentions u → t.Mentions u ∨ ∃ e ∈ rows, u = e.1 ∨ e.2.contains u = true

theorem Draws.refl (rows : List (Var × Row)) (t : Tableau) : Draws rows t t := fun _ => .inl

theorem Draws.mono {rows rows' : List (Var × Row)} {t t' : Tableau} (h : Draws rows t t')
    (hrows : rows ⊆ rows') : Draws rows' t t' := fun u hu =>
  (h u hu).imp_right fun hrow => hrow.imp fun _ he => ⟨hrows he.1, he.2⟩

theorem Draws.trans {rows : List (Var × Row)} {t₁ t₂ t₃ : Tableau} (h : Draws rows t₁ t₂)
    (k : Draws rows t₂ t₃) : Draws rows t₁ t₃ := fun u hu =>
  (k u hu).elim (h u) .inr

theorem draws_of_gains {v : Var} {r : Row} {t t' : Tableau} (h : Tableau.Gains v r t t') :
    Draws [(v, r)] t t' := fun u hu =>
  (h.mentions u hu).imp_right fun hrow => ⟨(v, r), List.mem_singleton.mpr rfl, hrow⟩

section Rejoin

variable {s s₁ : Theory} {v : Var} {r : Row} {newer older : List (Var × Row)}

/-- Only `v` wakes up when its row is forgotten. -/
theorem Framed.not_dormant_forget (h : s.Framed) (hl : s.eliminated = newer ++ (v, r) :: older)
    {u : Var} (hu : u = v ∨ ¬ s.Dormant u) :
    ¬ ({ s with eliminated := newer ++ older } : Theory).Dormant u := by
  have hactive : s.Active v := (h.eliminated (v, r) (by rw [hl]; simp)).1
  rintro (hd | hd)
  · rcases hu with rfl | hu
    · exact hd hactive
    · exact hu (.inl hd)
  · rcases hu with rfl | hu
    · exact (hl ▸ h.triangular).between.not_mem hd
    · have hsub : (newer ++ older).Sublist s.eliminated := by
        rw [hl]
        exact (List.Sublist.refl newer).append (List.sublist_cons_self _ _)
      exact hu (.inr ((hsub.map Prod.fst).subset hd))

/-- After the variables of its row are back, the row of `v` may enter the tableau. -/
theorem Framed.enters_of_returned (h : s.Framed) (hl : s.eliminated = newer ++ (v, r) :: older)
    (hret : Returned { s with eliminated := newer ++ older } s₁) {m : List (Var × Row)}
    (hm : s₁.eliminated = m ++ older) (hsub : m.Sublist newer)
    (hback : ∀ u, r.contains u = true → u ∉ m.map Prod.fst)
    (hdraws : Draws newer s.simplex.tableau s₁.simplex.tableau) : s₁.Enters v r := by
  have hbetween : Between v r newer older := (hl ▸ h.triangular).between
  have hmem : (v, r) ∈ s.eliminated := by rw [hl]; simp
  obtain ⟨hv, hr⟩ := h.eliminated _ hmem
  have hactive : s₁.Active v := hret.active_iff.mpr hv
  refine ⟨hactive, ?_, fun hmv => ?_, hret.framed.isEjected_eq_false hactive, ?_,
    fun u hu => ⟨?_, hret.active_iff.mpr (hr u hu), fun hmem => ?_⟩⟩
  · rw [hm]
    exact (hbetween.mono hsub).not_mem
  · rcases hdraws v hmv with hmv | ⟨e, he, hev | hev⟩
    · exact h.apart _ hmem hmv
    · exact (hbetween.newer e he).1 hev.symm
    · rw [(hbetween.newer e he).2] at hev
      cases hev
  · exact (hret.saved v (h.not_dormant_forget hl (.inl rfl))).trans
      (h.dormant v (.inr (mem_keys_of_mem hmem)))
  · rintro rfl
    rw [hbetween.self] at hu
    cases hu
  · rw [hm, List.map_append, List.mem_append] at hmem
    rcases hmem with hmem | hmem
    · exact hback u hu hmem
    · obtain ⟨e, he, rfl⟩ := List.mem_map.mp hmem
      rw [(hbetween.older e he).2] at hu
      cases hu

/-- The row that was forgotten and the one that has entered are the same. -/
theorem Returned.rejoin (h : s.Framed) (hl : s.eliminated = newer ++ (v, r) :: older)
    (hret : Returned { s with eliminated := newer ++ older } s₁) {x : Simplex}
    (hx : Simplex.Gains v r s₁.simplex x) (hframed : ({ s₁ with simplex := x } : Theory).Framed) :
    Returned s { s₁ with simplex := x } := by
  have hdormant : s.Dormant v := .inr (mem_keys_of_mem (e := (v, r)) (by rw [hl]; simp))
  have hne : ∀ u, ¬ s.Dormant u → u ≠ v := by
    rintro u hu rfl
    exact hu hdormant
  have hawake : ∀ u, ¬ s.Dormant u →
      ¬ ({ s with eliminated := newer ++ older } : Theory).Dormant u := fun u hu =>
    h.not_dormant_forget hl (.inr hu)
  exact {
    framed := hframed
    infos := hret.infos
    rearranged := ((rearranged_forget s _).trans hret.rearranged).gains hx
    sublist := by
      rw [hl]
      exact hret.sublist.trans ((List.Sublist.refl newer).append (List.sublist_cons_self _ _))
    ejected := hx.tableau.ejected.trans hret.ejected
    solves_iff := fun M _ _ σ => by
      have hiff := hret.solves_iff M σ
      unfold Solves at hiff ⊢
      dsimp only at hiff ⊢
      rw [hx.tableau.solves_iff, and_right_comm, hiff, hl, solved_middle, and_assoc]
    values := fun u hu => by
      obtain ⟨hvalue, hsafe⟩ := hx.values_of_ne (hne u hu)
      obtain ⟨hvalue₁, hsafe₁⟩ := hret.values u (hawake u hu)
      exact ⟨hvalue.trans hvalue₁, hsafe.trans hsafe₁⟩
    saved := fun u hu => (hx.saved u (hne u hu)).trans (hret.saved u (hawake u hu))
    committed := fun hc => hx.commits (hret.committed hc)
    watches := fun u hu hw => hx.watches (hne u hu) (hret.watches u (hawake u hu) hw) }

end Rejoin

/-- The outcome of reinstating `v`, whose row is a newer one if it has any. -/
structure Reinstates (v : Var) (newer older : List (Var × Row)) (s s' : Theory) : Prop where
  returned : Returned s s'
  kept : ∃ m, s'.eliminated = m ++ older ∧ m.Sublist newer ∧ v ∉ m.map Prod.fst
  draws : Draws newer s.simplex.tableau s'.simplex.tableau

/-- The variables of a row are back but for the rest, and none of the older rows was touched. -/
structure Clearing (r : Row) (newer older : List (Var × Row)) (s : Theory) (rest : List Var)
    (s' : Theory) : Prop where
  returned : Returned s s'
  vars : ∀ u ∈ rest, u ∈ r.vars
  kept : ∃ m, s'.eliminated = m ++ older ∧ m.Sublist newer ∧
    ∀ u ∈ r.vars, u ∉ rest → u ∉ m.map Prod.fst
  draws : Draws newer s.simplex.tableau s'.simplex.tableau

theorem Clearing.start {r : Row} {newer older : List (Var × Row)} {s : Theory} (h : s.Framed)
    (hl : s.eliminated = newer ++ older) : Clearing r newer older s r.vars s :=
  ⟨.refl h, fun _ hu => hu, ⟨newer, hl, .refl _, fun _ hu hnot => absurd hu hnot⟩, .refl _ _⟩

theorem Clearing.step {r : Row} {newer older m : List (Var × Row)} {s s₁ s₂ : Theory} {u : Var}
    {rest : List Var} (h : Clearing r newer older s (u :: rest) s₁) (hsub : m.Sublist newer)
    (hdone : ∀ w ∈ r.vars, w ∉ u :: rest → w ∉ m.map Prod.fst)
    (hu : Reinstates u m older s₁ s₂) : Clearing r newer older s rest s₂ where
  returned := h.returned.trans hu.returned
  vars w hw := h.vars w (List.mem_cons_of_mem _ hw)
  kept := by
    obtain ⟨m', hm', hsub', hnot⟩ := hu.kept
    refine ⟨m', hm', hsub'.trans hsub, fun w hw hrest hmem => ?_⟩
    by_cases hwu : w = u
    · exact hnot (hwu ▸ hmem)
    · have hlater := List.not_mem_cons_of_ne_of_not_mem hwu hrest
      exact hdone w hw hlater ((hsub'.map Prod.fst).subset hmem)
  draws := h.draws.trans (hu.draws.mono hsub.subset)

/-- Once the variables of its row are back, the row of `v` enters the tableau. -/
theorem Clearing.reinstates {v : Var} {r : Row} {n₁ n₂ older : List (Var × Row)} {s s₁ : Theory}
    (h : s.Framed) (hl : s.eliminated = n₁ ++ (v, r) :: (n₂ ++ older))
    (hclear : Clearing r n₁ (n₂ ++ older) { s with eliminated := n₁ ++ (n₂ ++ older) } [] s₁) :
    ∃ s', s₁.addRow v r = .ok s' ∧ Reinstates v (n₁ ++ (v, r) :: n₂) older s s' := by
  obtain ⟨m, hm, hsub, hdone⟩ := hclear.kept
  have henters := h.enters_of_returned hl hclear.returned hm hsub
    (fun u hu => hdone u (Row.mem_vars_iff.mpr hu) List.not_mem_nil) hclear.draws
  obtain ⟨x, hadd, hx, hframed⟩ := hclear.returned.framed.enters henters rfl
  refine ⟨{ s₁ with simplex := x }, hadd, hclear.returned.rejoin h hl hx hframed,
    ⟨m ++ n₂, ?_, hsub.append (List.sublist_cons_self _ _), ?_⟩, ?_⟩
  · exact hm.trans (List.append_assoc _ _ _).symm
  · have hnot := henters.kept
    rw [hm, ← List.append_assoc, List.map_append, List.mem_append] at hnot
    exact fun hc => hnot (.inl hc)
  · exact (hclear.draws.mono (List.subset_append_left _ _)).trans
      ((draws_of_gains hx.tableau).mono fun e he => by rw [List.mem_singleton.mp he]; simp)

/-- The row that a variable is found under is a newer one, unless the variable is older. -/
theorem exists_append_of_lookup {newer older : List (Var × Row)} {v : Var} {r : Row}
    (h : (newer ++ older).lookup v = some r) (hv : v ∉ older.map Prod.fst) :
    ∃ n₁ n₂, newer = n₁ ++ (v, r) :: n₂ := by
  obtain ⟨l₁, l₂, heq, _⟩ := List.lookup_eq_some_iff.mp h
  have hm : (v, r) ∈ newer ++ older := by rw [heq]; simp
  exact List.append_of_mem
    ((List.mem_append.mp hm).resolve_right fun hm => hv (mem_keys_of_mem hm))

/-- Reinstating a variable touches only the part of the eliminated variables that is newer than
any place after its own. -/
theorem reinstateWithin_spec (n : Nat) {s : Theory} (h : s.Framed) {newer older : List (Var × Row)}
    (hl : s.eliminated = newer ++ older) (hn : newer.length ≤ n) {v : Var}
    (hv : v ∉ older.map Prod.fst) :
    ∃ s', s.reinstateWithin n v = .ok s' ∧ Reinstates v newer older s s' := by
  induction n generalizing s newer older v with
  | zero =>
    have hnil : newer = [] := List.length_eq_zero_iff.mp (Nat.le_zero.mp hn)
    subst hnil
    exact ⟨s, rfl, .refl h, ⟨[], hl, .refl _, List.not_mem_nil⟩, .refl _ _⟩
  | succ n ih =>
    rw [reinstateWithin]
    cases hlook : s.eliminated.lookup v with
    | none =>
      refine ⟨s, rfl, .refl h, ⟨newer, hl, .refl _, fun hmem => ?_⟩, .refl _ _⟩
      have hnot : s.isEliminated v ≠ true := by
        rw [isEliminated, hlook]
        exact Bool.false_ne_true
      refine hnot (isEliminated_iff.mpr ?_)
      rw [hl, List.map_append, List.mem_append]
      exact .inl hmem
    | some r =>
      obtain ⟨n₁, n₂, rfl⟩ := exists_append_of_lookup (hl ▸ hlook) hv
      have hl' : s.eliminated = n₁ ++ (v, r) :: (n₂ ++ older) := by
        rw [hl, List.append_assoc, List.cons_append]
      have hbetween : Between v r n₁ (n₂ ++ older) := (hl' ▸ h.triangular).between
      have hfilter : s.eliminated.filter (fun e => decide (e.1 ≠ v)) = n₁ ++ (n₂ ++ older) := by
        rw [hl', hbetween.filter_eq]
      have hlen : n₁.length ≤ n := by
        rw [List.length_append, List.length_cons] at hn
        omega
      -- the variables of the row come back first; none of them is older than `v`
      obtain ⟨s₁, hfold, hclear⟩ := Checked.exists_foldlM
        (f := fun s u => reinstateWithin n u s)
        (Clearing r n₁ (n₂ ++ older) { s with eliminated := n₁ ++ (n₂ ++ older) })
        (fun u rest b hb => by
          obtain ⟨m, hm, hsub, hdone⟩ := hb.kept
          have hu := hb.vars u List.mem_cons_self
          obtain ⟨b', hok, hb'⟩ := ih hb.returned.framed hm (hsub.length_le.trans hlen)
            (hbetween.not_mem_older (Row.mem_vars_iff.mp hu))
          exact ⟨b', hok, hb.step hsub hdone hb'⟩)
        r.vars _ (.start (h.forget (hfilter ▸ List.filter_sublist)) rfl)
      obtain ⟨s', hadd, hs'⟩ := hclear.reinstates h hl'
      refine ⟨s', ?_, hs'⟩
      dsimp only
      rw [hfilter, hfold, ok_bind, hadd]

/-- Reinstating a variable. -/
theorem Framed.reinstate {s : Theory} (h : s.Framed) (v : Var) :
    ∃ s', s.reinstate v = .ok s' ∧ Returned s s' ∧ v ∉ s'.eliminated.map Prod.fst := by
  obtain ⟨s', hok, hs'⟩ := reinstateWithin_spec s.eliminated.length h
    (List.append_nil _).symm (Nat.le_refl _) (v := v) List.not_mem_nil
  obtain ⟨m, hm, _, hv⟩ := hs'.kept
  refine ⟨s', hok, hs'.returned, ?_⟩
  rwa [hm, List.append_nil]

/-- Reinstating the variables of a list. -/
theorem Framed.reinstateAll {s : Theory} (h : s.Framed) (vs : List Var) :
    ∃ s', vs.foldlM (fun (s : Theory) u => s.reinstate u) s = .ok s' ∧ Returned s s' ∧
      ∀ u ∈ vs, u ∉ s'.eliminated.map Prod.fst := by
  obtain ⟨s', hok, hret, hdone⟩ :=
    Checked.exists_foldlM (f := fun (s : Theory) u => s.reinstate u)
      (fun rest (b : Theory) => Returned s b ∧
        ∀ u ∈ vs, u ∉ rest → u ∉ b.eliminated.map Prod.fst)
      (by
        rintro u rest b ⟨hret, hdone⟩
        obtain ⟨b', hok, hret', hu⟩ := hret.framed.reinstate u
        refine ⟨b', hok, hret.trans hret', fun w hw hwrest hmem => ?_⟩
        by_cases hwu : w = u
        · exact hu (hwu ▸ hmem)
        · have hlater := List.not_mem_cons_of_ne_of_not_mem hwu hwrest
          exact hdone w hw hlater ((hret'.sublist.map Prod.fst).subset hmem))
      vs s ⟨.refl h, fun u hu hnot => absurd hu hnot⟩
  exact ⟨s', hok, hret, fun u hu => hdone u hu List.not_mem_nil⟩

/-! ## Materialising slack variables -/

/-- The outcome of steps that wake variables up. -/
structure Grows (s s' : Theory) : Prop where
  framed : s'.Framed
  sublist : s'.eliminated.Sublist s.eliminated
  bounds : s'.simplex.model.boundOf = s.simplex.model.boundOf
  active : ∀ u, s.Active u → s'.Active u
  awake : ∀ u, s'.Dormant u → s.Dormant u
  balanced : s.Balanced → s'.Balanced
  values : ∀ u, ¬ s.Dormant u → s'.simplex.model.valueOf u = s.simplex.model.valueOf u ∧
    s'.simplex.model.safeOf u = s.simplex.model.safeOf u
  committed : s.simplex.model.Committed → s'.simplex.model.Committed
  watches : ∀ u, ¬ s.Dormant u → s.simplex.Watches u → s'.simplex.Watches u

theorem Grows.refl {s : Theory} (h : s.Framed) : Grows s s :=
  ⟨h, .refl _, rfl, fun _ => id, fun _ => id, id, fun _ _ => ⟨rfl, rfl⟩, id,
    fun _ _ h => h⟩

theorem Grows.trans {s₁ s₂ s₃ : Theory} (h : Grows s₁ s₂) (k : Grows s₂ s₃) : Grows s₁ s₃ where
  framed := k.framed
  sublist := k.sublist.trans h.sublist
  bounds := k.bounds.trans h.bounds
  active u hu := k.active u (h.active u hu)
  awake u hu := h.awake u (k.awake u hu)
  balanced hb := k.balanced (h.balanced hb)
  values u hu := by
    obtain ⟨hv, hs⟩ := h.values u hu
    obtain ⟨hv', hs'⟩ := k.values u fun hd => hu (h.awake u hd)
    exact ⟨hv'.trans hv, hs'.trans hs⟩
  committed hc := k.committed (h.committed hc)
  watches u hu hw := k.watches u (fun hd => hu (h.awake u hd)) (h.watches u hu hw)

/-- Variables that wake up leave the values of the others alone. -/
theorem Grows.upholds {s s' : Theory} (h : Grows s s')
    (hdefinitions : ∀ v r, s.definition? v = some r → s'.definition? v = some r) :
    Upholds s s' where
  definitions := hdefinitions
  active := h.active
  values u hu := (currentOf_of_not_dormant fun hd => hu (h.awake u hd)).trans (h.values u hu).1

/-- Variables that violate bounds stay queued, since those that wake up have none. -/
theorem Grows.queued {s s' : Theory} (h : Grows s s')
    (hfree : ∀ u, s.Dormant u → ∀ side, s.simplex.model.boundOf side u = none)
    (hq : s.simplex.Queued) : s'.simplex.Queued := by
  intro u hu
  have hawake : ¬ s.Dormant u := by
    intro hd
    refine hu fun side b hb => ?_
    rw [h.bounds, hfree u hd] at hb
    cases hb
  refine h.watches u hawake (hq u fun hw => hu fun side b hb => ?_)
  rw [h.bounds] at hb
  rw [(h.values u hawake).1]
  exact hw side b hb

theorem Returned.grows {s s' : Theory} (h : Returned s s') : Grows s s' where
  framed := h.framed
  sublist := h.sublist
  bounds := h.rearranged.bounds
  active _ hu := h.active_iff.mpr hu
  awake _ hu := h.dormant hu
  balanced hb M _ _ σ := by
    rw [h.solves_iff, hb M σ, Defined, Defined, h.infos]
  values := h.values
  committed := h.committed
  watches := h.watches

/-- The theory with the row of a slack variable marked as materialised, and not set aside. -/
def materialized (v : Var) (s : Theory) : Theory :=
  (s.setTableau
    { s.simplex.tableau with ejected := s.simplex.tableau.ejected.erase v }).updateInfo v
      fun i => { i with materialized := true }

theorem get?_materialized (s : Theory) (v : Var) (k : Nat) :
    (s.materialized v).infos.get? k =
      if k = v.id then (s.infos.get? k).map fun i => { i with materialized := true }
      else s.infos.get? k :=
  Arena.get?_modify _ _ _ _

theorem active_materialized {s : Theory} {v u : Var} :
    (s.materialized v).Active u ↔ s.Active u ∨ u = v ∧ v.id < s.infos.size := by
  unfold Active
  rw [get?_materialized]
  by_cases huv : u = v
  · subst huv
    rw [if_pos rfl]
    constructor
    · rintro ⟨i, hi, _⟩
      obtain ⟨j, hj, _⟩ := Option.map_eq_some_iff.mp hi
      exact .inr ⟨rfl, Arena.lt_size_of_get? hj⟩
    · rintro (⟨i, hi, _⟩ | ⟨_, hlt⟩)
      · exact ⟨{ i with materialized := true }, by rw [hi]; rfl, .inr rfl⟩
      · obtain ⟨i, hi⟩ := Arena.get?_isSome hlt
        exact ⟨{ i with materialized := true }, by rw [hi]; rfl, .inr rfl⟩
  · rw [if_neg fun h => huv (Var.eq_of_id_eq h)]
    exact ⟨.inl, fun h => h.elim id fun h => absurd h.1 huv⟩

theorem rearranged_materialized (s : Theory) (v : Var) : Rearranged s (s.materialized v) where
  options := rfl
  infos k := by
    rw [get?_materialized]
    split
    · cases s.infos.get? k <;> rfl
    · rfl
  leaves := rfl
  slacks := rfl
  constantAtoms := rfl
  database := rfl
  pending := rfl
  processed := rfl
  disequalities := rfl
  propagations := rfl
  trail := rfl
  bounds := rfl
  lemmas := rfl

/-- Marking a slack variable keeps the rows in order; its own row is still missing. -/
theorem Arranged.materialized {s : Theory} (h : s.Arranged) (v : Var) :
    (s.materialized v).Arranged where
  coherent := ⟨h.coherent.tableau.withEjected _, h.coherent.room⟩
  room := h.room.trans (rearranged_materialized s v).size.symm
  definitions u r hr w hw := (rearranged_materialized s v).isLeaf
    (h.definitions u r (((rearranged_materialized s v).definition? u).symm.trans hr) w hw)
  mentions u hu := active_materialized.mpr (.inl (h.mentions u hu))
  eliminated e he := by
    obtain ⟨hact, hrow⟩ := h.eliminated e he
    exact ⟨active_materialized.mpr (.inl hact),
      fun u hu => active_materialized.mpr (.inl (hrow u hu))⟩
  triangular := h.triangular
  apart := h.apart
  ejected u r hr := by
    change (s.simplex.tableau.ejected.erase v).get? u = some r at hr
    rw [SortedMap.get?_erase] at hr
    split at hr
    · cases hr
    · rename_i huv
      obtain ⟨hdef, hact⟩ := h.ejected u r hr
      refine ⟨((rearranged_materialized s v).definition? u).trans hdef, fun hu => ?_⟩
      rcases active_materialized.mp hu with hu | ⟨hu, _⟩
      · exact hact hu
      · exact huv hu

theorem Framed.materialized {s : Theory} (h : s.Framed) (v : Var) : (s.materialized v).Framed where
  toArranged := h.toArranged.materialized v
  values := h.values
  safe := h.safe
  dormant u hu := h.dormant u (hu.imp_left fun hn ha => hn (active_materialized.mpr (.inl ha)))

/-- The definitions of a marked slack variable and of those that were marked before. -/
theorem defined_materialized {M : Type} [AddCommGroup M] [Module ℚ M] {s : Theory} {v : Var}
    {r : Row} (hdef : s.definition? v = some r) (σ : Var → M) :
    (s.materialized v).Defined σ ↔ s.Defined σ ∧ σ v = r.eval σ := by
  obtain ⟨i, hi, hir⟩ := definition?_eq_some_iff.mp hdef
  unfold Defined
  constructor
  · intro h
    refine ⟨fun u j q hj hq hm => ?_, h v { i with materialized := true } r ?_ hir rfl⟩
    · refine h u { j with materialized := true } q ?_ hq rfl
      rw [get?_materialized, hj]
      split
      · rfl
      · cases j
        dsimp only at hm
        rw [hm]
    · rw [get?_materialized, if_pos rfl, hi]
      rfl
  · rintro ⟨hall, hv⟩ u j q hj hq hm
    rw [get?_materialized] at hj
    split at hj
    · rename_i hid
      have huv : u = v := Var.eq_of_id_eq hid
      subst huv
      rw [hi] at hj
      have hji := Option.some.inj hj
      subst hji
      rw [hir] at hq
      rw [← Option.some.inj hq]
      exact hv
    · exact hall u j q hj hq hm

/-- What materialising `v` does. -/
structure Wakes (v : Var) (s s' : Theory) : Prop where
  grows : Grows s s'
  rearranged : Rearranged s s'
  awake : ¬ s'.Dormant v
  active : ∀ u, s'.Active u → s.Active u ∨ u = v

section Enter

variable {s : Theory} {v : Var} {r : Row}

/-- The row of a slack variable is added, from its definition or from the rows that were set
aside. -/
theorem Arranged.reinject_or_addRow (h : s.Arranged) (hdef : s.definition? v = some r) :
    (if s.simplex.tableau.isEjected v then do
        (s.setTableau (← s.simplex.tableau.reinject v)).valueNewBasic v
      else s.addRow v r) =
    (s.setTableau { s.simplex.tableau with
      ejected := s.simplex.tableau.ejected.erase v }).addRow v r := by
  cases hej : s.simplex.tableau.isEjected v with
  | true =>
    obtain ⟨q, hq⟩ := SortedMap.contains_iff_exists.mp hej
    have hqr : q = r := by
      have := (h.ejected v q hq).1
      rw [hdef] at this
      exact (Option.some.inj this).symm
    subst hqr
    rw [if_pos rfl, Tableau.reinject, hq]
    rfl
  | false =>
    rw [Tableau.erase_ejected_of_not hej]
    rfl

/-- The row of a slack variable that has been marked may enter the tableau. -/
theorem Framed.enters_materialized (h : s.Framed) (hdef : s.definition? v = some r)
    (hnot : ¬ s.Active v) (hr : ∀ u, r.contains u = true → u ∉ s.eliminated.map Prod.fst) :
    (s.materialized v).Enters v r where
  active := active_materialized.mpr (.inr ⟨rfl, lt_of_definition? hdef⟩)
  kept := by
    intro hmem
    obtain ⟨e, he, rfl⟩ := List.mem_map.mp hmem
    exact hnot (h.eliminated e he).1
  free := h.not_mentions_of_dormant (.inl hnot)
  set := by
    change (s.simplex.tableau.ejected.erase v).contains v = false
    rw [SortedMap.contains, SortedMap.get?_erase, if_pos rfl]
    rfl
  saved := h.dormant v (.inl hnot)
  row u hu := by
    have hactive : s.Active u := (h.definitions v r hdef u hu).active
    refine ⟨?_, active_materialized.mpr (.inl hactive), hr u hu⟩
    rintro rfl
    exact hnot hactive

/-- A slack variable wakes up when its row enters the tableau. -/
theorem Wakes.of_gains (hdef : s.definition? v = some r) (hnot : ¬ s.Active v)
    (henters : (s.materialized v).Enters v r) {x : Simplex}
    (hx : Simplex.Gains v r (s.materialized v).simplex x)
    (hframed : ({ s.materialized v with simplex := x } : Theory).Framed) :
    Wakes v s { s.materialized v with simplex := x } where
  grows := {
    framed := hframed
    sublist := .refl _
    bounds := hx.bounds
    active := fun u hu => active_materialized.mpr (.inl hu)
    awake := fun u hu => hu.imp_left fun hn ha => hn (active_materialized.mpr (.inl ha))
    balanced := fun hb M _ _ σ => by
      have hbal := hb M σ
      unfold Solves at hbal ⊢
      dsimp only
      rw [hx.tableau.solves_iff, and_right_comm]
      change (s.simplex.tableau.Solves σ ∧ Solved s.eliminated σ) ∧ _ ↔ (s.materialized v).Defined σ
      rw [hbal, defined_materialized hdef]
    values := fun u hu => hx.values_of_ne fun huv => hu (.inl (huv ▸ hnot))
    committed := fun hc => hx.commits hc
    watches := fun u hu hw => hx.watches (fun huv => hu (.inl (huv ▸ hnot))) hw }
  rearranged := (rearranged_materialized s v).gains hx
  awake := by
    rintro (hd | hd)
    · exact hd henters.active
    · exact henters.kept hd
  active u hu := (active_materialized.mp hu).imp_right And.left

/-- The row of a slack variable enters the tableau. -/
theorem Framed.enter (h : s.Framed) (hdef : s.definition? v = some r) (hnot : ¬ s.Active v)
    (hr : ∀ u, r.contains u = true → u ∉ s.eliminated.map Prod.fst) :
    ∃ s', (if s.simplex.tableau.isEjected v then do
        (s.setTableau (← s.simplex.tableau.reinject v)).valueNewBasic v
      else s.addRow v r) = .ok s' ∧
      Wakes v s (s'.updateInfo v fun i => { i with materialized := true }) := by
  have henters := h.enters_materialized hdef hnot hr
  have hsame : (s.setTableau { s.simplex.tableau with
      ejected := s.simplex.tableau.ejected.erase v }).simplex = (s.materialized v).simplex := rfl
  obtain ⟨x, hadd, hx, hframed⟩ := (h.materialized v).enters henters hsame
  exact ⟨_, (h.reinject_or_addRow hdef).trans hadd, .of_gains hdef hnot henters hx hframed⟩

end Enter

/-- Materialising a variable. -/
theorem Framed.materialize {s : Theory} (h : s.Framed) {v : Var} (hv : v.id < s.infos.size) :
    ∃ s', s.materialize v = .ok s' ∧ Wakes v s s' := by
  obtain ⟨s₁, hok₁, hret₁, hv₁⟩ := h.reinstate v
  obtain ⟨i, hi⟩ := Arena.get?_isSome (hret₁.infos ▸ hv)
  have hinfo : s₁.info v = .ok i := Arena.get_eq_ok hi
  have hactive₁ : s₁.Active v → Wakes v s s₁ := fun ha =>
    ⟨hret₁.grows, hret₁.rearranged, fun hd => hd.elim (fun hn => hn ha) hv₁,
      fun u hu => .inl (hret₁.active_iff.mp hu)⟩
  rw [Theory.materialize, hok₁, ok_bind, hinfo, ok_bind]
  cases hm : i.materialized with
  | true => exact ⟨s₁, rfl, hactive₁ ⟨i, hi, .inr hm⟩⟩
  | false =>
    cases hdef : s₁.definition? v with
    | none =>
      rw [definition?_eq, hi] at hdef
      exact ⟨s₁, rfl, hactive₁ ⟨i, hi, .inl hdef⟩⟩
    | some r =>
      obtain ⟨s₂, hok₂, hret₂, hdone⟩ := hret₁.framed.reinstateAll r.vars
      have hdef₂ : s₂.definition? v = some r := (hret₂.rearranged.definition? v).trans hdef
      have hnot : ¬ s₂.Active v := by
        rw [hret₂.active_iff]
        rintro ⟨j, hj, hjd⟩
        rw [hi] at hj
        rw [definition?_eq, hi] at hdef
        rw [← Option.some.inj hj, hm] at hjd
        rcases hjd with hjd | hjd
        · exact absurd (hjd.symm.trans hdef) (Option.some_ne_none r).symm
        · cases hjd
      obtain ⟨s₃, hok₃, hwakes⟩ := hret₂.framed.enter hdef₂ hnot fun u hu =>
        hdone u (Row.mem_vars_iff.mpr hu)
      have hret := hret₁.trans hret₂
      refine ⟨_, ?_, hret.grows.trans hwakes.grows, hret.rearranged.trans hwakes.rearranged,
        hwakes.awake, fun u hu => (hwakes.active u hu).imp_left hret.active_iff.mp⟩
      simp only [Bool.false_eq_true, if_false, hok₂, ok_bind]
      cases hej : s₂.simplex.tableau.isEjected v with
      | true =>
        rw [hej, if_pos rfl] at hok₃
        rw [if_pos rfl, ← bind_assoc, hok₃]
        rfl
      | false =>
        rw [hej, if_neg Bool.false_ne_true] at hok₃
        rw [if_neg Bool.false_ne_true, hok₃]
        rfl

end LinearArithmetic.Theory
