import LinearArithmetic.Proofs.Implied
import LinearArithmetic.Proofs.Regularity

/-!
# The implied constraints, exactly

The walk from a bound collects what it implies and no other known bound has implied before: a
constraint that is collected at a number lies no further out than that number, and there is no known
bound before it.
-/

namespace LinearArithmetic

namespace Statement

/-- Every rational of which the first statement is true satisfies the second one. -/
def Entails (s t : Statement) : Prop := ∀ q : ℚ, s.TrueAt q → t.TrueAt q

/-- A disequality entails no other statement on its variable. -/
theorem Representable.eq_of_disequality {s t : Statement} (hs : s.Representable)
    (ht : t.Representable) (hkind : s.kind = .disequality) (hvar : t.var = s.var)
    (h : ∀ q : ℚ, s.Holds (.ofRat q) → t.Holds (.ofRat q)) : t = s := by
  obtain ⟨v, k, ⟨c, i⟩⟩ := s
  obtain ⟨w, j, ⟨d, n⟩⟩ := t
  obtain rfl : k = .disequality := hkind
  obtain rfl : w = v := hvar
  have hsmall := h (min c d - 1)
  have hlarge := h (max c d + 1)
  have hlarger := h (max c d + 2)
  have hd := h d
  cases j <;> simp only [Representable, Holds, DeltaRat.ofRat, DeltaRat.le_def] at * <;> grind

end Statement

namespace Database

/-! ## Where a constraint was collected -/

section Inversion

variable {db : Database} {side : ConstraintKind} {l l' : List ConstraintId}

theorem addUnknown_inv {d : ConstraintId} (h : db.addUnknown l d = .ok l') {e : ConstraintId}
    (he : e ∈ l') : e ∈ l ∨ e = d := by
  obtain ⟨unknown, _, h⟩ := bind_eq_ok.mp h
  split at h
  · cases h
    exact (List.mem_append.mp he).imp_right List.mem_singleton.mp
  · cases h
    exact .inl he

/-- While the constraints at a number are visited: what has been added are consequences of them, and
no known bound was passed over. -/
structure Passing (db : Database) (side : ConstraintKind) (ids l rest : List ConstraintId)
    (p : List ConstraintId × Bool) : Prop where
  origin : ∀ d ∈ p.1, d ∈ l ∨ ∃ i ∈ ids, ∃ k, db.stored i = some k ∧ d = consequence side i k
  todo : rest ⊆ ids
  clear : p.2 = false → ∀ i ∈ ids, i ∉ rest → ¬ db.Stops side i

theorem Passing.next {ids rest : List ConstraintId} {i : ConstraintId}
    {p q : List ConstraintId × Bool} (h : db.Passing side ids l (i :: rest) p)
    (horigin : ∀ d ∈ q.1, d ∈ p.1 ∨ ∃ k, db.stored i = some k ∧ d = consequence side i k)
    (hclear : q.2 = false → p.2 = false ∧ ¬ db.Stops side i) : db.Passing side ids l rest q where
  origin d hd := by
    rcases horigin d hd with hd | ⟨k, hk, heq⟩
    · exact h.origin d hd
    · exact .inr ⟨i, h.todo List.mem_cons_self, k, hk, heq⟩
  todo := List.Subset.trans (List.subset_cons_self i rest) h.todo
  clear hq j hj hne := by
    obtain ⟨hp, hi⟩ := hclear hq
    by_cases hji : j = i
    · exact hji ▸ hi
    · exact h.clear hp j hj (by simp [hji, hne])

/-- What a visit adds are consequences of the constraints visited; it tells whether a known bound is
among them. -/
theorem visit_inv {ids : List ConstraintId} {stop : Bool}
    (h : db.visit side ids l = .ok (l', stop)) :
    (∀ d ∈ l', d ∈ l ∨ ∃ i ∈ ids, ∃ k, db.stored i = some k ∧ d = consequence side i k) ∧
      (stop = false → ∀ i ∈ ids, ¬ db.Stops side i) := by
  have hstart : db.Passing side ids l ids (l, false) :=
    ⟨fun d => .inl, List.Subset.refl ids, fun _ i hi hni => absurd hi hni⟩
  have hfold := Checked.meets_foldlM (E := fun _ => True)
    (f := fun (p : List ConstraintId × Bool) id => do
      let c ← db.get id
      if c.statement.kind = side && c.hasProof then return (p.1, true)
      else return (← db.addUnknown p.1 (consequence side id c), p.2))
    (db.Passing side ids l)
    (by
      rintro i rest ⟨l₁, stop₁⟩ hp
      cases hget : db.get i with
      | error f => trivial
      | ok k =>
        have hk := stored_of_get_eq_ok hget
        rw [ok_bind]
        split
        · exact hp.next (fun d => .inl) fun hq => (by cases hq)
        · rename_i hknown
          cases hadd : db.addUnknown l₁ (consequence side i k) with
          | error f => trivial
          | ok l₂ =>
            refine hp.next (fun d hd => ?_) fun hq => ⟨hq, ?_⟩
            · exact (addUnknown_inv hadd hd).imp_right fun heq => ⟨k, hk, heq⟩
            · rintro ⟨k', hk', hkind, hproof⟩
              rw [hk] at hk'
              obtain rfl := Option.some.inj hk'
              simp [hkind, hproof] at hknown)
    ids (l, false) hstart
  have hpassing := hfold.of_ok h
  exact ⟨hpassing.origin, fun hs i hi => hpassing.clear hs i hi List.not_mem_nil⟩

/-- What a sweep adds are consequences of constraints at a number that it has reached, and there is
no known bound at the numbers before that. -/
theorem sweep_inv {walk : List ValueSlots} (h : db.sweep side walk l = .ok l') :
    ∀ d ∈ l', d ∈ l ∨ ∃ before slots after, walk = before ++ slots :: after ∧
      (∀ e ∈ before, ∀ i ∈ e.toList, ¬ db.Stops side i) ∧
        ∃ i ∈ slots.toList, ∃ k, db.stored i = some k ∧ d = consequence side i k := by
  induction walk generalizing l with
  | nil =>
    cases h
    exact fun d => .inl
  | cons slots walk ih =>
    rw [sweep] at h
    obtain ⟨⟨l₁, stop⟩, hvisit, hrest⟩ := bind_eq_ok.mp h
    obtain ⟨horigin, hclear⟩ := visit_inv hvisit
    have hhere : ∀ d ∈ l₁, d ∈ l ∨ ∃ before slots' after,
        slots :: walk = before ++ slots' :: after ∧
        (∀ e ∈ before, ∀ i ∈ e.toList, ¬ db.Stops side i) ∧
          ∃ i ∈ slots'.toList, ∃ k, db.stored i = some k ∧ d = consequence side i k := by
      intro d hd
      exact (horigin d hd).imp_right fun hd =>
        ⟨[], slots, walk, rfl, fun e he => absurd he List.not_mem_nil, hd⟩
    intro d hd
    cases stop with
    | true =>
      cases hrest
      exact hhere d hd
    | false =>
      rcases ih hrest d hd with hd | ⟨before, slots', after, rfl, hbefore, hd⟩
      · exact hhere d hd
      · refine .inr ⟨slots :: before, slots', after, rfl, fun e he => ?_, hd⟩
        rcases List.mem_cons.mp he with rfl | he
        · exact hclear rfl
        · exact hbefore e he

/-- Only the constraints that a fold goes through are added. -/
theorem foldlM_addUnknown_inv {ids : List ConstraintId}
    (h : ids.foldlM db.addUnknown l = .ok l') : ∀ d ∈ l', d ∈ l ∨ d ∈ ids := by
  induction ids generalizing l with
  | nil =>
    cases h
    exact fun d => .inl
  | cons i ids ih =>
    obtain ⟨l₁, hadd, hrest⟩ := bind_eq_ok.mp h
    intro d hd
    rcases ih hrest d hd with hd | hd
    · refine (addUnknown_inv hadd hd).imp_right ?_
      rintro rfl
      exact List.mem_cons_self
    · exact .inr (List.mem_cons_of_mem i hd)

end Inversion

/-! ## What was known before -/

/-- No known bound that limits a statement lies before the number of a constraint. -/
def Exposed (db : Database) (s : Statement) (k : Constraint) : Prop :=
  ∀ side b m, db.Limits s side b m → ¬ m.statement.Outside k.statement.value side

/-- The constraint is what a statement implies about a constraint beyond its number, and no known
bound lies before that one. -/
def Found (db : Database) (s : Statement) (side : ConstraintKind) (d : ConstraintId) : Prop :=
  ∃ i k, db.stored i = some k ∧ s.Outside k.statement.value side ∧ d = consequence side i k ∧
    ∀ b m, db.Limits s side b m → ¬ m.statement.Outside k.statement.value side

section Found

variable {db : Database} (h : db.Indexed) {s : Statement} {side : ConstraintKind}

include h

/-- A walk over all numbers beyond that of a bound finds what it adds. -/
theorem Indexed.found_of_sweep {walk : List (DeltaRat × ValueSlots)}
    (hwalk : ∀ e, e ∈ walk ↔ (db.onVar s.var).get? e.1 = some e.2 ∧ s.Outside e.1 side)
    (hsorted : walk.Pairwise fun e f => (⟨s.var, side, e.1⟩ : Statement).Outside f.1 side)
    {l l' : List ConstraintId} (hok : db.sweep side (walk.map Prod.snd) l = .ok l') :
    ∀ d ∈ l', d ∈ l ∨ db.Found s side d := by
  intro d hd
  refine (sweep_inv hok d hd).imp_right ?_
  rintro ⟨before, slots, after, happend, hclear, i, hi, k, hk, rfl⟩
  obtain ⟨w₁, w₂, rfl, rfl, hw₂⟩ := List.map_eq_append_iff.mp happend
  obtain ⟨⟨y, slots'⟩, w₃, rfl, rfl, rfl⟩ := List.map_eq_cons_iff.mp hw₂
  obtain ⟨hy, hout⟩ := (hwalk (y, slots')).mp (List.mem_append_right _ List.mem_cons_self)
  obtain ⟨k', kind, hk', _, hst⟩ := h.stored_of_slot hy hi
  rw [hk] at hk'
  obtain rfl := Option.some.inj hk'
  have hvalue : k.statement.value = y := by rw [hst]
  refine ⟨i, k, hk, by rw [hvalue]; exact hout, rfl, fun b m hlimits hbefore => ?_⟩
  rw [hvalue] at hbefore
  -- the known bound is listed under its number, which is one of the walk
  have hfind := h.find?_eq_some hlimits.stored hlimits.live
  rw [find?_eq, hlimits.var] at hfind
  obtain ⟨slotsb, hslots, hget⟩ := Option.bind_eq_some_iff.mp hfind
  have hmem := (hwalk (m.statement.value, slotsb)).mpr ⟨hslots, hlimits.outside⟩
  rcases List.mem_append.mp hmem with hmem | hmem
  · exact hclear slotsb (List.mem_map_of_mem hmem) b (ValueSlots.mem_toList hget)
      ⟨m, hlimits.stored, hlimits.kind, hlimits.proven⟩
  · rcases List.mem_cons.mp hmem with heq | hmem
    · obtain rfl : m.statement.value = y := congrArg Prod.fst heq
      exact Statement.Outside.asymm hbefore hbefore
    · have hafter := (List.pairwise_cons.mp (List.pairwise_append.mp hsorted).2.1).1 _ hmem
      exact Statement.Outside.asymm (s := ⟨s.var, side, y⟩) hafter hbefore

theorem Indexed.found_of_sweepBelow {l l' : List ConstraintId}
    (hok : db.sweep .lower (db.slotsBelow s.var s.value) l = .ok l') :
    ∀ d ∈ l', d ∈ l ∨ db.Found s .lower d := by
  rw [slotsBelow, SortedMap.values, ← List.map_reverse] at hok
  refine h.found_of_sweep (fun e => ?_) (List.pairwise_reverse.mpr (SortedMap.sorted _)) hok
  rw [List.mem_reverse]
  exact mem_entries_filter_iff (p := fun y => y < s.value) fun _ => decide_eq_true_iff

theorem Indexed.found_of_sweepAbove {l l' : List ConstraintId}
    (hok : db.sweep .upper (db.slotsAbove s.var s.value) l = .ok l') :
    ∀ d ∈ l', d ∈ l ∨ db.Found s .upper d := by
  rw [slotsAbove, SortedMap.values] at hok
  refine h.found_of_sweep (fun e => ?_) (SortedMap.sorted _) hok
  exact mem_entries_filter_iff (p := fun y => s.value < y) fun _ => decide_eq_true_iff

/-- What was found on a walk is exposed on both sides. -/
theorem Indexed.exposed_of_found (hs : s.Bounds side) (hrs : s.Representable) {d : ConstraintId}
    (hfound : db.Found s side d) {kd : Constraint} (hd : db.stored d = some kd) :
    db.Exposed s kd := by
  obtain ⟨i, k, hk, hout, rfl, hclear⟩ := hfound
  have hplaced : ¬ k.statement.Outside kd.statement.value side ∧
      ¬ kd.statement.Outside s.value side := by
    rw [consequence] at hd
    split at hd
    · rw [hk] at hd
      obtain rfl := Option.some.inj hd
      exact ⟨fun h => h.asymm h, hout.asymm⟩
    · rename_i hkind
      obtain ⟨k', hk', _, hneg, _⟩ := h.negation i k hk
      rw [hk'] at hd
      obtain rfl := Option.some.inj hd
      exact (Statement.placed_negation hs hrs hout hkind hneg).2
  intro side' b m hlimits hbefore
  have hfirst := hclear b m
  have hbeyond := hlimits.outside
  cases side <;> cases side' <;> simp only [Statement.Outside] at hplaced hbefore hbeyond hout
  · exact hplaced.1 (lt_of_lt_of_le hbefore (not_lt.mp (hfirst hlimits)))
  · exact hplaced.2 (hbeyond.trans hbefore)
  · exact hplaced.2 (hbefore.trans hbeyond)
  · exact hplaced.1 (lt_of_le_of_lt (not_lt.mp (hfirst hlimits)) hbefore)

/-- The constraints that are collected for a constraint are exposed. -/
theorem Indexed.exposed_of_impliedBy {c : ConstraintId} {k : Constraint}
    (hc : db.stored c = some k) (hrs : k.statement.Representable) {l : List ConstraintId}
    (hok : db.impliedBy c = .ok l) {d : ConstraintId} (hd : d ∈ l) {kd : Constraint}
    (hkd : db.stored d = some kd) : db.Exposed k.statement kd := by
  rw [impliedBy, get_eq_ok hc, ok_bind] at hok
  obtain ⟨st, negation, literal, asserted, proof, pre, split, live⟩ := k
  obtain ⟨v, kind, x⟩ := st
  cases kind with
  | lower =>
    obtain ⟨l₀, hsweep, hfilter⟩ := bind_eq_ok.mp hok
    cases hfilter
    have hs : (⟨v, .lower, x⟩ : Statement).Bounds .lower := .inl rfl
    have hfound := (h.found_of_sweepBelow (s := ⟨v, .lower, x⟩) hsweep d
      (List.mem_filter.mp hd).1).resolve_left List.not_mem_nil
    exact h.exposed_of_found hs hrs hfound hkd
  | upper =>
    obtain ⟨l₀, hsweep, hfilter⟩ := bind_eq_ok.mp hok
    cases hfilter
    have hs : (⟨v, .upper, x⟩ : Statement).Bounds .upper := .inl rfl
    have hfound := (h.found_of_sweepAbove (s := ⟨v, .upper, x⟩) hsweep d
      (List.mem_filter.mp hd).1).resolve_left List.not_mem_nil
    exact h.exposed_of_found hs hrs hfound hkd
  | equality =>
    obtain ⟨l₁, hat, hok⟩ := bind_eq_ok.mp hok
    obtain ⟨l₂, hbelow, hok⟩ := bind_eq_ok.mp hok
    obtain ⟨l₃, habove, hfilter⟩ := bind_eq_ok.mp hok
    cases hfilter
    have hlower : (⟨v, .equality, x⟩ : Statement).Bounds .lower := .inr rfl
    have hupper : (⟨v, .equality, x⟩ : Statement).Bounds .upper := .inr rfl
    rcases h.found_of_sweepAbove (s := ⟨v, .equality, x⟩) habove d
      (List.mem_filter.mp hd).1 with hmem | hfound
    · rcases h.found_of_sweepBelow (s := ⟨v, .equality, x⟩) hbelow d hmem with hmem | hfound
      · -- a bound at the number of the equality
        have hmem := (foldlM_addUnknown_inv hat d hmem).resolve_left List.not_mem_nil
        obtain ⟨kind, _, hfind⟩ := List.mem_filterMap.mp hmem
        obtain ⟨kd', hkd', _, hst⟩ := (h.find_iff _ _).mp hfind
        rw [hkd] at hkd'
        obtain rfl := Option.some.inj hkd'
        intro side b m hlimits hbefore
        rw [hst] at hbefore
        exact hlimits.outside.asymm hbefore
      · exact h.exposed_of_found hlower hrs hfound hkd
    · exact h.exposed_of_found hupper hrs hfound hkd
  | disequality =>
    cases hok
    exact absurd hd List.not_mem_nil

/-! ## Exactly what is implied -/

theorem Indexed.trueAt_iff {c : ConstraintId} {k : Constraint} (hc : db.stored c = some k) (q : ℚ) :
    k.statement.TrueAt q ↔ k.statement.Holds (.ofRat q) := by
  obtain ⟨_, _, _, hneg, _⟩ := h.negation c k hc
  exact Statement.trueAt_iff_holds hneg q

theorem Indexed.entails_iff {c d : ConstraintId} {k m : Constraint} (hc : db.stored c = some k)
    (hd : db.stored d = some m) : k.statement.Entails m.statement ↔
      ∀ q : ℚ, k.statement.Holds (.ofRat q) → m.statement.Holds (.ofRat q) := by
  unfold Statement.Entails
  simp only [h.trueAt_iff hc, h.trueAt_iff hd]

/-- An unknown constraint that is exposed is not entailed by a known bound that limits the
statement. -/
theorem Indexed.not_entails_of_exposed
    (hrep : ∀ d l, db.stored d = some l → l.live = true → l.statement.Representable)
    {d : ConstraintId} {kd : Constraint} (hd : db.stored d = some kd) (hlive : kd.live = true)
    (hvar : kd.statement.var = s.var) (hunknown : db.Unknown d) (hexposed : db.Exposed s kd)
    {b : ConstraintId} {m : Constraint} (hlimits : db.Limits s side b m) :
    ¬ m.statement.Entails kd.statement := by
  rw [h.entails_iff hlimits.stored hd]
  intro himp
  have hkind : m.statement.kind ≠ .equality := by
    intro hk
    rw [hlimits.kind] at hk
    exact (hk ▸ hlimits.bounds : s.Bounds .equality).elim
  have hreach := (hrep b m hlimits.stored hlimits.live).reaches (hrep d kd hd hlive)
    (hvar.trans hlimits.var.symm) hlimits.kind_ne himp
  cases hreach with
  | same heq =>
    have hdb := h.eq_of_statement_eq hd hlimits.stored hlive hlimits.live heq
    obtain ⟨k, _, hk, hproof, _⟩ := hunknown
    rw [hdb, hlimits.stored] at hk
    have hproven := hlimits.proven
    rw [Option.some.inj hk, Constraint.hasProof, hproof] at hproven
    cases hproven
  | beyond side' hbounds hout _ =>
    obtain rfl := hbounds.eq_kind hkind
    exact hexposed _ b m (hlimits.kind.symm ▸ hlimits) hout
  | bound heq => exact hkind heq

/-- The constraints implied by a constraint are the others on its variable that are unknown, that it
entails, and that no known bound beyond its number entails. -/
theorem Indexed.mem_impliedBy_iff
    (hrep : ∀ d l, db.stored d = some l → l.live = true → l.statement.Representable)
    {c : ConstraintId} {k : Constraint} (hc : db.stored c = some k) (hlive : k.live = true) :
    ∃ l, db.impliedBy c = .ok l ∧ l.Nodup ∧ (∀ d, d ∈ l ↔ d ≠ c ∧ db.Unknown d ∧
      ∃ m, db.stored d = some m ∧ m.live = true ∧ m.statement.var = k.statement.var ∧
        k.statement.Entails m.statement ∧
          ¬ ∃ side b n, db.Limits k.statement side b n ∧ n.statement.Entails m.statement) ∧
      ∀ d m, d ∈ l → db.stored d = some m → m.negation ∉ l := by
  have hrs := hrep c k hc hlive
  obtain ⟨l, hok, hcollects, hself, hcovered⟩ := h.impliedBy_spec hc hrs hrep
  refine ⟨l, hok, hcollects.nodup, fun d => ⟨fun hd => ?_, ?_⟩, fun d m hd hm hn => ?_⟩
  · have hunknown := hcollects.unknown d hd
    obtain ⟨m, hm, hmlive, hvar, himp⟩ := hcollects.follows d hd
    have hexposed := h.exposed_of_impliedBy hc hrs hok hd hm
    refine ⟨?_, hunknown, m, hm, hmlive, hvar, (h.entails_iff hc hm).mpr fun q => himp _, ?_⟩
    · rintro rfl
      exact hself hd
    · rintro ⟨side, b, n, hlimits, hentails⟩
      exact h.not_entails_of_exposed hrep hm hmlive hvar hunknown hexposed hlimits hentails
  · rintro ⟨hdc, hunknown, m, hm, hmlive, hvar, hentails, hnew⟩
    rw [h.entails_iff hc hm] at hentails
    by_cases hkind : k.statement.kind = .disequality
    · have heq := hrs.eq_of_disequality (hrep d m hm hmlive) hkind hvar hentails
      exact absurd (h.eq_of_statement_eq hm hc hmlive hlive heq) hdc
    · have hfollows : db.Follows k.statement d := by
        have hreach := hrs.reaches (hrep d m hm hmlive) hvar hkind hentails
        exact ⟨m, hm, hmlive, hreach.implies hvar⟩
      rcases hcovered hlive hkind d hfollows hdc with (hmem | hknown) | ⟨side, b, n, hlimits, hn⟩
      · exact hmem
      · exact absurd hunknown hknown
      · obtain ⟨m', hm', _, _, himp⟩ := hn
        rw [hm] at hm'
        obtain rfl := Option.some.inj hm'
        exact absurd ⟨side, b, n, hlimits, (h.entails_iff hlimits.stored hm).mpr fun q => himp _⟩
          hnew
  · exact Follows.not_negation h hrs hm (hcollects.follows d hd) (hcollects.follows _ hn)

end Found

/-- In every database that operations lead to and whose live constraints come from comparisons with
rationals, the constraints implied by a live one are found exactly: each once, and never both halves
of a pair. -/
theorem impliedBy_exact {b : Bool} {ops : List Operation} {db : Database}
    (hrun : ({ debugChecks := b } : Database).run ops = .ok db)
    (hrep : ∀ d l, db.stored d = some l → l.live = true → l.statement.Representable)
    {c : ConstraintId} {k : Constraint} (hc : db.stored c = some k) (hlive : k.live = true) :
    ∃ l, db.impliedBy c = .ok l ∧ l.Nodup ∧ (∀ d, d ∈ l ↔ d ≠ c ∧ db.Unknown d ∧
      ∃ m, db.stored d = some m ∧ m.live = true ∧ m.statement.var = k.statement.var ∧
        k.statement.Entails m.statement ∧
          ¬ ∃ side b n, db.Limits k.statement side b n ∧ n.statement.Entails m.statement) ∧
      ∀ d m, d ∈ l → db.stored d = some m → m.negation ∉ l :=
  ((orderly_start b).run hrun).mem_impliedBy_iff hrep hc hlive

/-- The bounds `x ≥ 5` and `x ≤ 4` and the equations `x = 3` and `x = 2`, where `x ≥ 3` has been
asserted. -/
def staircase : List Operation :=
  let x : Var := ⟨0⟩
  let known : Term := .rel .ge (.var "x") (.const 3)
  [.obtain ⟨x, .lower, .ofRat 5⟩, .addAtom known ⟨x, .lower, .ofRat 3⟩,
    .obtain ⟨x, .upper, .ofRat 4⟩, .obtain ⟨x, .equality, .ofRat 3⟩,
    .obtain ⟨x, .equality, .ofRat 2⟩, .markAsserted ⟨2⟩ known]

/-- From `x ≥ 5` follow `x > 4` and `x ≠ 3`, but `x ≠ 2` follows from `x ≥ 3` already. -/
theorem impliedBy_exact_staircase :
    ∃ db k, ({ debugChecks := true } : Database).run staircase = .ok db ∧
      db.stored ⟨0⟩ = some k ∧ k.statement = ⟨⟨0⟩, .lower, .ofRat 5⟩ ∧
        db.impliedBy ⟨0⟩ = .ok [⟨5⟩, ⟨7⟩] ∧ ∀ d, d ∈ [⟨5⟩, ⟨7⟩] ↔ d ≠ ⟨0⟩ ∧ db.Unknown d ∧
          ∃ m, db.stored d = some m ∧ m.live = true ∧ m.statement.var = k.statement.var ∧
            k.statement.Entails m.statement ∧
              ¬ ∃ side b n, db.Limits k.statement side b n ∧ n.statement.Entails m.statement := by
  have h : (({ debugChecks := true } : Database).run staircase >>= fun db => do
      let k ← db.get ⟨0⟩
      return (k.statement, k.live, ← db.impliedBy ⟨0⟩)) =
        .ok (⟨⟨0⟩, .lower, .ofRat 5⟩, true, [⟨5⟩, ⟨7⟩]) := by decide +kernel
  have hitems : (({ debugChecks := true } : Database).run staircase >>= fun db =>
      Except.ok (db.constraints.items.all fun m => decide m.statement.Representable)) =
        .ok true := by decide +kernel
  obtain ⟨db, hrun, h⟩ := bind_eq_ok.mp h
  obtain ⟨k, hget, h⟩ := bind_eq_ok.mp h
  obtain ⟨l, himplied, h⟩ := bind_eq_ok.mp h
  obtain ⟨hst, hlive, rfl⟩ : k.statement = _ ∧ k.live = true ∧ l = _ := by
    simpa using h
  rw [hrun] at hitems
  have hall := Except.ok.inj hitems
  rw [List.all_eq_true] at hall
  have hrep : ∀ d m, db.stored d = some m → m.live = true → m.statement.Representable := by
    intro d m hd _
    exact of_decide_eq_true (hall m (List.mem_of_getElem? hd))
  have hc := stored_of_get_eq_ok hget
  obtain ⟨l, hok, _, hiff, _⟩ := impliedBy_exact hrun hrep hc hlive
  cases himplied.symm.trans hok
  exact ⟨db, k, hrun, hc, hst, himplied, hiff⟩

end Database

end LinearArithmetic
