import LinearArithmetic.Database.Implied
import LinearArithmetic.Proofs.Database

/-!
# What a bound implies

The constraints that the walk away from a bound collects hold wherever the bound does, nothing is
known about them yet, and each is collected once.
-/

namespace LinearArithmetic

namespace Statement

/-- The statement bounds its variable from the side that the given kind of bound does. -/
def Bounds (s : Statement) : ConstraintKind → Prop
  | .lower => s.kind = .lower ∨ s.kind = .equality
  | .upper => s.kind = .upper ∨ s.kind = .equality
  | _ => False

/-- A number is beyond that of the statement on the outer side of a kind of bound. -/
def Outside (s : Statement) (y : DeltaRat) : ConstraintKind → Prop
  | .lower => y < s.value
  | .upper => s.value < y
  | _ => False

theorem Bounds.eq_kind {s : Statement} {side : ConstraintKind} (h : s.Bounds side)
    (hk : s.kind ≠ .equality) : side = s.kind := by
  cases side with
  | lower => exact (h.resolve_right hk).symm
  | upper => exact (h.resolve_right hk).symm
  | _ => exact h.elim

theorem Bounds.not_outside {s : Statement} {side : ConstraintKind} (h : s.Bounds side)
    {z : DeltaRat} (hz : s.Holds z) : ¬ s.Outside z side := by
  cases side with
  | lower =>
    rcases h with h | h <;> rw [Holds, h] at hz
    · exact not_lt.mpr hz
    · exact not_lt.mpr hz.ge
  | upper =>
    rcases h with h | h <;> rw [Holds, h] at hz
    · exact not_lt.mpr hz
    · exact not_lt.mpr hz.le
  | _ => exact h.elim

/-- A statement that bounds its variable from a side can be read as a bound on that side. -/
theorem Bounds.representable {s : Statement} {side : ConstraintKind} (h : s.Bounds side)
    (hs : s.Representable) : Representable ⟨s.var, side, s.value⟩ := by
  cases side with
  | lower =>
    rcases h with h | h <;> rw [Representable, h] at hs
    · exact hs
    · exact .inl hs
  | upper =>
    rcases h with h | h <;> rw [Representable, h] at hs
    · exact hs
    · exact .inl hs
  | _ => exact h.elim

theorem Outside.asymm {s t : Statement} {side : ConstraintKind} (h : s.Outside t.value side) :
    ¬ t.Outside s.value side := by
  cases side with
  | lower => exact lt_asymm h
  | upper => exact lt_asymm h
  | _ => exact h.elim

/-- A bound implies the bounds of the same side that do not lie further inside. -/
theorem implies_of_not_outside {s t : Statement} {side : ConstraintKind} (hs : s.Bounds side)
    (hvar : t.var = s.var) (hkind : t.kind = side) (hplace : ¬ t.Outside s.value side) :
    s.Implies t := by
  refine ⟨hvar, fun z hz => ?_⟩
  have hz := hs.not_outside hz
  rw [Holds, hkind]
  cases side with
  | lower => exact (not_lt.mp hplace).trans (not_lt.mp hz)
  | upper => exact (not_lt.mp hz).trans (not_lt.mp hplace)
  | _ => exact hs.elim

/-- A bound implies the bounds of the same side and the disequalities beyond its number. -/
theorem implies_of_outside {s t : Statement} {side : ConstraintKind} (hs : s.Bounds side)
    (hout : s.Outside t.value side) (hvar : t.var = s.var)
    (hkind : t.kind = side ∨ t.kind = .disequality) : s.Implies t := by
  rcases hkind with hkind | hkind
  · exact implies_of_not_outside hs hvar hkind hout.asymm
  · refine ⟨hvar, fun z hz => ?_⟩
    rw [Holds, hkind]
    rintro rfl
    exact hs.not_outside hz hout

/-- The negation of a statement beyond the number of a bound is a bound of the same side or a
disequality, between the two numbers. -/
theorem placed_negation {s t t' : Statement} {side : ConstraintKind} (hs : s.Bounds side)
    (hrs : s.Representable) (hout : s.Outside t.value side)
    (hkind : ¬ (t.kind = side ∨ t.kind = .disequality)) (hneg : t.negation? = some t') :
    (t'.kind = side ∨ t'.kind = .disequality) ∧ ¬ t.Outside t'.value side ∧
      ¬ t'.Outside s.value side := by
  have hrep := hs.representable hrs
  obtain ⟨w, j, ⟨d, n⟩⟩ := t
  cases side with
  | lower => cases j <;> grind [negation?, Outside, Representable, DeltaRat.lt_def]
  | upper => cases j <;> grind [negation?, Outside, Representable, DeltaRat.lt_def]
  | _ => exact hs.elim

/-- A bound implies the negations of the other constraints beyond its number. -/
theorem implies_negation_of_outside {s t t' : Statement} {side : ConstraintKind}
    (hs : s.Bounds side) (hrs : s.Representable) (hout : s.Outside t.value side)
    (hvar : t.var = s.var) (hkind : ¬ (t.kind = side ∨ t.kind = .disequality))
    (hneg : t.negation? = some t') : s.Implies t' := by
  have hvar' := (var_of_negation? hneg).trans hvar
  obtain ⟨hkind', -, hplace⟩ := placed_negation hs hrs hout hkind hneg
  rcases hkind' with hkind' | hkind'
  · exact implies_of_not_outside hs hvar' hkind' hplace
  · -- only an equality has a disequality as its negation, and they have the same number
    refine implies_of_outside hs ?_ hvar' (.inr hkind')
    rwa [value_of_negation? hneg hkind']

/-- The second statement is the first one, lies beyond its number, or is a bound at the number of an
equality. -/
inductive Reaches (s t : Statement) : Prop where
  | same (h : t = s)
  | beyond (side : ConstraintKind) (bounds : s.Bounds side) (outside : s.Outside t.value side)
      (kind : t.kind = side ∨ t.kind = .disequality)
  | bound (equality : s.kind = .equality) (value : t.value = s.value)
      (kind : t.kind = .lower ∨ t.kind = .upper)

theorem Reaches.implies {s t : Statement} (h : s.Reaches t) (hvar : t.var = s.var) :
    s.Implies t := by
  cases h with
  | same h => exact h ▸ .refl s
  | beyond _ hs hout hkind => exact implies_of_outside hs hout hvar hkind
  | bound hequality hvalue hkind =>
    refine ⟨hvar, fun z hz => ?_⟩
    rw [Holds, hequality] at hz
    rcases hkind with hkind | hkind <;> rw [Holds, hkind, hvalue, show z = s.value from hz]

section Rationals

variable {v : Var} {c i : ℚ} {t : Statement} (ht : t.Representable) (hvar : t.var = v)

include ht hvar

/-- What follows from a bound at all rationals is the bound itself, or lies beyond it. -/
theorem reaches_of_bound {side : ConstraintKind} (hside : side = .lower ∨ side = .upper)
    (hs : Representable ⟨v, side, ⟨c, i⟩⟩)
    (h : ∀ q : ℚ, Holds ⟨v, side, ⟨c, i⟩⟩ (.ofRat q) → t.Holds (.ofRat q)) :
    Reaches ⟨v, side, ⟨c, i⟩⟩ t := by
  obtain ⟨w, j, ⟨d, n⟩⟩ := t
  obtain rfl : w = v := hvar
  -- the two standard parts, the middle between them, and numbers next to them on either side
  have hc := h c
  have hd := h d
  have hmiddle := h ((c + d) / 2)
  have hcAbove := h (c + 1)
  have hdAbove := h (d + 1)
  have hcBelow := h (c - 1)
  have hdBelow := h (d - 1)
  have hkind : j = side ∨ j = .disequality := by
    rcases hside with rfl | rfl <;> cases j <;>
      grind [Holds, Representable, DeltaRat.ofRat, DeltaRat.le_def]
  by_cases hout : Outside ⟨w, side, ⟨c, i⟩⟩ ⟨d, n⟩ side
  · have hbounds : Bounds ⟨w, side, ⟨c, i⟩⟩ side := by
      rcases hside with rfl | rfl <;> exact .inl rfl
    exact .beyond side hbounds hout hkind
  · have hsame : j = side ∧ d = c ∧ n = i := by
      rcases hside with rfl | rfl <;> rcases hkind with rfl | rfl <;>
        grind [Holds, Representable, Outside, DeltaRat.ofRat, DeltaRat.le_def, DeltaRat.lt_def]
    obtain ⟨rfl, rfl, rfl⟩ := hsame
    exact .same rfl

omit ht in
theorem reaches_of_equality {x : DeltaRat} (h : t.Holds x) : Reaches ⟨v, .equality, x⟩ t := by
  obtain ⟨w, j, y⟩ := t
  obtain rfl : w = v := hvar
  cases j with
  | lower =>
    rcases lt_or_eq_of_le (h : y ≤ x) with hlt | heq
    · exact .beyond .lower (.inr rfl) hlt (.inl rfl)
    · exact .bound rfl heq (.inl rfl)
  | upper =>
    rcases lt_or_eq_of_le (h : x ≤ y) with hlt | heq
    · exact .beyond .upper (.inr rfl) hlt (.inl rfl)
    · exact .bound rfl heq.symm (.inr rfl)
  | equality => exact .same (by rw [show x = y from h])
  | disequality =>
    rcases lt_or_gt_of_ne (h : x ≠ y) with hlt | hgt
    · exact .beyond .upper (.inr rfl) hlt (.inr rfl)
    · exact .beyond .lower (.inr rfl) hgt (.inr rfl)

end Rationals

/-- Among statements that come from comparisons with rationals, what follows at all rationals from a
bound or an equality is within its reach. -/
theorem Representable.reaches {s t : Statement} (hs : s.Representable) (ht : t.Representable)
    (hvar : t.var = s.var) (hkind : s.kind ≠ .disequality)
    (h : ∀ q : ℚ, s.Holds (.ofRat q) → t.Holds (.ofRat q)) : s.Reaches t := by
  obtain ⟨v, k, ⟨c, i⟩⟩ := s
  cases k with
  | lower => exact reaches_of_bound ht hvar (.inl rfl) hs h
  | upper => exact reaches_of_bound ht hvar (.inr rfl) hs h
  | equality =>
    obtain rfl : i = 0 := hs
    exact reaches_of_equality hvar (h c rfl)
  | disequality => exact absurd rfl hkind

end Statement

namespace Database

/-! ## What is known -/

/-- Neither the constraint nor its negation has a proof. -/
def Unknown (db : Database) (c : ConstraintId) : Prop :=
  ∃ k l, db.stored c = some k ∧ k.proof = none ∧ db.stored k.negation = some l ∧ l.proof = none

theorem hasProof_eq_ok {db : Database} {c : ConstraintId} {k : Constraint}
    (h : db.stored c = some k) : db.hasProof c = .ok k.proof.isSome := by
  rw [hasProof, get_eq_ok h]
  rfl

theorem negationHasProof_eq_ok {db : Database} {c : ConstraintId} {k l : Constraint}
    (h : db.stored c = some k) (hn : db.stored k.negation = some l) :
    db.negationHasProof c = .ok l.proof.isSome := by
  rw [negationHasProof, get_eq_ok h, ok_bind, hasProof_eq_ok hn]

theorem Indexed.isUnknown_spec {db : Database} (h : db.Indexed) {c : ConstraintId} {k : Constraint}
    (hc : db.stored c = some k) : ∃ b, db.isUnknown c = .ok b ∧ (b = true ↔ db.Unknown c) := by
  obtain ⟨l, hl, _⟩ := h.negation c k hc
  have hiff : db.Unknown c ↔ k.proof = none ∧ l.proof = none := by
    constructor
    · rintro ⟨k', l', hk', hp, hl', hq⟩
      rw [hc] at hk'
      obtain rfl := Option.some.inj hk'
      rw [hl] at hl'
      obtain rfl := Option.some.inj hl'
      exact ⟨hp, hq⟩
    · exact fun ⟨hp, hq⟩ => ⟨k, l, hc, hp, hl, hq⟩
  rw [isUnknown, hasProof_eq_ok hc, ok_bind, negationHasProof_eq_ok hc hl, ok_bind, hiff]
  cases k.proof with
  | some p => exact ⟨false, rfl, by simp⟩
  | none =>
    cases l.proof with
    | some p => exact ⟨false, rfl, by simp⟩
    | none => exact ⟨true, rfl, by simp⟩

/-! ## The walk -/

/-- The constraint is live and implied by a statement. -/
def Follows (db : Database) (s : Statement) (d : ConstraintId) : Prop :=
  ∃ k, db.stored d = some k ∧ k.live = true ∧ s.Implies k.statement

/-- The constraints collected so far follow from the statement, are unknown and differ. -/
structure Collects (db : Database) (s : Statement) (l : List ConstraintId) : Prop where
  nodup : l.Nodup
  unknown : ∀ d ∈ l, db.Unknown d
  follows : ∀ d ∈ l, db.Follows s d

theorem Collects.nil (db : Database) (s : Statement) : db.Collects s [] :=
  ⟨List.nodup_nil, fun _ h => absurd h List.not_mem_nil, fun _ h => absurd h List.not_mem_nil⟩

/-- The constraint has been collected, or something is known about it. -/
def Met (db : Database) (l : List ConstraintId) (d : ConstraintId) : Prop := d ∈ l ∨ ¬ db.Unknown d

theorem Met.mono {db : Database} {l l' : List ConstraintId} {d : ConstraintId} (h : db.Met l d)
    (hsub : l ⊆ l') : db.Met l' d := h.imp_left fun hd => hsub hd

/-- The walk from a bound on a side reaches the constraint under its own number. -/
def Direct (db : Database) (side : ConstraintKind) (d : ConstraintId) : Prop :=
  ∃ k, db.stored d = some k ∧ (k.statement.kind = side ∨ k.statement.kind = .disequality)

/-- The constraint is a bound on a side that is known to hold. -/
def Stops (db : Database) (side : ConstraintKind) (b : ConstraintId) : Prop :=
  ∃ k, db.stored b = some k ∧ k.statement.kind = side ∧ k.hasProof = true

section Walk

variable {db : Database} (h : db.Indexed) {s : Statement}

include h

theorem Indexed.addUnknown_spec {l : List ConstraintId} (hl : db.Collects s l) {d : ConstraintId}
    (hd : db.Follows s d) :
    ∃ l', db.addUnknown l d = .ok l' ∧ db.Collects s l' ∧ l ⊆ l' ∧ db.Met l' d := by
  obtain ⟨k, hk, hlive, himp⟩ := hd
  obtain ⟨b, hok, hb⟩ := h.isUnknown_spec hk
  rw [addUnknown, hok, ok_bind]
  cases b with
  | false => exact ⟨l, rfl, hl, List.Subset.refl l, .inr fun hu => Bool.noConfusion (hb.mpr hu)⟩
  | true =>
    cases hcon : l.contains d with
    | true => exact ⟨l, rfl, hl, List.Subset.refl l, .inl (by simpa using hcon)⟩
    | false =>
      have hd : d ∉ l := by simpa using hcon
      refine ⟨l ++ [d], rfl, ⟨?_, fun e he => ?_, fun e he => ?_⟩, List.subset_append_left l [d],
        .inl (List.mem_append_right _ (List.mem_singleton_self d))⟩
      · refine List.nodup_append.mpr ⟨hl.nodup, List.pairwise_singleton _ _, ?_⟩
        rintro e he f hf rfl
        exact hd (List.mem_singleton.mp hf ▸ he)
      · rcases List.mem_append.mp he with he | he
        · exact hl.unknown e he
        · exact List.mem_singleton.mp he ▸ hb.mp rfl
      · rcases List.mem_append.mp he with he | he
        · exact hl.follows e he
        · exact List.mem_singleton.mp he ▸ ⟨k, hk, hlive, himp⟩

/-- What a bound implies about a constraint beyond its number. -/
theorem Indexed.follows_consequence {side : ConstraintKind} (hs : s.Bounds side)
    (hrs : s.Representable) {d : ConstraintId} {k : Constraint} (hk : db.stored d = some k)
    (hlive : k.live = true) (hvar : k.statement.var = s.var)
    (hout : s.Outside k.statement.value side) : db.Follows s (consequence side d k) := by
  rw [consequence]
  split
  · rename_i hkind
    exact ⟨k, hk, hlive, Statement.implies_of_outside hs hout hvar hkind⟩
  · rename_i hkind
    obtain ⟨l, hl, _, hneg, hll⟩ := h.negation d k hk
    exact ⟨l, hl, hll.trans hlive,
      Statement.implies_negation_of_outside hs hrs hout hvar hkind hneg⟩

/-- Which constraint an entry of the index is. -/
theorem Indexed.stored_of_slot {v : Var} {y : DeltaRat} {slots : ValueSlots}
    {d : ConstraintId} (hy : (db.onVar v).get? y = some slots) (hd : d ∈ slots.toList) :
    ∃ k kind, db.stored d = some k ∧ k.live = true ∧ k.statement = ⟨v, kind, y⟩ := by
  obtain ⟨kind, _, hkind⟩ := List.mem_filterMap.mp hd
  have hfind : db.find? ⟨v, kind, y⟩ = some d := by
    rw [find?_eq, hy]
    exact hkind
  obtain ⟨k, hk, hlive, hst⟩ := (h.find_iff _ _).mp hfind
  exact ⟨k, kind, hk, hlive, hst⟩

end Walk

/-! ## One number -/

/-- While the constraints at a number are visited: those that are behind have been met, and a walk
that is about to end has met a known bound. -/
structure Visiting (db : Database) (s : Statement) (side : ConstraintKind)
    (ids l rest : List ConstraintId) (p : List ConstraintId × Bool) : Prop where
  collects : db.Collects s p.1
  subset : l ⊆ p.1
  todo : rest ⊆ ids
  met : ∀ d ∈ ids, d ∉ rest → db.Direct side d → db.Met p.1 d
  stops : p.2 = true → ∃ b ∈ ids, db.Stops side b

section Visit

variable {db : Database} {s : Statement} {side : ConstraintKind} {ids l rest : List ConstraintId}
  {p : List ConstraintId × Bool} {d : ConstraintId}

theorem Visiting.start (hl : db.Collects s l) : db.Visiting s side ids l ids (l, false) :=
  ⟨hl, List.Subset.refl l, List.Subset.refl ids, fun _ hd hnd => absurd hd hnd,
    fun h => (by cases h)⟩

/-- The front of the list is visited. -/
theorem Visiting.next (h : db.Visiting s side ids l (d :: rest) p) {l' : List ConstraintId}
    (hl : db.Collects s l') (hsub : p.1 ⊆ l') (hd : db.Direct side d → db.Met l' d) {stop : Bool}
    (hstop : stop = true → ∃ b ∈ ids, db.Stops side b) :
    db.Visiting s side ids l rest (l', stop) where
  collects := hl
  subset := List.Subset.trans h.subset hsub
  todo := List.Subset.trans (List.subset_cons_self d rest) h.todo
  met e he hne hdirect := by
    by_cases hed : e = d
    · exact hed ▸ hd (hed ▸ hdirect)
    · exact (h.met e he (by simp [hed, hne]) hdirect).mono hsub
  stops := hstop

end Visit

section Walk

variable {db : Database} (h : db.Indexed) {s : Statement}

include h

/-- Visiting the constraints at a number beyond that of a bound. -/
theorem Indexed.visit_spec {side : ConstraintKind} (hs : s.Bounds side)
    (hrs : s.Representable) (ids : List ConstraintId) {l : List ConstraintId}
    (hl : db.Collects s l)
    (hids : ∀ d ∈ ids, ∃ k, db.stored d = some k ∧ k.live = true ∧ k.statement.var = s.var ∧
      s.Outside k.statement.value side) :
    ∃ l' stop, db.visit side ids l = .ok (l', stop) ∧ db.Collects s l' ∧ l ⊆ l' ∧
      (∀ d ∈ ids, db.Direct side d → db.Met l' d) ∧
        (stop = true → ∃ b ∈ ids, db.Stops side b) := by
  have hfold := Checked.exists_foldlM (f := fun (p : List ConstraintId × Bool) id => do
      let c ← db.get id
      if c.statement.kind = side && c.hasProof then return (p.1, true)
      else return (← db.addUnknown p.1 (consequence side id c), p.2))
    (db.Visiting s side ids l)
    (by
      rintro d rest ⟨l₁, stop⟩ hv
      have hmem := hv.todo List.mem_cons_self
      obtain ⟨k, hk, hlive, hvar, hout⟩ := hids d hmem
      obtain ⟨l₂, hok, hl₂, hsub₂, hmet₂⟩ :=
        h.addUnknown_spec hv.collects (h.follows_consequence hs hrs hk hlive hvar hout)
      simp only [get_eq_ok hk, ok_bind, hok]
      split
      · rename_i hknown
        rw [Bool.and_eq_true, decide_eq_true_eq] at hknown
        refine ⟨(l₁, true), rfl, hv.next hv.collects (List.Subset.refl _) (fun _ => .inr ?_)
          fun _ => ⟨d, hmem, k, hk, hknown⟩⟩
        rintro ⟨k', _, hk', hp, _⟩
        rw [hk] at hk'
        obtain rfl := Option.some.inj hk'
        rw [Constraint.hasProof, hp] at hknown
        cases hknown.2
      · refine ⟨(l₂, stop), rfl, hv.next hl₂ hsub₂ ?_ hv.stops⟩
        rintro ⟨k', hk', hkind⟩
        rw [hk] at hk'
        obtain rfl := Option.some.inj hk'
        rwa [consequence, if_pos hkind] at hmet₂)
    ids (l, false) (.start hl)
  obtain ⟨⟨l', stop⟩, hok, hv⟩ := hfold
  exact ⟨l', stop, hok, hv.collects, hv.subset, fun d hd => hv.met d hd List.not_mem_nil, hv.stops⟩

end Walk

/-! ## All numbers on one side -/

/-- A known bound on a side from which a statement bounds its variable, beyond the number of the
statement. -/
structure Limits (db : Database) (s : Statement) (side : ConstraintKind) (b : ConstraintId)
    (m : Constraint) : Prop where
  stored : db.stored b = some m
  live : m.live = true
  proven : m.hasProof = true
  var : m.statement.var = s.var
  kind : m.statement.kind = side
  bounds : s.Bounds side
  outside : s.Outside m.statement.value side

section Limits

variable {db : Database} {s : Statement} {side : ConstraintKind} {b : ConstraintId}
  {m : Constraint}

theorem Limits.kind_ne (h : db.Limits s side b m) : m.statement.kind ≠ .disequality := by
  intro hk
  rw [h.kind] at hk
  exact (hk ▸ h.bounds : s.Bounds .disequality).elim

theorem Limits.statement_ne (h : db.Limits s side b m) : m.statement ≠ s := by
  intro heq
  have hout := h.outside
  rw [heq] at hout
  cases side with
  | lower => exact lt_irrefl _ hout
  | upper => exact lt_irrefl _ hout
  | _ => exact hout.elim

theorem Limits.bounds_side (h : db.Limits s side b m) : m.statement.Bounds side := by
  have hbounds := h.bounds
  cases side with
  | lower => exact .inl h.kind
  | upper => exact .inl h.kind
  | _ => exact hbounds.elim

end Limits

/-- The constraint was met on the walk from a statement, or the walk ended at a known bound between
the statement and the constraint. -/
def Walked (db : Database) (s : Statement) (side : ConstraintKind) (l : List ConstraintId)
    (d : ConstraintId) : Prop :=
  db.Met l d ∨ ∃ b m kd, db.Limits s side b m ∧ db.stored d = some kd ∧
    m.statement.Outside kd.statement.value side

theorem Walked.mono {db : Database} {s : Statement} {side : ConstraintKind}
    {l l' : List ConstraintId} {d : ConstraintId} (h : db.Walked s side l d) (hsub : l ⊆ l') :
    db.Walked s side l' d :=
  h.imp_left fun hmet => hmet.mono hsub

/-- A walk collects more, and nothing beyond the number of the bound is missed up to a known
bound. -/
structure Sweeps (db : Database) (s : Statement) (side : ConstraintKind)
    (l l' : List ConstraintId) : Prop where
  collects : db.Collects s l'
  subset : l ⊆ l'
  walked : ∀ d k, db.stored d = some k → k.live = true → k.statement.var = s.var →
    s.Outside k.statement.value side →
      (k.statement.kind = side ∨ k.statement.kind = .disequality) → db.Walked s side l' d

/-- The entries of the index at the numbers that a statement selects. -/
theorem mem_entries_filter_iff {db : Database} {s : Statement} {side : ConstraintKind}
    {p : DeltaRat → Bool} (hp : ∀ y, p y = true ↔ s.Outside y side) {e : DeltaRat × ValueSlots} :
    e ∈ ((db.onVar s.var).filter fun y _ => p y).entries ↔
      (db.onVar s.var).get? e.1 = some e.2 ∧ s.Outside e.1 side := by
  rw [← hp, SortedMap.get?_eq_some_iff]
  exact List.mem_filter

section Walk

variable {db : Database} (h : db.Indexed) {s : Statement}

include h

/-- The walk over the numbers beyond that of a bound. -/
theorem Indexed.sweep_spec {side : ConstraintKind} (hs : s.Bounds side)
    (hrs : s.Representable) {walk : List (DeltaRat × ValueSlots)}
    (hwalk : ∀ e ∈ walk, (db.onVar s.var).get? e.1 = some e.2 ∧ s.Outside e.1 side)
    (hsorted : walk.Pairwise fun e f => (⟨s.var, side, e.1⟩ : Statement).Outside f.1 side)
    {l : List ConstraintId} (hl : db.Collects s l) :
    ∃ l', db.sweep side (walk.map Prod.snd) l = .ok l' ∧ db.Collects s l' ∧ l ⊆ l' ∧
      ∀ e ∈ walk, ∀ d ∈ e.2.toList, db.Direct side d → db.Walked s side l' d := by
  induction walk generalizing l with
  | nil => exact ⟨l, rfl, hl, List.Subset.refl l, fun e he => (by cases he)⟩
  | cons e rest ih =>
    obtain ⟨y, slots⟩ := e
    obtain ⟨hy, hout⟩ := hwalk _ List.mem_cons_self
    obtain ⟨hfirst, hsorted⟩ := List.pairwise_cons.mp hsorted
    have hrest := fun f hf => hwalk f (List.mem_cons_of_mem _ hf)
    obtain ⟨l₁, stop, hok, hl₁, hsub, hmet, hstop⟩ :=
      h.visit_spec hs hrs slots.toList hl fun d hd => by
        obtain ⟨k, kind, hk, hlive, hst⟩ := h.stored_of_slot hy hd
        exact ⟨k, hk, hlive, by rw [hst], by rw [hst]; exact hout⟩
    rw [List.map_cons, sweep, hok, ok_bind]
    cases stop with
    | true =>
      obtain ⟨b, hb, k, hk, hkind, hproof⟩ := hstop rfl
      obtain ⟨k', kind, hk', hlive, hst⟩ := h.stored_of_slot hy hb
      rw [hk] at hk'
      obtain rfl := Option.some.inj hk'
      refine ⟨l₁, rfl, hl₁, hsub, fun f hf d hd hdirect => ?_⟩
      rcases List.mem_cons.mp hf with rfl | hf
      · exact .inl (hmet d hd hdirect)
      · -- the numbers that follow lie beyond that of the known bound
        obtain ⟨kd, kind', hkd, _, hstd⟩ := h.stored_of_slot (hrest f hf).1 hd
        rw [hst] at hkind
        obtain rfl : kind = side := hkind
        refine .inr ⟨b, k, kd, ?_, hkd, ?_⟩
        · exact ⟨hk, hlive, hproof, by rw [hst], by rw [hst], hs, by rw [hst]; exact hout⟩
        · rw [hst, hstd]
          exact hfirst f hf
    | false =>
      obtain ⟨l', hok', hl', hsub', hwalked⟩ := ih hrest hsorted hl₁
      refine ⟨l', hok', hl', List.Subset.trans hsub hsub', fun f hf d hd hdirect => ?_⟩
      rcases List.mem_cons.mp hf with rfl | hf
      · exact .inl ((hmet d hd hdirect).mono hsub')
      · exact hwalked f hf d hd hdirect

/-- The walk reaches every constraint beyond the number of the bound, up to a known bound. -/
theorem Indexed.sweepSlots_spec {side : ConstraintKind} (hs : s.Bounds side)
    (hrs : s.Representable) {p : DeltaRat → Bool} (hp : ∀ y, p y = true ↔ s.Outside y side)
    {walk : List (DeltaRat × ValueSlots)}
    (hwalk : ∀ e, e ∈ walk ↔ e ∈ ((db.onVar s.var).filter fun y _ => p y).entries)
    (hsorted : walk.Pairwise fun e f => (⟨s.var, side, e.1⟩ : Statement).Outside f.1 side)
    {l : List ConstraintId} (hl : db.Collects s l) :
    ∃ l', db.sweep side (walk.map Prod.snd) l = .ok l' ∧ db.Sweeps s side l l' := by
  have hmem : ∀ e, e ∈ walk ↔ (db.onVar s.var).get? e.1 = some e.2 ∧ s.Outside e.1 side :=
    fun e => (hwalk e).trans (mem_entries_filter_iff hp)
  obtain ⟨l', hok, hl', hsub, hwalked⟩ :=
    h.sweep_spec hs hrs (fun e he => (hmem e).mp he) hsorted hl
  refine ⟨l', hok, hl', hsub, fun d k hk hlive hvar hout hkind => ?_⟩
  have hfind := h.find?_eq_some hk hlive
  rw [find?_eq, hvar] at hfind
  obtain ⟨slots, hslots, hget⟩ := Option.bind_eq_some_iff.mp hfind
  exact hwalked (k.statement.value, slots) ((hmem _).mpr ⟨hslots, hout⟩) d
    (ValueSlots.mem_toList hget) ⟨k, hk, hkind⟩

theorem Indexed.sweepBelow {l : List ConstraintId} (hl : db.Collects s l)
    (hs : s.Bounds .lower) (hrs : s.Representable) :
    ∃ l', db.sweep .lower (db.slotsBelow s.var s.value) l = .ok l' ∧ db.Sweeps s .lower l l' := by
  rw [slotsBelow, SortedMap.values, ← List.map_reverse]
  exact h.sweepSlots_spec hs hrs (p := fun y => y < s.value) (fun _ => decide_eq_true_iff)
    (fun _ => List.mem_reverse) (List.pairwise_reverse.mpr (SortedMap.sorted _)) hl

theorem Indexed.sweepAbove {l : List ConstraintId} (hl : db.Collects s l)
    (hs : s.Bounds .upper) (hrs : s.Representable) :
    ∃ l', db.sweep .upper (db.slotsAbove s.var s.value) l = .ok l' ∧ db.Sweeps s .upper l l' := by
  rw [slotsAbove, SortedMap.values]
  exact h.sweepSlots_spec hs hrs (p := fun y => s.value < y) (fun _ => decide_eq_true_iff)
    (fun _ => Iff.rfl) (SortedMap.sorted _) hl

/-- The bounds at the number of an equality follow from it. -/
theorem Indexed.boundsAt_spec (hs : s.kind = .equality) {l : List ConstraintId}
    (hl : db.Collects s l) :
    ∃ l', (db.boundsAt s.var s.value).foldlM db.addUnknown l = .ok l' ∧ db.Collects s l' ∧
      ∀ d ∈ db.boundsAt s.var s.value, db.Met l' d := by
  obtain ⟨l', hok, hl', _, hmet⟩ := Checked.exists_foldlM (f := db.addUnknown)
    (fun rest l => db.Collects s l ∧ (∀ d ∈ rest, d ∈ db.boundsAt s.var s.value) ∧
      ∀ d ∈ db.boundsAt s.var s.value, d ∉ rest → db.Met l d)
    (by
      rintro d rest l₁ ⟨hl₁, hrest, hmet⟩
      obtain ⟨kind, hmem, hfind⟩ := List.mem_filterMap.mp (hrest d List.mem_cons_self)
      obtain ⟨k, hk, hlive, hst⟩ := (h.find_iff _ _).mp hfind
      have himp : s.Implies k.statement := by
        refine (Statement.Reaches.bound hs (by rw [hst]) ?_).implies (by rw [hst])
        rw [hst]
        simpa using hmem
      obtain ⟨l₂, hok, hl₂, hsub, hmet₂⟩ := h.addUnknown_spec hl₁ ⟨k, hk, hlive, himp⟩
      refine ⟨l₂, hok, hl₂, fun e he => hrest e (List.mem_cons_of_mem _ he), fun e he hne => ?_⟩
      by_cases hed : e = d
      · exact hed ▸ hmet₂
      · exact (hmet e he (by simp [hed, hne])).mono hsub)
    _ l ⟨hl, fun _ => id, fun d hd hnd => absurd hd hnd⟩
  exact ⟨l', hok, hl', fun d hd => hmet d hd List.not_mem_nil⟩

end Walk

/-! ## Nothing is missed -/

/-- What a statement implies has been collected, something is known about it, or it follows from a
known bound beyond the number of the statement. -/
def Covered (db : Database) (s : Statement) (l : List ConstraintId) (d : ConstraintId) : Prop :=
  db.Met l d ∨ ∃ side b m, db.Limits s side b m ∧ db.Follows m.statement d

/-- Everything within the reach of a statement is covered. -/
def Covers (db : Database) (s : Statement) (l : List ConstraintId) : Prop :=
  ∀ d k, db.stored d = some k → k.live = true → k.statement.var = s.var → k.statement ≠ s →
    s.Reaches k.statement → db.Covered s l d

section Covers

variable {db : Database} {s : Statement} {side : ConstraintKind} {l l' l'' : List ConstraintId}

theorem Walked.covered {d : ConstraintId} (h : db.Walked s side l d)
    {kd : Constraint} (hd : db.stored d = some kd) (hlive : kd.live = true)
    (hvar : kd.statement.var = s.var)
    (hkind : kd.statement.kind = side ∨ kd.statement.kind = .disequality) : db.Covered s l d := by
  rcases h with hmet | ⟨b, m, kd', hlimits, hd', hbeyond⟩
  · exact .inl hmet
  · rw [hd] at hd'
    obtain rfl := Option.some.inj hd'
    exact .inr ⟨side, b, m, hlimits, kd, hd, hlive,
      Statement.implies_of_outside hlimits.bounds_side hbeyond (by rw [hlimits.var, hvar]) hkind⟩

/-- A walk covers all that a bound implies. -/
theorem Sweeps.covers (h : db.Sweeps s s.kind l l') (hkind : s.kind ≠ .equality) :
    db.Covers s l' := by
  intro d k hd hlive hvar hne hreach
  cases hreach with
  | same heq => exact absurd heq hne
  | beyond side hs hout hk =>
    obtain rfl := hs.eq_kind hkind
    exact (h.walked d k hd hlive hvar hout hk).covered hd hlive hvar hk
  | bound heq => exact absurd heq hkind

/-- The bounds at its number and two walks cover all that an equality implies. -/
theorem covers_of_equality (h : db.Indexed)
    (hmet : ∀ d ∈ db.boundsAt s.var s.value, db.Met l d) (hbelow : db.Sweeps s .lower l l')
    (habove : db.Sweeps s .upper l' l'') : db.Covers s l'' := by
  intro d k hd hlive hvar hne hreach
  cases hreach with
  | same heq => exact absurd heq hne
  | beyond side hs hout hk =>
    cases side with
    | lower =>
      exact ((hbelow.walked d k hd hlive hvar hout hk).mono habove.subset).covered hd hlive hvar hk
    | upper => exact (habove.walked d k hd hlive hvar hout hk).covered hd hlive hvar hk
    | _ => exact hs.elim
  | bound _ hvalue hk =>
    refine .inl ((hmet d (List.mem_filterMap.mpr ⟨k.statement.kind, by simpa using hk, ?_⟩)).mono
      (List.Subset.trans hbelow.subset habove.subset))
    rw [← h.find?_eq_some hd hlive]
    congr 1
    rw [← hvar, ← hvalue]

end Covers

/-- The constraints that a constraint implies: each once, unknown, and different from it. Nothing
that a bound or an equality implies is missed, unless another known bound implies it. -/
theorem Indexed.impliedBy_spec {db : Database} (h : db.Indexed) {c : ConstraintId} {k : Constraint}
    (hc : db.stored c = some k) (hrs : k.statement.Representable)
    (hrep : ∀ d l, db.stored d = some l → l.live = true → l.statement.Representable) :
    ∃ l, db.impliedBy c = .ok l ∧ db.Collects k.statement l ∧ c ∉ l ∧
      (k.live = true → k.statement.kind ≠ .disequality → ∀ d, db.Follows k.statement d → d ≠ c →
        db.Covered k.statement l d) := by
  -- the constraint itself is left out at the end, and what it implies is within its reach
  suffices hsuff : ∃ l, db.impliedBy c = .ok (l.filter (· ≠ c)) ∧ db.Collects k.statement l ∧
      (k.statement.kind ≠ .disequality → db.Covers k.statement l) by
    obtain ⟨l, hok, hl, hcovers⟩ := hsuff
    refine ⟨_, hok, ⟨hl.nodup.filter _, fun d hd => hl.unknown d (List.mem_filter.mp hd).1,
      fun d hd => hl.follows d (List.mem_filter.mp hd).1⟩, fun hmem => ?_,
      fun hlive hkind d ⟨kd, hd, hdlive, himp⟩ hdc => ?_⟩
    · simpa using (List.mem_filter.mp hmem).2
    · have hne : kd.statement ≠ k.statement := fun heq =>
        hdc (h.eq_of_statement_eq hd hc hdlive hlive heq)
      have hreach := hrs.reaches (hrep d kd hd hdlive) himp.1 hkind fun q => himp.2 _
      exact (hcovers hkind d kd hd hdlive himp.1 hne hreach).imp_left fun hmet =>
        hmet.imp_left fun hmem => List.mem_filter.mpr ⟨hmem, by simpa using hdc⟩
  rw [impliedBy, get_eq_ok hc, ok_bind]
  obtain ⟨st, negation, literal, asserted, proof, pre, split, live⟩ := k
  obtain ⟨v, kind, x⟩ := st
  dsimp only
  cases kind with
  | lower =>
    obtain ⟨l, hok, hl⟩ := h.sweepBelow (.nil db ⟨v, .lower, x⟩) (.inl rfl) hrs
    exact ⟨l, by rw [hok]; rfl, hl.collects, fun _ => hl.covers nofun⟩
  | upper =>
    obtain ⟨l, hok, hl⟩ := h.sweepAbove (.nil db ⟨v, .upper, x⟩) (.inl rfl) hrs
    exact ⟨l, by rw [hok]; rfl, hl.collects, fun _ => hl.covers nofun⟩
  | equality =>
    obtain ⟨l₁, hok₁, hl₁, hmet⟩ := h.boundsAt_spec (s := ⟨v, .equality, x⟩) rfl (.nil db _)
    obtain ⟨l₂, hok₂, hl₂⟩ := h.sweepBelow hl₁ (.inr rfl) hrs
    obtain ⟨l₃, hok₃, hl₃⟩ := h.sweepAbove hl₂.collects (.inr rfl) hrs
    exact ⟨l₃, by rw [hok₁, ok_bind, hok₂, ok_bind, hok₃]; rfl, hl₃.collects,
      fun _ => covers_of_equality h hmet hl₂ hl₃⟩
  | disequality => exact ⟨[], rfl, .nil db _, fun hkind => absurd rfl hkind⟩

theorem Valid.impliedBy_spec {db : Database} (h : db.Valid) {c : ConstraintId} {k : Constraint}
    (hc : db.stored c = some k) :
    ∃ l, db.impliedBy c = .ok l ∧ db.Collects k.statement l ∧ c ∉ l ∧
      (k.live = true → k.statement.kind ≠ .disequality → ∀ d, db.Follows k.statement d → d ≠ c →
        db.Covered k.statement l d) :=
  h.toIndexed.impliedBy_spec hc (h.representable c k hc) fun d l hd _ => h.representable d l hd

theorem Follows.trans {db : Database} {s t : Statement} {d : ConstraintId} (h : db.Follows t d)
    (himp : s.Implies t) : db.Follows s d :=
  let ⟨k, hk, hlive, himp'⟩ := h
  ⟨k, hk, hlive, himp.trans himp'⟩

/-- A statement does not imply both halves of a pair. -/
theorem Follows.not_negation {db : Database} (h : db.Indexed) {s : Statement} (hs : s.Representable)
    {d : ConstraintId} {k : Constraint} (hk : db.stored d = some k) (hd : db.Follows s d) :
    ¬ db.Follows s k.negation := by
  rintro ⟨l, hl, _, himp⟩
  obtain ⟨k', hk', _, himp'⟩ := hd
  rw [hk] at hk'
  obtain rfl := Option.some.inj hk'
  obtain ⟨l', hl', _, hneg, _⟩ := h.negation d k hk
  rw [hl] at hl'
  obtain rfl := Option.some.inj hl'
  obtain ⟨q, hq⟩ := hs.exists_holds
  exact Statement.not_holds_of_negation? hneg (himp'.2 _ hq) (himp.2 _ hq)

end Database

end LinearArithmetic
