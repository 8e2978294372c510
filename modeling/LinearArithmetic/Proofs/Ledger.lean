import LinearArithmetic.Proofs.Explanation
import LinearArithmetic.Proofs.Marks
import LinearArithmetic.Proofs.Registration
import LinearArithmetic.Theory.Search

/-!
# The ledger of a search

The ledger of a scope holds what the search knows there: which constraints have proofs and why,
the bounds, the asserted disequalities and the processed facts. It can be read off the trails for
every scope that is open. A ledger is sound if all of it goes back to processed facts.
-/

namespace LinearArithmetic

/-- The kind of constraint that bounds a variable on a side. -/
def Side.kind : Side → ConstraintKind
  | .lower => .lower
  | .upper => .upper

/-- What a search knows. -/
structure Ledger where
  marks : ConstraintId → Marks
  bounds : Side → Var → Option Bound
  disequalities : List ConstraintId
  facts : List Fact

/-- What the theory knew when `n` scopes were open. -/
def Theory.ledgerAt (s : Theory) (n : Nat) : Ledger where
  marks := s.database.marksAt n
  bounds := s.simplex.model.boundsAt n
  disequalities := (s.disequalities.kept n).toList
  facts := (s.processed.kept n).toList

namespace Ledger

/-- The constraint is known to hold. -/
def Proven (L : Ledger) (c : ConstraintId) : Prop := (L.marks c).proof ≠ none

/-- The bounds leave the variable no value for which the statement fails. -/
def InEffect (L : Ledger) (st : Statement) : Prop :=
  match st.kind with
  | .lower => ∃ b, L.bounds .lower st.var = some b ∧ st.value ≤ b.value
  | .upper => ∃ b, L.bounds .upper st.var = some b ∧ b.value ≤ st.value
  | .equality => ∃ l u, L.bounds .lower st.var = some l ∧ L.bounds .upper st.var = some u ∧
    l.value = st.value ∧ u.value = st.value
  | .disequality => False

/-- The bounds leave the variable the given value only. -/
def Pinned (L : Ledger) (v : Var) (x : DeltaRat) : Prop :=
  ∀ side, ∃ b, L.bounds side v = some b ∧ b.value = x

/-- Every proof, bound and disequality goes back to processed facts. -/
structure Sound (db : Database) (L : Ledger) : Prop where
  stored : ∀ c, L.Proven c → ∃ k, db.stored c = some k ∧ k.live = true
  consistent : ∀ c k, db.stored c = some k → L.Proven c → ¬ L.Proven k.negation
  blank : ∀ c, ¬ L.Proven c → (L.marks c).asserted = none
  self : ∀ c k, db.stored c = some k → (L.marks c).proof = some [] →
    ∃ t, (L.marks c).asserted.or k.literal = some t ∧ db.lookup t = some c ∧
      ∃ f ∈ L.facts, f.literal = t
  implied : ∀ c k a as, db.stored c = some k → (L.marks c).proof = some (a :: as) →
    as = [] ∧ (L.marks a).proof = some [] ∧
      ∃ l, db.stored a = some l ∧ l.statement.Implies k.statement ∧ L.InEffect l.statement
  reasons : ∀ side v b, L.bounds side v = some b → (L.marks b.reason).proof = some [] ∧
    ∃ k, db.stored b.reason = some k ∧ k.statement.var = v ∧ k.statement.value = b.value ∧
      (k.statement.kind = side.kind ∨ k.statement.kind = .equality)
  ordered : ∀ v l u, L.bounds .lower v = some l → L.bounds .upper v = some u → l.value ≤ u.value
  disequalities : ∀ d ∈ L.disequalities, (L.marks d).proof = some [] ∧
    ∃ k, db.stored d = some k ∧ k.statement.kind = .disequality

/-- The second ledger knows more: proofs stay and bounds only get tighter. -/
structure Extends (L L' : Ledger) : Prop where
  proofs : ∀ c, L.Proven c → (L'.marks c).proof = (L.marks c).proof ∧
    (L'.marks c).asserted = (L.marks c).asserted
  bounds : ∀ side v b, L.bounds side v = some b →
    ∃ b', L'.bounds side v = some b' ∧ side.Inside b.value b'.value
  disequalities : ∀ d ∈ L.disequalities, d ∈ L'.disequalities
  facts : ∀ f ∈ L.facts, f ∈ L'.facts

theorem Extends.refl (L : Ledger) : Extends L L :=
  ⟨fun _ _ => ⟨rfl, rfl⟩, fun _ _ b hb => ⟨b, hb, Side.inside_refl _ _⟩, fun _ => id, fun _ => id⟩

theorem Extends.proven {L L' : Ledger} (h : Extends L L') {c : ConstraintId} (hc : L.Proven c) :
    L'.Proven c := by
  rw [Proven, (h.proofs c hc).1]
  exact hc

theorem Extends.trans {L₁ L₂ L₃ : Ledger} (h : Extends L₁ L₂) (k : Extends L₂ L₃) :
    Extends L₁ L₃ where
  proofs c hc := by
    obtain ⟨hp, ha⟩ := h.proofs c hc
    obtain ⟨hp', ha'⟩ := k.proofs c (h.proven hc)
    exact ⟨hp'.trans hp, ha'.trans ha⟩
  bounds side v b hb := by
    obtain ⟨b', hb', hin⟩ := h.bounds side v b hb
    obtain ⟨b'', hb'', hin'⟩ := k.bounds side v b' hb'
    exact ⟨b'', hb'', Side.inside_trans hin hin'⟩
  disequalities d hd := k.disequalities d (h.disequalities d hd)
  facts f hf := k.facts f (h.facts f hf)

/-- What is in effect stays in effect as long as the bounds are in order. -/
theorem InEffect.extends {L L' : Ledger} {st : Statement} (h : L.InEffect st)
    (hext : Extends L L')
    (hord : ∀ v l u, L'.bounds .lower v = some l → L'.bounds .upper v = some u →
      l.value ≤ u.value) : L'.InEffect st := by
  obtain ⟨v, kind, x⟩ := st
  cases kind with
  | lower =>
    obtain ⟨b, hb, hle⟩ := h
    obtain ⟨b', hb', hin⟩ := hext.bounds .lower v b hb
    exact ⟨b', hb', le_trans hle hin⟩
  | upper =>
    obtain ⟨b, hb, hle⟩ := h
    obtain ⟨b', hb', hin⟩ := hext.bounds .upper v b hb
    exact ⟨b', hb', le_trans (hin : b'.value ≤ b.value) hle⟩
  | equality =>
    obtain ⟨l, u, hl, hu, hlx, hux⟩ := h
    obtain ⟨l', hl', hlin⟩ := hext.bounds .lower v l hl
    obtain ⟨u', hu', huin⟩ := hext.bounds .upper v u hu
    have hle := hord v l' u' hl' hu'
    have hxl : x ≤ l'.value := le_trans (ge_of_eq hlx) hlin
    have hux' : u'.value ≤ x := le_trans huin (le_of_eq hux)
    exact ⟨l', u', hl', hu', le_antisymm (le_trans hle hux') hxl,
      le_antisymm hux' (le_trans hxl hle)⟩
  | disequality => exact h.elim

/-- A statement in effect holds for every value within the bounds. -/
theorem InEffect.holds {L : Ledger} {st : Statement} (h : L.InEffect st) {x : DeltaRat}
    (hx : ∀ side b, L.bounds side st.var = some b → side.Inside b.value x) : st.Holds x := by
  obtain ⟨v, kind, y⟩ := st
  cases kind with
  | lower =>
    obtain ⟨b, hb, hle⟩ := h
    exact le_trans hle (hx .lower b hb)
  | upper =>
    obtain ⟨b, hb, hle⟩ := h
    exact le_trans (hx .upper b hb) hle
  | equality =>
    obtain ⟨l, u, hl, hu, hlx, hux⟩ := h
    have h₁ : l.value ≤ x := hx .lower l hl
    have h₂ : x ≤ u.value := hx .upper u hu
    exact le_antisymm (hux ▸ h₂) (hlx ▸ h₁)
  | disequality => exact h.elim

/-! ## Other databases -/

/-- What the ledger is about is in the second database as it is in the first. -/
structure Keeps (L : Ledger) (db db' : Database) : Prop where
  stored : ∀ c k, L.Proven c → db.stored c = some k →
    ∃ k', db'.stored c = some k' ∧ k'.bare = k.bare
  lookup : ∀ t c, L.Proven c → db.lookup t = some c → db'.lookup t = some c

theorem keeps_of_grown {db db' : Database} (h : Database.Grown db db') (L : Ledger) :
    L.Keeps db db' :=
  ⟨fun c k _ hc => ⟨k, h.stored c k hc, rfl⟩, fun t c _ hc => h.lookup t c hc⟩

theorem keeps_of_agrees {db db' : Database} (h : Database.Agrees db db') (L : Ledger) :
    L.Keeps db db' :=
  ⟨fun _ _ _ hc => h.stored hc, fun t _ _ hc => by rw [h.lookup]; exact hc⟩

/-- Garbage collection keeps what has a proof in an inner scope. -/
theorem keeps_of_collected {db db' : Database} (h : Database.Collected db db') (hv : db.Valid)
    {L : Ledger} (hL : ∀ c, L.Proven c → (db.marksOf c).proof ≠ none) : L.Keeps db db' := by
  have hkeep : ∀ c k, L.Proven c → db.stored c = some k → db'.stored c = some k := by
    intro c k hc hk
    have hp := hL c hc
    rw [Database.marksOf_of_stored hk] at hp
    exact h.pruned.stored_of_hasProof hk (Option.isSome_iff_ne_none.mpr hp)
  refine ⟨fun c k hc hk => ⟨k, hkeep c k hc hk, rfl⟩, fun t c hc ht => ?_⟩
  obtain ⟨_, k, hk, hlive, _⟩ := hv.known t c ht
  exact (h.lookup_iff t c).mpr ⟨ht, k, hkeep c k hc hk, hlive⟩

section Keeps

variable {L : Ledger} {db db' : Database} (hk : L.Keeps db db')

include hk

theorem Keeps.of_stored (hs : L.Sound db) {c : ConstraintId} (hc : L.Proven c) {k' : Constraint}
    (hk' : db'.stored c = some k') : ∃ k, db.stored c = some k ∧ k'.bare = k.bare := by
  obtain ⟨k, hck, _⟩ := hs.stored c hc
  obtain ⟨k'', hk'', hb⟩ := hk.stored c k hc hck
  rw [hk'] at hk''
  exact ⟨k, hck, Option.some.inj hk'' ▸ hb⟩

/-- Soundness is about constraints with proofs only. -/
theorem Sound.keeps (hs : L.Sound db) : L.Sound db' where
  stored c hc := by
    obtain ⟨k, hck, hl⟩ := hs.stored c hc
    obtain ⟨k', hk', hb⟩ := hk.stored c k hc hck
    exact ⟨k', hk', (Constraint.live_of_bare hb).trans hl⟩
  consistent c k' hk' hc := by
    obtain ⟨k, hck, hb⟩ := hk.of_stored hs hc hk'
    rw [Constraint.negation_of_bare hb]
    exact hs.consistent c k hck hc
  blank := hs.blank
  self c k' hk' hp := by
    have hc : L.Proven c := by rw [Proven, hp]; simp
    obtain ⟨k, hck, hb⟩ := hk.of_stored hs hc hk'
    obtain ⟨t, ht, hlook, hf⟩ := hs.self c k hck hp
    exact ⟨t, by rw [Constraint.literal_of_bare hb]; exact ht, hk.lookup t c hc hlook, hf⟩
  implied c k' a as hk' hp := by
    have hc : L.Proven c := by rw [Proven, hp]; simp
    obtain ⟨k, hck, hb⟩ := hk.of_stored hs hc hk'
    obtain ⟨has, hpa, l, hl, himp, heff⟩ := hs.implied c k a as hck hp
    have ha : L.Proven a := by rw [Proven, hpa]; simp
    obtain ⟨l', hl', hbl⟩ := hk.stored a l ha hl
    refine ⟨has, hpa, l', hl', ?_, ?_⟩
    · rw [Constraint.statement_of_bare hbl, Constraint.statement_of_bare hb]
      exact himp
    · rw [Constraint.statement_of_bare hbl]
      exact heff
  reasons side v b hb := by
    obtain ⟨hp, k, hck, hv, hx, hkind⟩ := hs.reasons side v b hb
    obtain ⟨k', hk', hbare⟩ := hk.stored b.reason k (by rw [Proven, hp]; simp) hck
    exact ⟨hp, k', hk', by rw [Constraint.statement_of_bare hbare]; exact ⟨hv, hx, hkind⟩⟩
  ordered := hs.ordered
  disequalities d hd := by
    obtain ⟨hp, k, hck, hkind⟩ := hs.disequalities d hd
    obtain ⟨k', hk', hbare⟩ := hk.stored d k (by rw [Proven, hp]; simp) hck
    exact ⟨hp, k', hk', by rw [Constraint.statement_of_bare hbare]; exact hkind⟩

end Keeps

/-! ## Closed ledgers -/

/-- What the constraint implies is known to hold, unless it is a disequality. -/
def Closes (db : Database) (L : Ledger) (c : ConstraintId) : Prop :=
  ∀ k, db.stored c = some k → k.statement.kind ≠ .disequality →
    ∀ d, db.Follows k.statement d → L.Proven d

/-- What known bounds and equalities imply is known to hold. -/
def Closed (db : Database) (L : Ledger) : Prop := ∀ c, L.Proven c → L.Closes db c

/-- More proofs of the same constraints. -/
theorem Closes.agrees {L L' : Ledger} {db db' : Database} {c : ConstraintId} (h : L.Closes db c)
    (ha : Database.Agrees db db') (hproven : ∀ d, L.Proven d → L'.Proven d) : L'.Closes db' c := by
  intro k' hk' hkind d hd
  obtain ⟨k, hk, hb⟩ := ha.symm.stored hk'
  rw [← Constraint.statement_of_bare hb] at hkind hd
  exact hproven d (h k hk hkind d (ha.symm.follows hd))

theorem Closed.agrees {L L' : Ledger} {db db' : Database} (h : L.Closed db)
    (ha : Database.Agrees db db') (hproven : ∀ d, L'.Proven d ↔ L.Proven d) : L'.Closed db' :=
  fun c hc => (h c ((hproven c).mp hc)).agrees ha fun d => (hproven d).mpr

/-- A closed ledger stays closed as long as there are no new constraints, or no proofs. -/
theorem Closed.transfer {L L' : Ledger} {db db' : Database} (h : L.Closed db) (hs : L.Sound db)
    (hproven : ∀ c, L'.Proven c ↔ L.Proven c) (hkeeps : L.Keeps db db')
    (hinherits : Database.Inherits db db')
    (hsize : db'.constraints.size = db.constraints.size ∨ ∀ c, ¬ L.Proven c) : L'.Closed db' := by
  intro c hc k' hk' hkind d hd
  rw [hproven] at hc ⊢
  rcases hsize with hsize | hnone
  · obtain ⟨k, hk, hb⟩ := hkeeps.of_stored hs hc hk'
    rw [Constraint.statement_of_bare hb] at hkind hd
    obtain ⟨l', hl', hlive, himp⟩ := hd
    obtain ⟨l, hl, hlive', hst⟩ :=
      hinherits.live d l' (hsize ▸ Database.lt_of_stored hl') hl' hlive
    exact h c hc k hk hkind d ⟨l, hl, hlive', hst.symm ▸ himp⟩
  · exact absurd hc (hnone c)

/-! ## Complete ledgers -/

/-- The fact is true without unknowns, or its constraint has a proof. -/
def Settles (L : Ledger) (s : Theory) (t : Term) : Prop :=
  s.constantTruth? t = some true ∨ ∃ c, s.database.lookup t = some c ∧ L.Proven c

/-- The asserted constraint has had its effect on the bounds or the disequalities. -/
def Fulfils (L : Ledger) (c : ConstraintId) (st : Statement) : Prop :=
  (st.kind ≠ .disequality → L.InEffect st) ∧
    (st.kind = .disequality → c ∈ L.disequalities ∧ ¬ L.Pinned st.var st.value)

/-- The asserted constraints have had their effect. -/
def Effective (db : Database) (L : Ledger) : Prop :=
  ∀ c k, db.stored c = some k → (L.marks c).proof = some [] → L.Fulfils c k.statement

/-- Every processed fact has had its effect. -/
structure Complete (s : Theory) (L : Ledger) : Prop where
  settled : ∀ f ∈ L.facts, L.Settles s f.literal
  effective : L.Effective s.database

theorem constantTruth?_mono {s s' : Theory}
    (h : ∀ a b, s.constantAtoms.lookup a = some b → s'.constantAtoms.lookup a = some b) {t : Term}
    {b : Bool} (ht : s.constantTruth? t = some b) : s'.constantTruth? t = some b := by
  obtain ⟨q, hq, rfl⟩ := Option.map_eq_some_iff.mp ht
  rw [Theory.constantTruth?, h _ _ hq]
  rfl

theorem Effective.keeps {db db' : Database} {L : Ledger} (h : L.Effective db)
    (hk : L.Keeps db db') (hs : L.Sound db) : L.Effective db' := by
  intro c k' hk' hp
  obtain ⟨k, hck, hb⟩ := hk.of_stored hs (by rw [Proven, hp]; simp) hk'
  rw [Constraint.statement_of_bare hb]
  exact h c k hck hp

theorem Complete.keeps {s s' : Theory} {L : Ledger} (h : L.Complete s)
    (hk : L.Keeps s.database s'.database) (hs : L.Sound s.database)
    (hconst : ∀ a b, s.constantAtoms.lookup a = some b → s'.constantAtoms.lookup a = some b) :
    L.Complete s' where
  settled f hf := by
    rcases h.settled f hf with ht | ⟨c, hc, hp⟩
    · exact .inl (constantTruth?_mono hconst ht)
    · exact .inr ⟨c, hk.lookup _ c hp hc, hp⟩
  effective := h.effective.keeps hk hs

section Decidable

variable (L : Ledger)

instance (st : Statement) : Decidable (L.InEffect st) :=
  match st with
  | ⟨v, .lower, x⟩ => inferInstanceAs (Decidable (∃ b ∈ L.bounds .lower v, x ≤ b.value))
  | ⟨v, .upper, x⟩ => inferInstanceAs (Decidable (∃ b ∈ L.bounds .upper v, b.value ≤ x))
  | ⟨v, .equality, x⟩ =>
    decidable_of_iff
      (∃ l ∈ L.bounds .lower v, ∃ u ∈ L.bounds .upper v, l.value = x ∧ u.value = x) <| by
        simp only [InEffect, exists_and_left, Option.mem_def]
  | ⟨_, .disequality, _⟩ => isFalse id

instance (v : Var) (x : DeltaRat) : Decidable (L.Pinned v x) :=
  decidable_of_iff ((∃ b ∈ L.bounds .lower v, b.value = x) ∧ ∃ b ∈ L.bounds .upper v, b.value = x)
    ⟨fun h side => by
      cases side with
      | lower => exact h.1
      | upper => exact h.2, fun h => ⟨h .lower, h .upper⟩⟩

instance (c : ConstraintId) (st : Statement) : Decidable (L.Fulfils c st) :=
  inferInstanceAs (Decidable (_ ∧ _))

instance (s : Theory) (t : Term) : Decidable (L.Settles s t) :=
  inferInstanceAs (Decidable (_ ∨ ∃ c ∈ s.database.lookup t, (L.marks c).proof ≠ none))

instance (db : Database) : Decidable (L.Effective db) :=
  decidable_of_iff (∀ i ∈ List.range db.constraints.size, ∀ k ∈ db.stored ⟨i⟩,
    (L.marks ⟨i⟩).proof = some [] → L.Fulfils ⟨i⟩ k.statement)
    ⟨fun h c k hk => h c.index (List.mem_range.mpr (Database.lt_of_stored hk)) k hk,
      fun h i _ k hk => h ⟨i⟩ k hk⟩

instance (s : Theory) : Decidable (L.Complete s) :=
  decidable_of_iff ((∀ f ∈ L.facts, L.Settles s f.literal) ∧ L.Effective s.database)
    ⟨fun h => ⟨h.1, h.2⟩, fun h => ⟨h.settled, h.effective⟩⟩

end Decidable

end Ledger

end LinearArithmetic
