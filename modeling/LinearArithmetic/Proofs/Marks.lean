import LinearArithmetic.Database.Proof
import LinearArithmetic.Database.Scope
import LinearArithmetic.Proofs.Collect
import LinearArithmetic.Proofs.Implied
import LinearArithmetic.Proofs.Trail
import Mathlib.Logic.Function.Basic

/-!
# Marks and scopes

What is marked about a constraint is undone with its scope, and everything else about it stays.
The marks of an outer scope can be read off the trail of changes, and leaving scopes brings them
back.
-/

namespace LinearArithmetic

/-- What scopes undo about a constraint. -/
structure Marks where
  proof : Option (List ConstraintId) := none
  asserted : Option Term := none
  preregistered : Bool := false
  split : Bool := false

namespace Constraint

/-- The marks of a constraint. -/
def marks (k : Constraint) : Marks := ⟨k.proof, k.asserted, k.preregistered, k.split⟩

/-- The constraint without its marks. -/
def bare (k : Constraint) : Constraint :=
  { k with proof := none, asserted := none, preregistered := false, split := false }

theorem statement_of_bare {k l : Constraint} (h : k.bare = l.bare) : k.statement = l.statement := by
  have hf := congrArg Constraint.statement h
  exact hf

theorem negation_of_bare {k l : Constraint} (h : k.bare = l.bare) : k.negation = l.negation := by
  have hf := congrArg Constraint.negation h
  exact hf

theorem literal_of_bare {k l : Constraint} (h : k.bare = l.bare) : k.literal = l.literal := by
  have hf := congrArg Constraint.literal h
  exact hf

theorem live_of_bare {k l : Constraint} (h : k.bare = l.bare) : k.live = l.live := by
  have hf := congrArg Constraint.live h
  exact hf

end Constraint

namespace Database

/-! ## Databases that differ in marks only -/

/-- The databases store the same constraints up to marks. -/
structure Agrees (db db' : Database) : Prop where
  bare : ∀ c, (db'.stored c).map Constraint.bare = (db.stored c).map Constraint.bare
  index : db'.index = db.index
  literals : db'.literals = db.literals

theorem Agrees.refl (db : Database) : Agrees db db := ⟨fun _ => rfl, rfl, rfl⟩

theorem Agrees.trans {db₁ db₂ db₃ : Database} (h : Agrees db₁ db₂) (k : Agrees db₂ db₃) :
    Agrees db₁ db₃ :=
  ⟨fun c => (k.bare c).trans (h.bare c), k.index.trans h.index, k.literals.trans h.literals⟩

theorem Agrees.symm {db db' : Database} (h : Agrees db db') : Agrees db' db :=
  ⟨fun c => (h.bare c).symm, h.index.symm, h.literals.symm⟩

theorem Agrees.stored {db db' : Database} (h : Agrees db db') {c : ConstraintId} {k : Constraint}
    (hc : db.stored c = some k) : ∃ k', db'.stored c = some k' ∧ k'.bare = k.bare := by
  have hb := h.bare c
  rw [hc] at hb
  exact Option.map_eq_some_iff.mp hb

theorem Agrees.lookup {db db' : Database} (h : Agrees db db') (t : Term) :
    db'.lookup t = db.lookup t := by
  rw [Database.lookup, Database.lookup, h.literals]

theorem Agrees.onVar {db db' : Database} (h : Agrees db db') (v : Var) :
    db'.onVar v = db.onVar v := by
  rw [Database.onVar, Database.onVar, h.index]

theorem Agrees.find? {db db' : Database} (h : Agrees db db') (s : Statement) :
    db'.find? s = db.find? s := by
  rw [find?_eq, find?_eq, h.onVar]

theorem Agrees.hasConstraints {db db' : Database} (h : Agrees db db') (v : Var) :
    db'.hasConstraints v = db.hasConstraints v := by
  rw [Database.hasConstraints, Database.hasConstraints, h.onVar]

theorem Agrees.indexed {db db' : Database} (h : Agrees db db') (hv : db.Indexed) :
    db'.Indexed where
  find_iff s c := by
    rw [h.find?, hv.find_iff]
    constructor
    · rintro ⟨k, hk, hl, hs⟩
      obtain ⟨k', hk', hb⟩ := h.stored hk
      exact ⟨k', hk', (Constraint.live_of_bare hb).trans hl,
        (Constraint.statement_of_bare hb).trans hs⟩
    · rintro ⟨k, hk, hl, hs⟩
      obtain ⟨k', hk', hb⟩ := h.symm.stored hk
      exact ⟨k', hk', (Constraint.live_of_bare hb).trans hl,
        (Constraint.statement_of_bare hb).trans hs⟩
  negation c k hk := by
    obtain ⟨k', hk', hb⟩ := h.symm.stored hk
    obtain ⟨l, hl, hlc, hneg, hlive⟩ := hv.negation c k' hk'
    obtain ⟨l', hl', hb'⟩ := h.stored hl
    rw [Constraint.negation_of_bare hb] at hl'
    refine ⟨l', hl', (Constraint.negation_of_bare hb').trans hlc, ?_, ?_⟩
    · rw [Constraint.statement_of_bare hb', ← Constraint.statement_of_bare hb]
      exact hneg
    · rw [Constraint.live_of_bare hb', ← Constraint.live_of_bare hb]
      exact hlive
  tidy v x slots hx := hv.tidy v x slots (h.onVar v ▸ hx)

theorem Agrees.valid {db db' : Database} (h : Agrees db db') (hv : db.Valid) : db'.Valid where
  toIndexed := h.indexed hv.toIndexed
  representable c k hk := by
    obtain ⟨k', hk', hb⟩ := h.symm.stored hk
    exact Constraint.statement_of_bare hb ▸ hv.representable c k' hk'
  keys := h.literals.symm ▸ hv.keys
  known t c hc := by
    rw [h.lookup] at hc
    obtain ⟨hlit, k, hk, hl, hneg⟩ := hv.known t c hc
    obtain ⟨k', hk', hb⟩ := h.stored hk
    refine ⟨hlit, k', hk', (Constraint.live_of_bare hb).trans hl, ?_⟩
    rw [h.lookup, Constraint.negation_of_bare hb]
    exact hneg
  named c k hk hl := by
    obtain ⟨k', hk', hb⟩ := h.symm.stored hk
    obtain ⟨t, ht, htc⟩ := hv.named c k' hk' ((Constraint.live_of_bare hb).trans hl)
    exact ⟨t, (Constraint.literal_of_bare hb).symm.trans ht, by rw [h.lookup]; exact htc⟩

/-! ## Databases that only lose and gain constraints -/

/-- Numbers stay in use, and every constraint that is alive under an old number was so before. -/
structure Inherits (db db' : Database) : Prop where
  size : db.constraints.size ≤ db'.constraints.size
  live : ∀ c k', c.index < db.constraints.size → db'.stored c = some k' → k'.live = true →
    ∃ k, db.stored c = some k ∧ k.live = true ∧ k.statement = k'.statement

theorem Inherits.refl (db : Database) : Inherits db db :=
  ⟨Nat.le_refl _, fun _ k _ hc hl => ⟨k, hc, hl, rfl⟩⟩

theorem Inherits.trans {db₁ db₂ db₃ : Database} (h : Inherits db₁ db₂) (k : Inherits db₂ db₃) :
    Inherits db₁ db₃ where
  size := h.size.trans k.size
  live c l hlt hc hl := by
    obtain ⟨l', hc', hl', hst⟩ := k.live c l (Nat.lt_of_lt_of_le hlt h.size) hc hl
    obtain ⟨l'', hc'', hl'', hst'⟩ := h.live c l' hlt hc' hl'
    exact ⟨l'', hc'', hl'', hst'.trans hst⟩

theorem size_le_of_stored {db db' : Database}
    (h : ∀ c k, db.stored c = some k → ∃ k', db'.stored c = some k') :
    db.constraints.size ≤ db'.constraints.size := by
  by_contra hlt
  obtain ⟨k, hk⟩ := Arena.get?_isSome (Nat.lt_of_not_le hlt)
  obtain ⟨k', hk'⟩ := h ⟨db'.constraints.size⟩ k hk
  exact Nat.lt_irrefl _ (lt_of_stored hk')

theorem Grown.inherits {db db' : Database} (h : Grown db db') : Inherits db db' where
  size := size_le_of_stored fun c k hk => ⟨k, h.stored c k hk⟩
  live c k' hlt hc hl := by
    obtain ⟨k, hk⟩ := Arena.get?_isSome hlt
    have hc' := h.stored c k hk
    rw [hc] at hc'
    obtain rfl := Option.some.inj hc'
    exact ⟨k', hk, hl, rfl⟩

theorem Agrees.inherits {db db' : Database} (h : Agrees db db') : Inherits db db' where
  size := size_le_of_stored fun _ _ hk => (h.stored hk).imp fun _ => And.left
  live c k' _ hc hl := by
    obtain ⟨k, hk, hb⟩ := h.symm.stored hc
    exact ⟨k, hk, (Constraint.live_of_bare hb).trans hl, Constraint.statement_of_bare hb⟩

theorem Agrees.size_eq {db db' : Database} (h : Agrees db db') :
    db'.constraints.size = db.constraints.size :=
  Nat.le_antisymm h.symm.inherits.size h.inherits.size

theorem Pruned.inherits {db db' : Database} (h : Pruned db db') : Inherits db db' where
  size := size_le_of_stored fun c k hk =>
    (h.stored c k hk).elim (fun hk' => ⟨_, hk'⟩) fun hk' => ⟨_, hk'.2⟩
  live c k' _ hc hl := by
    obtain ⟨k, hk⟩ := h.origin c k' hc
    rcases h.stored c k hk with hk' | ⟨_, hk'⟩
    · rw [hc] at hk'
      obtain rfl := Option.some.inj hk'
      exact ⟨k', hk, hl, rfl⟩
    · rw [hc] at hk'
      rw [Option.some.inj hk'] at hl
      cases hl

/-- Changing the marks of one constraint. -/
theorem agrees_update (db : Database) (c : ConstraintId) {f : Constraint → Constraint}
    (hf : ∀ k, (f k).bare = k.bare) : Agrees db (db.update c f) where
  bare d := by
    rw [stored_update]
    split
    · rw [Option.map_map]
      exact congrArg (Option.map · _) (funext hf)
    · rfl
  index := rfl
  literals := rfl

theorem Agrees.withChanges {db db' : Database} (h : Agrees db db') (t : Trail ConstraintChange) :
    Agrees db { db' with changes := t } := ⟨h.bare, h.index, h.literals⟩

/-! ## Marks in outer scopes -/

/-- The marks of a constraint. -/
def marksOf (db : Database) (c : ConstraintId) : Marks :=
  ((db.stored c).map Constraint.marks).getD {}

theorem marksOf_of_stored {db : Database} {c : ConstraintId} {k : Constraint}
    (h : db.stored c = some k) : db.marksOf c = k.marks := by
  rw [marksOf, h]
  rfl

theorem marksOf_update {db : Database} {c : ConstraintId} {k : Constraint}
    (hc : db.stored c = some k) (f : Constraint → Constraint) :
    (db.update c f).marksOf = Function.update db.marksOf c (f k).marks := by
  funext d
  rw [marksOf, stored_update]
  by_cases hd : d = c
  · subst hd
    rw [if_pos rfl, hc, Function.update_self]
    rfl
  · rw [if_neg hd, Function.update_of_ne hd]
    rfl

/-- Marks with one change undone. -/
def undoMark (m : ConstraintId → Marks) : ConstraintChange → ConstraintId → Marks
  | .proof c => Function.update m c { m c with proof := none, asserted := none }
  | .preregistered c => Function.update m c { m c with preregistered := false }
  | .split c => Function.update m c { m c with split := false }

/-- The marks as they were when `n` scopes were open. -/
def marksAt (db : Database) (n : Nat) : ConstraintId → Marks :=
  (db.changes.undone n).foldl undoMark db.marksOf

theorem marksAt_level (db : Database) : db.marksAt db.changes.level = db.marksOf := by
  rw [marksAt, Trail.undone_level]
  rfl

theorem marksAt_congr {db db' : Database} (hc : db'.changes = db.changes)
    (hm : db'.marksOf = db.marksOf) : db'.marksAt = db.marksAt := by
  funext n
  rw [marksAt, marksAt, hc, hm]

/-- A change that can be undone leaves the marks of outer scopes alone. -/
theorem marksAt_push {db db' : Database} {x : ConstraintChange}
    (hc : db'.changes = db.changes.push x) (hm : undoMark db'.marksOf x = db.marksOf) {n : Nat}
    (hn : n < db.changes.level) : db'.marksAt n = db.marksAt n := by
  rw [marksAt, marksAt, hc, Trail.undone_push hn, List.foldl_cons, hm]

/-- The second database has further marks in the innermost scope. -/
structure Advances (db db' : Database) : Prop where
  agrees : Agrees db db'
  level : db'.changes.level = db.changes.level
  below : ∀ n < db.changes.level, db'.marksAt n = db.marksAt n

theorem Advances.refl (db : Database) : Advances db db := ⟨.refl db, rfl, fun _ _ => rfl⟩

theorem Advances.trans {db₁ db₂ db₃ : Database} (h : Advances db₁ db₂) (k : Advances db₂ db₃) :
    Advances db₁ db₃ :=
  ⟨h.agrees.trans k.agrees, k.level.trans h.level,
    fun n hn => (k.below n (h.level ▸ hn)).trans (h.below n hn)⟩

/-- One mark that is recorded on the trail. -/
theorem advances_of_push {db db' : Database} (h : Agrees db db') {x : ConstraintChange}
    (hc : db'.changes = db.changes.push x) (hm : undoMark db'.marksOf x = db.marksOf) :
    Advances db db' :=
  ⟨h, by rw [hc]; rfl, fun _ hn => marksAt_push hc hm hn⟩

/-! ## Proofs -/

theorem unknown_iff {db : Database} {c : ConstraintId} {k l : Constraint}
    (hc : db.stored c = some k) (hl : db.stored k.negation = some l) :
    db.Unknown c ↔ (db.marksOf c).proof = none ∧ (db.marksOf k.negation).proof = none := by
  rw [marksOf_of_stored hc, marksOf_of_stored hl]
  constructor
  · rintro ⟨k', l', hk', hp, hl', hq⟩
    rw [hc] at hk'
    obtain rfl := Option.some.inj hk'
    rw [hl] at hl'
    obtain rfl := Option.some.inj hl'
    exact ⟨hp, hq⟩
  · rintro ⟨hp, hq⟩
    exact ⟨k, l, hc, hp, hl, hq⟩

theorem update_update_marks (m : ConstraintId → Marks) (c : ConstraintId) {x y : Marks}
    (h : m c = y) : Function.update (Function.update m c x) c y = m := by
  rw [Function.update_idem, ← h, Function.update_eq_self]

/-- Constraints with proofs are good antecedents. -/
theorem verifyProven_eq_ok {db : Database} {cs : List ConstraintId}
    (h : ∀ c ∈ cs, ∃ k, db.stored c = some k ∧ k.proof ≠ none) : db.verifyProven cs = .ok () := by
  rw [verifyProven]
  split
  · induction cs with
    | nil => rfl
    | cons c cs ih =>
      obtain ⟨k, hk, hp⟩ := h c List.mem_cons_self
      rw [List.forM_eq_forM, List.forM_cons, hasProof_eq_ok hk, Option.isSome_iff_ne_none.mpr hp]
      exact ih fun d hd => h d (List.mem_cons_of_mem c hd)
  · rfl

/-- What marking a constraint of which nothing is known records. -/
theorem mark_eq_ok {db : Database} (h : db.Indexed) {c : ConstraintId} {k : Constraint}
    (hc : db.stored c = some k) (hu : db.Unknown c) (as : List ConstraintId)
    (has : as ≠ [] ∨ k.literal ≠ none)
    (hproven : ∀ a ∈ as, ∃ l, db.stored a = some l ∧ l.proof ≠ none) :
    db.mark c as = .ok { db.update c fun k => { k with proof := some as } with
      changes := db.changes.push (.proof c) } := by
  obtain ⟨b, hok, hb⟩ := h.isUnknown_spec hc
  obtain rfl : b = true := hb.mpr hu
  have hguard : (as.isEmpty && k.literal.isNone) = false := by
    rcases has with has | has
    · cases as with
      | nil => exact absurd rfl has
      | cons a as => rfl
    · cases hl : k.literal with
      | none => exact absurd hl has
      | some t => exact Bool.and_false _
  rw [mark, hok, ok_bind]
  simp only [get_eq_ok hc, Bool.not_true, Bool.false_eq_true, if_false, pure_eq_ok, ok_bind,
    hguard, verifyProven_eq_ok hproven]
  rfl

/-- Marking a constraint of which nothing is known as following from others. -/
theorem mark_spec {db : Database} (h : db.Indexed) {c : ConstraintId} {k : Constraint}
    (hc : db.stored c = some k) (hu : db.Unknown c) (hblank : k.asserted = none)
    (as : List ConstraintId) (has : as ≠ [] ∨ k.literal ≠ none)
    (hproven : ∀ a ∈ as, ∃ l, db.stored a = some l ∧ l.proof ≠ none) :
    ∃ db', db.mark c as = .ok db' ∧ Advances db db' ∧
      db'.marksOf = Function.update db.marksOf c { db.marksOf c with proof := some as } := by
  have hproof : k.proof = none := by
    obtain ⟨k', l, hk', hp, _⟩ := hu
    rw [hc] at hk'
    rw [Option.some.inj hk']
    exact hp
  have hmarks : (db.update c fun k => { k with proof := some as }).marksOf =
      Function.update db.marksOf c { db.marksOf c with proof := some as } := by
    rw [marksOf_update hc, marksOf_of_stored hc]
    rfl
  have hagree := agrees_update db c (f := fun k => { k with proof := some as }) fun _ => rfl
  refine ⟨_, mark_eq_ok h hc hu as has hproven, advances_of_push (hagree.withChanges _) rfl ?_,
    hmarks⟩
  change undoMark (db.update c fun k => { k with proof := some as }).marksOf (.proof c) = _
  rw [undoMark, hmarks, Function.update_self]
  refine update_update_marks _ _ ?_
  rw [marksOf_of_stored hc, Constraint.marks, hproof, hblank]

/-- A literal other than that of its own is kept with the proof of an asserted constraint. -/
theorem markAsserted_of_ne {db : Database} (h : db.Valid) {c : ConstraintId} {k : Constraint}
    (hc : db.stored c = some k) (hlive : k.live = true) (hu : db.Unknown c)
    (hblank : k.asserted = none) {t : Term} (ht : db.lookup t = some c) (hne : k.literal ≠ some t) :
    ∃ db', db.markAsserted c t = .ok db' ∧ Advances db db' ∧
      db'.marksOf = Function.update db.marksOf c
        { db.marksOf c with proof := some [], asserted := some t } := by
  obtain ⟨u, hlit, _⟩ := h.named c k hc hlive
  obtain ⟨k', l, hk', hp, hl, hq⟩ := hu
  rw [hc] at hk'
  obtain rfl := Option.some.inj hk'
  let db₁ := db.update c fun k => { k with asserted := some t }
  have hagree₁ : Agrees db db₁ := agrees_update db c fun _ => rfl
  have hc₁ : db₁.stored c = some { k with asserted := some t } := by
    rw [stored_update, if_pos rfl, hc]
    rfl
  have hl₁ : db₁.stored k.negation = some l := by
    rw [stored_update, if_neg (h.negation_ne hc)]
    exact hl
  have hmark := mark_eq_ok (hagree₁.indexed h.toIndexed) hc₁ ⟨_, l, hc₁, hp, hl₁, hq⟩ []
    (.inr (by simp [hlit])) (List.forall_mem_nil _)
  have hmarks : (db₁.update c fun k => { k with proof := some [] }).marksOf =
      Function.update db.marksOf c
        { db.marksOf c with proof := some [], asserted := some t } := by
    rw [marksOf_update hc₁, marksOf_update hc, Function.update_idem, marksOf_of_stored hc]
    rfl
  have hagree := hagree₁.trans
    (agrees_update db₁ c (f := fun k => { k with proof := some [] }) fun _ => rfl)
  refine ⟨_, Eq.trans ?_ hmark, advances_of_push (hagree.withChanges _) rfl ?_, hmarks⟩
  · simp only [markAsserted, ht, ne_eq, not_true_eq_false, if_false, ok_bind, get_eq_ok hc, hne]
    rfl
  · change undoMark (db₁.update c fun k => { k with proof := some [] }).marksOf (.proof c) = _
    rw [undoMark, hmarks, Function.update_self]
    refine update_update_marks _ _ ?_
    rw [marksOf_of_stored hc, Constraint.marks, hp, hblank]

/-- Marking a constraint of which nothing is known as asserted under one of its literals. -/
theorem markAsserted_spec {db : Database} (h : db.Valid) {c : ConstraintId} {k : Constraint}
    (hc : db.stored c = some k) (hu : db.Unknown c) (hblank : k.asserted = none) {t : Term}
    (ht : db.lookup t = some c) :
    ∃ db' a, db.markAsserted c t = .ok db' ∧ Advances db db' ∧
      db'.marksOf = Function.update db.marksOf c
        { db.marksOf c with proof := some [], asserted := a } ∧
      a.or k.literal = some t := by
  obtain ⟨_, k', hk', hlive, _⟩ := h.known t c ht
  rw [hc] at hk'
  obtain rfl := Option.some.inj hk'
  by_cases hnamed : k.literal = some t
  · obtain ⟨db', hok, hadv, hmarks⟩ :=
      mark_spec h.toIndexed hc hu hblank [] (.inr (by rw [hnamed]; simp)) (List.forall_mem_nil _)
    refine ⟨db', none, ?_, hadv, ?_, by rw [Option.none_or, hnamed]⟩
    · simp only [markAsserted, ht, ne_eq, not_true_eq_false, if_false, ok_bind, get_eq_ok hc,
        hnamed, if_true]
      exact hok
    · rw [hmarks]
      congr 1
      rw [marksOf_of_stored hc, Constraint.marks, hblank]
  · obtain ⟨db', hok, hadv, hmarks⟩ := markAsserted_of_ne h hc hlive hu hblank ht hnamed
    exact ⟨db', some t, hok, hadv, hmarks, rfl⟩

/-! ## Constraints that follow -/

theorem Agrees.follows {db db' : Database} (h : Agrees db db') {st : Statement}
    {d : ConstraintId} (hd : db.Follows st d) : db'.Follows st d := by
  obtain ⟨k, hk, hlive, himp⟩ := hd
  obtain ⟨k', hk', hb⟩ := h.stored hk
  refine ⟨k', hk', (Constraint.live_of_bare hb).trans hlive, ?_⟩
  rw [Constraint.statement_of_bare hb]
  exact himp

/-- Marking a constraint leaves the others that follow from the same statement unknown. -/
theorem unknown_of_marked {db db' : Database} (hv : db.Indexed)
    (h : Advances db db') {d e : ConstraintId} {m : Marks}
    (hm : db'.marksOf = Function.update db.marksOf d m) {st : Statement}
    (hrep : st.Representable) (hd : db.Follows st d) (he : db.Follows st e) (hne : e ≠ d)
    (hu : db.Unknown e) : db'.Unknown e := by
  obtain ⟨ke, le, hke, _, hle, _⟩ := id hu
  obtain ⟨ke', hke', hb⟩ := h.agrees.stored hke
  obtain ⟨le', hle', _⟩ := h.agrees.stored hle
  have hneg : ke'.negation = ke.negation := Constraint.negation_of_bare hb
  rw [← hneg] at hle'
  obtain ⟨hpe, hpn⟩ := (unknown_iff hke hle).mp hu
  -- the negation of one does not follow from what the other follows from
  have hned : ke.negation ≠ d := by
    rintro rfl
    exact he.not_negation hv hrep hke hd
  rw [unknown_iff hke' hle', hneg, hm, Function.update_of_ne hne,
    Function.update_of_ne hned]
  exact ⟨hpe, hpn⟩

/-! ## Flags -/

/-- The marks agree on what is known and why. -/
def SameProofs (m m' : ConstraintId → Marks) : Prop :=
  ∀ d, (m' d).proof = (m d).proof ∧ (m' d).asserted = (m d).asserted

theorem SameProofs.refl (m : ConstraintId → Marks) : SameProofs m m := fun _ => ⟨rfl, rfl⟩

theorem SameProofs.trans {m₁ m₂ m₃ : ConstraintId → Marks} (h : SameProofs m₁ m₂)
    (k : SameProofs m₂ m₃) : SameProofs m₁ m₃ :=
  fun d => ⟨(k d).1.trans (h d).1, (k d).2.trans (h d).2⟩

theorem sameProofs_update {m : ConstraintId → Marks} {c : ConstraintId} {x : Marks}
    (hp : x.proof = (m c).proof) (ha : x.asserted = (m c).asserted) :
    SameProofs m (Function.update m c x) := by
  intro d
  by_cases hd : d = c
  · subst hd
    rw [Function.update_self]
    exact ⟨hp, ha⟩
  · rw [Function.update_of_ne hd]
    exact ⟨rfl, rfl⟩

/-- The second database has further flags in the innermost scope. -/
structure Flags (db db' : Database) : Prop where
  advances : Advances db db'
  proofs : SameProofs db.marksOf db'.marksOf

theorem Flags.refl (db : Database) : Flags db db := ⟨.refl db, .refl _⟩

theorem Flags.trans {db₁ db₂ db₃ : Database} (h : Flags db₁ db₂) (k : Flags db₂ db₃) :
    Flags db₁ db₃ := ⟨h.advances.trans k.advances, h.proofs.trans k.proofs⟩

/-- A flag of a constraint is set and the change is noted, so that it can be undone. -/
theorem flags_of_update {db : Database} {c : ConstraintId} {k : Constraint}
    (hc : db.stored c = some k) {f : Constraint → Constraint} {change : ConstraintChange}
    (hbare : ∀ k, (f k).bare = k.bare) (hproof : (f k).proof = k.proof)
    (hasserted : (f k).asserted = k.asserted)
    (hundo : undoMark (Function.update db.marksOf c (f k).marks) change = db.marksOf) :
    Flags db { db.update c f with changes := db.changes.push change } := by
  have hmarks := marksOf_update hc f
  have hblank : db.marksOf c = k.marks := marksOf_of_stored hc
  refine ⟨advances_of_push ((agrees_update db c hbare).withChanges _) rfl ?_, ?_⟩
  · change undoMark (db.update c f).marksOf change = _
    rw [hmarks, hundo]
  · change SameProofs _ (db.update c f).marksOf
    rw [hmarks]
    exact sameProofs_update (by rw [hblank]; exact hproof) (by rw [hblank]; exact hasserted)

/-- Marking a constraint as split. -/
theorem setSplit_spec {db : Database} {c : ConstraintId} {k : Constraint}
    (hc : db.stored c = some k) : ∃ db', db.setSplit c = .ok db' ∧ Flags db db' ∧
      db'.marksOf = Function.update db.marksOf c { db.marksOf c with split := true } := by
  rw [setSplit, get_eq_ok hc, ok_bind]
  have hblank : db.marksOf c = k.marks := marksOf_of_stored hc
  cases hs : k.split with
  | true =>
    refine ⟨db, rfl, .refl db, ?_⟩
    rw [hblank, Constraint.marks, hs, ← Function.update_eq_self c db.marksOf, hblank,
      Function.update_idem, Constraint.marks, hs]
  | false =>
    refine ⟨_, rfl, flags_of_update hc (fun _ => rfl) rfl rfl ?_, ?_⟩
    · rw [undoMark, Function.update_self]
      refine update_update_marks _ _ ?_
      rw [hblank, Constraint.marks, hs]
      rfl
    · rw [hblank]
      exact marksOf_update hc fun k => { k with split := true }

/-- Marking an equation and its negation as split. -/
theorem Valid.split_spec {db : Database} (h : db.Valid) {c : ConstraintId} {k : Constraint}
    (hc : db.stored c = some k) (hkind : k.statement.kind.isBound = false)
    {e : ConstraintId} (he : e = if k.statement.kind = .equality then c else k.negation)
    {l : Constraint} (hl : db.stored e = some l) {lhs rhs : Term}
    (hlit : l.literal = some (.rel .eq lhs rhs)) :
    ∃ db', db.split c = .ok (db', ⟨lhs, rhs⟩) ∧ Flags db db' := by
  obtain ⟨m, hm, _⟩ := h.negation c k hc
  obtain ⟨db₁, hok₁, hf₁, _⟩ := setSplit_spec hc
  obtain ⟨m₁, hm₁, _⟩ := hf₁.advances.agrees.stored hm
  obtain ⟨db₂, hok₂, hf₂, _⟩ := setSplit_spec hm₁
  refine ⟨db₂, ?_, hf₁.trans hf₂⟩
  subst he
  simp only [Database.split, get_eq_ok hc, ok_bind, hkind, Bool.false_eq_true, if_false,
    get_eq_ok hl, hlit, hok₁, hok₂]
  rfl

/-- Marking a constraint as preregistered that is not. -/
theorem setPreregistered_spec {db : Database} {c : ConstraintId} {k : Constraint}
    (hc : db.stored c = some k) (hpre : k.preregistered = false) :
    Flags db (db.setPreregistered c) ∧ (db.setPreregistered c).marksOf =
      Function.update db.marksOf c { db.marksOf c with preregistered := true } := by
  have hblank : db.marksOf c = k.marks := marksOf_of_stored hc
  refine ⟨flags_of_update hc (fun _ => rfl) rfl rfl ?_, ?_⟩
  · rw [undoMark, Function.update_self]
    refine update_update_marks _ _ ?_
    rw [hblank, Constraint.marks, hpre]
    rfl
  · rw [hblank]
    exact marksOf_update hc fun k => { k with preregistered := true }

/-- Marking a pair as preregistered, if neither half is. -/
theorem Valid.preregister_spec {db : Database} (h : db.Valid) {c : ConstraintId} {k l : Constraint}
    (hc : db.stored c = some k) (hl : db.stored k.negation = some l)
    (hk : k.preregistered = false) (hlp : l.preregistered = false) :
    ∃ db', db.preregister c = .ok db' ∧ Flags db db' := by
  have hf := setPreregistered_spec hc hk
  have hl' : (db.setPreregistered c).stored k.negation = some l := by
    change (db.update c _).stored k.negation = _
    rw [stored_update, if_neg (h.negation_ne hc)]
    exact hl
  refine ⟨_, ?_, hf.1.trans (setPreregistered_spec hl' hlp).1⟩
  simp only [preregister, get_eq_ok hc, ok_bind, get_eq_ok hl, hk, hlp, Bool.or_self,
    Bool.false_eq_true, if_false]
  rfl

/-! ## Scopes -/

theorem marksOf_eq_of_unstored {db : Database} {c : ConstraintId} (h : db.stored c = none) :
    db.marksOf c = {} := by
  rw [marksOf, h]
  rfl

/-- Undoing a change undoes it in the marks. -/
theorem marksOf_undo (db : Database) (x : ConstraintChange) :
    (db.undo x).marksOf = undoMark db.marksOf x := by
  have hupdate : ∀ (c : ConstraintId) (f : Constraint → Constraint) (g : Marks → Marks),
      (∀ k, (f k).marks = g k.marks) → g {} = {} →
        (db.update c f).marksOf = Function.update db.marksOf c (g (db.marksOf c)) := by
    intro c f g hfg hg
    cases hc : db.stored c with
    | some k => rw [marksOf_update hc, marksOf_of_stored hc, hfg]
    | none =>
      rw [marksOf_eq_of_unstored hc, hg, ← marksOf_eq_of_unstored hc, Function.update_eq_self]
      funext d
      rw [marksOf, stored_update]
      split
      · rename_i hd
        rw [hd, hc, marksOf_eq_of_unstored hc]
        rfl
      · rfl
  cases x with
  | proof c =>
    exact hupdate c _ (fun m => { m with proof := none, asserted := none }) (fun _ => rfl) rfl
  | preregistered c =>
    exact hupdate c _ (fun m => { m with preregistered := false }) (fun _ => rfl) rfl
  | split c => exact hupdate c _ (fun m => { m with split := false }) (fun _ => rfl) rfl

theorem agrees_undo (db : Database) (x : ConstraintChange) : Agrees db (db.undo x) := by
  cases x with
  | proof c =>
    exact agrees_update db c (f := fun k => { k with proof := none, asserted := none }) fun _ => rfl
  | preregistered c =>
    exact agrees_update db c (f := fun k => { k with preregistered := false }) fun _ => rfl
  | split c => exact agrees_update db c (f := fun k => { k with split := false }) fun _ => rfl

theorem undoAll_spec (xs : List ConstraintChange) (db : Database) :
    Agrees db (xs.foldl undo db) ∧ (xs.foldl undo db).marksOf = xs.foldl undoMark db.marksOf ∧
      (xs.foldl undo db).changes = db.changes := by
  induction xs generalizing db with
  | nil => exact ⟨.refl db, rfl, rfl⟩
  | cons x xs ih =>
    obtain ⟨hagree, hmarks, hchanges⟩ := ih (db.undo x)
    refine ⟨(agrees_undo db x).trans hagree, ?_, ?_⟩
    · rw [List.foldl_cons, hmarks, marksOf_undo, List.foldl_cons]
    · rw [List.foldl_cons, hchanges]
      cases x <;> rfl

/-- Leaving scopes brings the marks of the outer one back. -/
theorem backtrack_spec {db : Database} {n : Nat} (hn : n ≤ db.changes.level) :
    ∃ db', db.backtrack n = .ok db' ∧ Agrees db db' ∧ db'.changes = db.changes.kept n ∧
      db'.marksOf = db.marksAt n := by
  obtain ⟨hagree, hmarks, hchanges⟩ :=
    undoAll_spec (db.changes.undone n) { db with changes := db.changes.kept n }
  refine ⟨_, by rw [backtrack, Trail.backtrack_eq_ok hn]; rfl, ?_, hchanges, hmarks⟩
  exact ((Agrees.refl db).withChanges _).trans hagree

/-- Only scopes that are open can be left. -/
theorem level_of_backtrack {db db' : Database} {n : Nat} (hok : db.backtrack n = .ok db') :
    n ≤ db.changes.level := by
  by_contra hlt
  rw [backtrack, Trail.backtrack, if_neg hlt] at hok
  cases hok

theorem marksAt_kept {db db' : Database} {n : Nat} (hn : n ≤ db.changes.level)
    (hc : db'.changes = db.changes.kept n) (hm : db'.marksOf = db.marksAt n) {k : Nat}
    (hk : k ≤ n) : db'.marksAt k = db.marksAt k := by
  rw [marksAt, marksAt, hc, hm, marksAt, Trail.undone_kept hk hn, List.foldl_append]

theorem marksAt_openScope {db : Database} {n : Nat} (hn : n ≤ db.changes.level) :
    db.openScope.marksAt n = db.marksAt n := by
  rw [marksAt, marksAt]
  change (db.changes.openScope.undone n).foldl _ _ = _
  rw [Trail.undone_openScope hn]
  rfl

/-! ## More and fewer constraints -/

/-- New constraints come without marks. -/
theorem Grown.marksOf {db db' : Database} (h : Grown db db') : db'.marksOf = db.marksOf := by
  funext c
  cases hc : db.stored c with
  | some k => rw [marksOf_of_stored hc, marksOf_of_stored (h.stored c k hc)]
  | none =>
    rw [marksOf_eq_of_unstored hc]
    cases hc' : db'.stored c with
    | none => exact marksOf_eq_of_unstored hc'
    | some k =>
      obtain ⟨hp, ha, hpre, hs⟩ := h.fresh c k hc hc'
      rw [marksOf_of_stored hc', Constraint.marks, hp, ha, hpre, hs]

/-- Removing constraints does not touch marks. -/
theorem Pruned.marksOf {db db' : Database} (h : Pruned db db') : db'.marksOf = db.marksOf := by
  funext c
  cases hc : db.stored c with
  | some k =>
    rw [marksOf_of_stored hc]
    rcases h.stored c k hc with hc' | ⟨_, hc'⟩
    · exact marksOf_of_stored hc'
    · rw [marksOf_of_stored hc']
      rfl
  | none =>
    rw [marksOf_eq_of_unstored hc]
    cases hc' : db'.stored c with
    | none => exact marksOf_eq_of_unstored hc'
    | some k =>
      obtain ⟨k', hk'⟩ := h.origin c k hc'
      rw [hc] at hk'
      cases hk'

end Database

end LinearArithmetic
