import LinearArithmetic.Database.Basic
import LinearArithmetic.Proofs.Collections
import LinearArithmetic.Proofs.Statement

/-!
# The constraint database

The index finds exactly the constraints that have not been removed, every constraint is stored
with its negation, and every literal leads to a constraint whose negation has the negated literal.
-/

namespace LinearArithmetic

theorem ConstraintId.eq_of_index_eq {a b : ConstraintId} (h : a.index = b.index) : a = b := by
  cases a
  cases b
  exact congrArg _ h

namespace ValueSlots

theorem get_set (s : ValueSlots) (j k : ConstraintKind) (c : Option ConstraintId) :
    (s.set k c).get j = if j = k then c else s.get j := by
  cases j <;> cases k <;> rfl

theorem get_empty (k : ConstraintKind) : ({} : ValueSlots).get k = none := by
  cases k <;> rfl

theorem mem_toList {s : ValueSlots} {k : ConstraintKind} {c : ConstraintId} (h : s.get k = some c) :
    c ∈ s.toList :=
  List.mem_filterMap.mpr ⟨k, by cases k <;> decide, h⟩

theorem isEmpty_eq_false_iff {s : ValueSlots} :
    s.isEmpty = false ↔ ∃ k c, s.get k = some c := by
  rw [isEmpty, List.isEmpty_eq_false_iff_exists_mem]
  constructor
  · rintro ⟨c, hc⟩
    obtain ⟨k, _, hk⟩ := List.mem_filterMap.mp hc
    exact ⟨k, c, hk⟩
  · rintro ⟨k, c, hk⟩
    exact ⟨c, mem_toList hk⟩

end ValueSlots

namespace Database

/-! ## Reading -/

/-- What is stored under the number of a constraint. -/
def stored (db : Database) (c : ConstraintId) : Option Constraint := db.constraints.get? c.index

theorem get_eq_ok {db : Database} {c : ConstraintId} {k : Constraint} (h : db.stored c = some k) :
    db.get c = .ok k := Arena.get_eq_ok h

theorem stored_update (db : Database) (c d : ConstraintId) (f : Constraint → Constraint) :
    (db.update c f).stored d = if d = c then (db.stored d).map f else db.stored d := by
  unfold stored update
  rw [Arena.get?_modify]
  by_cases hdc : d = c
  · rw [hdc, if_pos rfl, if_pos rfl]
  · rw [if_neg hdc, if_neg fun h => hdc (ConstraintId.eq_of_index_eq h)]

@[simp] theorem find?_update (db : Database) (c : ConstraintId) (f : Constraint → Constraint)
    (s : Statement) : (db.update c f).find? s = db.find? s := rfl

@[simp] theorem onVar_update (db : Database) (c : ConstraintId) (f : Constraint → Constraint)
    (v : Var) : (db.update c f).onVar v = db.onVar v := rfl

@[simp] theorem literals_update (db : Database) (c : ConstraintId) (f : Constraint → Constraint) :
    (db.update c f).literals = db.literals := rfl

@[simp] theorem lookup_update (db : Database) (c : ConstraintId) (f : Constraint → Constraint)
    (t : Term) : (db.update c f).lookup t = db.lookup t := rfl

/-! ## The index -/

theorem find?_eq (db : Database) (s : Statement) :
    db.find? s = ((db.onVar s.var).get? s.value).bind (·.get s.kind) := rfl

theorem onVar_setIndex (db : Database) (s : Statement) (c : Option ConstraintId) (v : Var)
    (x : DeltaRat) :
    ((db.setIndex s c).onVar v).get? x =
      if v = s.var ∧ x = s.value then
        let slots := ((db.onVar s.var).get? s.value |>.getD {}).set s.kind c
        if slots.isEmpty then none else some slots
      else (db.onVar v).get? x := by
  unfold onVar setIndex
  dsimp only
  rw [SortedMap.get?_insert]
  by_cases hv : v = s.var
  · subst hv
    rw [if_pos rfl, Option.getD_some, SortedMap.get?_alter]
    by_cases hx : x = s.value
    · rw [if_pos hx, if_pos (⟨rfl, hx⟩ : s.var = s.var ∧ x = s.value)]
      rfl
    · rw [if_neg hx, if_neg fun h : s.var = s.var ∧ x = s.value => hx h.2]
      rfl
  · rw [if_neg hv, if_neg fun h => hv h.1]

theorem find?_setIndex (db : Database) (s t : Statement) (c : Option ConstraintId) :
    (db.setIndex s c).find? t = if t = s then c else db.find? t := by
  have hslots : ∀ slots : ValueSlots,
      (if slots.isEmpty then none else some slots : Option ValueSlots).bind (·.get t.kind) =
        slots.get t.kind := by
    intro slots
    cases he : slots.isEmpty with
    | false => rfl
    | true =>
      symm
      cases hk : slots.get t.kind with
      | none => rfl
      | some d =>
        rw [ValueSlots.isEmpty_eq_false_iff.mpr ⟨_, _, hk⟩] at he
        cases he
  have hempty : ∀ o : Option ValueSlots, (o.getD {}).get t.kind = o.bind (·.get t.kind) := by
    intro o
    cases o with
    | none => exact ValueSlots.get_empty _
    | some slots => rfl
  rw [find?_eq, onVar_setIndex]
  by_cases hvx : t.var = s.var ∧ t.value = s.value
  · rw [if_pos hvx]
    dsimp only
    rw [hslots, ValueSlots.get_set]
    by_cases hk : t.kind = s.kind
    · have hts : t = s := by
        cases t
        cases s
        simp_all
      rw [if_pos hk, if_pos hts]
    · rw [if_neg hk, if_neg fun h => hk (congrArg _ h), hempty, find?_eq, hvx.1, hvx.2]
  · rw [if_neg hvx, if_neg, find?_eq]
    rintro rfl
    exact hvx ⟨rfl, rfl⟩

/-- Every place of the index is in use. -/
def Tidy (db : Database) : Prop :=
  ∀ v x slots, (db.onVar v).get? x = some slots → ∃ k c, slots.get k = some c

theorem tidy_setIndex {db : Database} (h : db.Tidy) (s : Statement) (c : Option ConstraintId) :
    (db.setIndex s c).Tidy := by
  intro v x slots hs
  rw [onVar_setIndex] at hs
  split at hs
  · dsimp only at hs
    split at hs
    · cases hs
    · rename_i hne
      rw [← Option.some.inj hs]
      exact ValueSlots.isEmpty_eq_false_iff.mp (Bool.not_eq_true _ ▸ hne)
  · exact h v x slots hs

theorem stored_setIndex (db : Database) (s : Statement) (c : Option ConstraintId)
    (d : ConstraintId) : (db.setIndex s c).stored d = db.stored d := rfl

/-- The halves of every pair belong together, and the index finds the live constraints. -/
structure Indexed (db : Database) : Prop where
  find_iff : ∀ s c, db.find? s = some c ↔
    ∃ k, db.stored c = some k ∧ k.live = true ∧ k.statement = s
  negation : ∀ c k, db.stored c = some k → ∃ k', db.stored k.negation = some k' ∧
    k'.negation = c ∧ k.statement.negation? = some k'.statement ∧ k'.live = k.live
  tidy : db.Tidy

theorem Indexed.find?_eq_some {db : Database} (h : db.Indexed) {c : ConstraintId} {k : Constraint}
    (hc : db.stored c = some k) (hl : k.live = true) : db.find? k.statement = some c :=
  (h.find_iff _ _).mpr ⟨k, hc, hl, rfl⟩

/-- Live constraints with the same statement are the same. -/
theorem Indexed.eq_of_statement_eq {db : Database} (h : db.Indexed) {c d : ConstraintId}
    {k l : Constraint} (hc : db.stored c = some k) (hd : db.stored d = some l)
    (hk : k.live = true) (hl : l.live = true) (hs : k.statement = l.statement) : c = d := by
  have h₁ := h.find?_eq_some hc hk
  rw [hs, h.find?_eq_some hd hl] at h₁
  exact (Option.some.inj h₁).symm

/-- Some constraint mentions a variable exactly when a live one does. -/
theorem Indexed.hasConstraints_iff {db : Database} (h : db.Indexed) {v : Var} :
    db.hasConstraints v = true ↔
      ∃ c k, db.stored c = some k ∧ k.live = true ∧ k.statement.var = v := by
  rw [hasConstraints, Bool.not_eq_true', SortedMap.isEmpty, List.isEmpty_eq_false_iff_exists_mem]
  constructor
  · rintro ⟨⟨x, slots⟩, hmem⟩
    have hget : (db.onVar v).get? x = some slots := SortedMap.get?_eq_some_iff.mpr hmem
    obtain ⟨kind, c, hc⟩ := h.tidy v x slots hget
    have hfind : db.find? ⟨v, kind, x⟩ = some c := by
      rw [find?_eq, hget]
      exact hc
    obtain ⟨k, hk, hl, hs⟩ := (h.find_iff _ _).mp hfind
    exact ⟨c, k, hk, hl, by rw [hs]⟩
  · rintro ⟨c, k, hk, hl, rfl⟩
    have hfind := h.find?_eq_some hk hl
    rw [find?_eq] at hfind
    obtain ⟨slots, hslots, _⟩ := Option.bind_eq_some_iff.mp hfind
    exact ⟨(k.statement.value, slots), SortedMap.get?_eq_some_iff.mp hslots⟩

theorem Indexed.negation_ne {db : Database} (h : db.Indexed) {c : ConstraintId} {k : Constraint}
    (hc : db.stored c = some k) : k.negation ≠ c := by
  intro heq
  obtain ⟨k', hk', _, hs, _⟩ := h.negation c k hc
  rw [heq, hc] at hk'
  rw [← Option.some.inj hk'] at hs
  exact Statement.kind_of_negation? hs rfl

/-- A change that keeps statements, halves and life keeps the index right. -/
theorem Indexed.update {db : Database} (h : db.Indexed) {c : ConstraintId}
    {f : Constraint → Constraint} (hf : ∀ k, (f k).statement = k.statement ∧
      (f k).negation = k.negation ∧ (f k).live = k.live) : (db.update c f).Indexed := by
  have hto : ∀ d k, db.stored d = some k → ∃ k', (db.update c f).stored d = some k' ∧
      k'.statement = k.statement ∧ k'.negation = k.negation ∧ k'.live = k.live := by
    intro d k hd
    rw [stored_update, hd]
    split
    · exact ⟨f k, rfl, hf k⟩
    · exact ⟨k, rfl, rfl, rfl, rfl⟩
  have hfrom : ∀ d k', (db.update c f).stored d = some k' → ∃ k, db.stored d = some k ∧
      k'.statement = k.statement ∧ k'.negation = k.negation ∧ k'.live = k.live := by
    intro d k' hd
    rw [stored_update] at hd
    split at hd
    · obtain ⟨k, hk, rfl⟩ := Option.map_eq_some_iff.mp hd
      exact ⟨k, hk, hf k⟩
    · exact ⟨k', hd, rfl, rfl, rfl⟩
  refine ⟨fun s d => ?_, fun d k' hd => ?_, h.tidy⟩
  · rw [find?_update, h.find_iff]
    constructor
    · rintro ⟨k, hk, hl, hs⟩
      obtain ⟨k', hk', hs', _, hl'⟩ := hto d k hk
      exact ⟨k', hk', hl'.trans hl, hs'.trans hs⟩
    · rintro ⟨k', hk', hl', hs'⟩
      obtain ⟨k, hk, hs, _, hl⟩ := hfrom d k' hk'
      exact ⟨k, hk, hl.symm.trans hl', hs.symm.trans hs'⟩
  · obtain ⟨k, hk, hs, hn, hl⟩ := hfrom d k' hd
    obtain ⟨l, hl', hln, hls, hll⟩ := h.negation d k hk
    obtain ⟨l', hl'', hls', hln', hll'⟩ := hto k.negation l hl'
    refine ⟨l', hn ▸ hl'', hln'.trans hln, ?_, ?_⟩
    · rw [hs, hls', hls]
    · rw [hll', hll, hl]

/-! ## Storing statements -/

theorem stored_store (db : Database) (s : Statement) (n d : ConstraintId) :
    (db.store s n).stored d =
      if d.index = db.constraints.size then some { statement := s, negation := n }
      else db.stored d := by
  unfold stored store
  exact Arena.get?_push _ _ _

theorem size_store (db : Database) (s : Statement) (n : ConstraintId) :
    (db.store s n).constraints.size = db.constraints.size + 1 := Arena.size_push _ _

theorem find?_store (db : Database) (s t : Statement) (n : ConstraintId) :
    (db.store s n).find? t = if t = s then some ⟨db.constraints.size⟩ else db.find? t :=
  find?_setIndex db s t _

theorem lt_of_stored {db : Database} {c : ConstraintId} {k : Constraint}
    (h : db.stored c = some k) : c.index < db.constraints.size := Arena.lt_size_of_get? h

/-- The outcome of storing a new pair: the statement and its negation under two new numbers. -/
structure Paired (s t : Statement) (c d : ConstraintId) (db db' : Database) : Prop where
  indexed : db'.Indexed
  unused : db.stored c = none ∧ db.stored d = none
  ne : d ≠ c
  stored : ∀ e, db'.stored e =
    if e = c then some { statement := s, negation := d }
    else if e = d then some { statement := t, negation := c }
    else db.stored e
  literals : db'.literals = db.literals
  changes : db'.changes = db.changes

section Pair

variable {db : Database} {s t : Statement}

/-- The two stores that put in a pair. -/
def storePair (db : Database) (s t : Statement) : Database :=
  (db.store s ⟨db.constraints.size + 1⟩).store t ⟨db.constraints.size⟩

theorem succ_size_ne (db : Database) :
    (⟨db.constraints.size + 1⟩ : ConstraintId) ≠ ⟨db.constraints.size⟩ := by
  intro heq
  have := congrArg ConstraintId.index heq
  dsimp only at this
  omega

theorem stored_storePair (db : Database) (s t : Statement) (e : ConstraintId) :
    (db.storePair s t).stored e =
      if e = ⟨db.constraints.size⟩ then
        some { statement := s, negation := ⟨db.constraints.size + 1⟩ }
      else if e = ⟨db.constraints.size + 1⟩ then
        some { statement := t, negation := ⟨db.constraints.size⟩ }
      else db.stored e := by
  rw [storePair, stored_store, stored_store, size_store]
  by_cases he : e = ⟨db.constraints.size⟩
  · subst he
    rw [if_neg (by dsimp only; omega), if_pos rfl, if_pos rfl]
  · rw [if_neg he]
    by_cases he' : e = ⟨db.constraints.size + 1⟩
    · subst he'
      rw [if_pos rfl, if_pos rfl]
    · rw [if_neg he', if_neg fun hi => he' (ConstraintId.eq_of_index_eq hi),
        if_neg fun hi => he (ConstraintId.eq_of_index_eq hi)]

theorem stored_storePair_of_some {c : ConstraintId} {k : Constraint} (h : db.stored c = some k) :
    (db.storePair s t).stored c = some k := by
  have hlt := lt_of_stored h
  rw [stored_storePair, if_neg, if_neg, h]
  · rintro rfl
    dsimp only at hlt
    omega
  · rintro rfl
    exact absurd hlt (Nat.lt_irrefl _)

theorem find?_storePair (db : Database) (s t u : Statement) :
    (db.storePair s t).find? u =
      if u = t then some ⟨db.constraints.size + 1⟩
      else if u = s then some ⟨db.constraints.size⟩ else db.find? u := by
  rw [storePair, find?_store, find?_store, size_store]

/-- The index of a database with a new pair. -/
theorem Indexed.find_iff_storePair (h : db.Indexed) (hts : t ≠ s) (hs : db.find? s = none)
    (ht : db.find? t = none) (u : Statement) (c : ConstraintId) :
    (db.storePair s t).find? u = some c ↔
      ∃ k, (db.storePair s t).stored c = some k ∧ k.live = true ∧ k.statement = u := by
  constructor
  · intro hc
    rw [find?_storePair] at hc
    split at hc
    · rename_i hut
      rw [← Option.some.inj hc, stored_storePair, if_neg (succ_size_ne db), if_pos rfl]
      exact ⟨_, rfl, rfl, hut.symm⟩
    · split at hc
      · rename_i hus
        rw [← Option.some.inj hc, stored_storePair, if_pos rfl]
        exact ⟨_, rfl, rfl, hus.symm⟩
      · obtain ⟨k, hk, hl, hku⟩ := (h.find_iff _ _).mp hc
        exact ⟨k, stored_storePair_of_some hk, hl, hku⟩
  · rintro ⟨k, hk, hl, rfl⟩
    rw [find?_storePair]
    rw [stored_storePair] at hk
    split at hk
    · rename_i hc
      rw [← Option.some.inj hk, if_neg hts.symm, if_pos rfl, hc]
    · split at hk
      · rename_i hc
        rw [← Option.some.inj hk, if_pos rfl, hc]
      · have hfind := h.find?_eq_some hk hl
        rw [if_neg, if_neg, hfind]
        · intro hu
          rw [hu, hs] at hfind
          cases hfind
        · intro hu
          rw [hu, ht] at hfind
          cases hfind

/-- A statement and its negation, neither of which was known, become a pair. -/
theorem Indexed.paired (h : db.Indexed) (hst : s.negation? = some t)
    (hfs : db.find? s = none) (hft : db.find? t = none) :
    Paired s t ⟨db.constraints.size⟩ ⟨db.constraints.size + 1⟩ db (db.storePair s t) := by
  have hts : t ≠ s := fun heq => Statement.kind_of_negation? hst (congrArg _ heq)
  have hnone : ∀ i, db.constraints.size ≤ i → db.stored ⟨i⟩ = none := fun i hi =>
    Arena.get?_eq_none_iff.mpr hi
  refine ⟨⟨h.find_iff_storePair hts hfs hft, fun e k he => ?_, ?_⟩,
    ⟨hnone _ (Nat.le_refl _), hnone _ (Nat.le_succ _)⟩, succ_size_ne db, stored_storePair db s t,
    rfl, rfl⟩
  · rw [stored_storePair] at he
    split at he
    · rename_i hec
      rw [← Option.some.inj he]
      refine ⟨{ statement := t, negation := ⟨db.constraints.size⟩ }, ?_, hec.symm, hst, rfl⟩
      rw [stored_storePair, if_neg (succ_size_ne db), if_pos rfl]
    · split at he
      · rename_i hed
        rw [← Option.some.inj he]
        refine ⟨{ statement := s, negation := ⟨db.constraints.size + 1⟩ }, ?_, hed.symm,
          Statement.negation?_negation? hst, rfl⟩
        rw [stored_storePair, if_pos rfl]
      · obtain ⟨k', hk', hn, hsk, hl⟩ := h.negation e k he
        exact ⟨k', stored_storePair_of_some hk', hn, hsk, hl⟩
  · exact tidy_setIndex (tidy_setIndex h.tidy s _) t _

end Pair

/-- The constraint of a statement with a negation is found, or stored with its negation. -/
theorem Indexed.obtain_spec {db : Database} (h : db.Indexed) {s t : Statement}
    (hst : s.negation? = some t) :
    (∃ c, db.find? s = some c ∧ db.obtain s = .ok (db, c)) ∨
      db.find? s = none ∧ ∃ db' c d, db.obtain s = .ok (db', c) ∧ Paired s t c d db db' := by
  rw [obtain]
  cases hfind : db.find? s with
  | some c => exact .inl ⟨c, rfl, rfl⟩
  | none =>
    have hlone : db.find? t = none := by
      cases hft : db.find? t with
      | none => rfl
      | some d =>
        obtain ⟨k, hk, hl, hkt⟩ := (h.find_iff _ _).mp hft
        obtain ⟨k', hk', _, hs', hl'⟩ := h.negation d k hk
        rw [hkt, Statement.negation?_negation? hst] at hs'
        rw [Option.some.inj hs', h.find?_eq_some hk' (hl'.trans hl)] at hfind
        cases hfind
    refine .inr ⟨rfl, db.storePair s t, _, _, ?_, h.paired hst hfind hlone⟩
    simp only [hst, hlone, Option.isSome_none, Bool.false_eq_true, if_false]
    rfl

/-! ## Literals -/

/-- Statements come from comparisons with rationals. Literals lead to live constraints, come in
pairs with their negations, and every live constraint has one that leads back to it. -/
structure Valid (db : Database) : Prop extends Indexed db where
  representable : ∀ c k, db.stored c = some k → k.statement.Representable
  keys : (db.literals.map Prod.fst).Nodup
  known : ∀ t c, db.lookup t = some c → t.isLiteral = true ∧ ∃ k, db.stored c = some k ∧
    k.live = true ∧ db.lookup t.negate = some k.negation
  named : ∀ c k, db.stored c = some k → k.live = true →
    ∃ t, k.literal = some t ∧ db.lookup t = some c

/-- A database with more constraints and literals, the old ones as they were. -/
structure Grown (db db' : Database) : Prop where
  stored : ∀ c k, db.stored c = some k → db'.stored c = some k
  fresh : ∀ c k, db.stored c = none → db'.stored c = some k →
    k.proof = none ∧ k.asserted = none ∧ k.preregistered = false ∧ k.split = false
  lookup : ∀ t c, db.lookup t = some c → db'.lookup t = some c
  changes : db'.changes = db.changes

theorem Grown.refl (db : Database) : Grown db db :=
  ⟨fun _ _ h => h, fun _ _ h h' => by simp [h] at h', fun _ _ h => h, rfl⟩

theorem Grown.trans {db₁ db₂ db₃ : Database} (h : Grown db₁ db₂) (k : Grown db₂ db₃) :
    Grown db₁ db₃ where
  stored c l hl := k.stored c l (h.stored c l hl)
  fresh c l hn hl := by
    cases h₂ : db₂.stored c with
    | none => exact k.fresh c l h₂ hl
    | some m =>
      rw [k.stored c m h₂] at hl
      exact h.fresh c l hn (h₂.trans hl)
  lookup t c ht := k.lookup t c (h.lookup t c ht)
  changes := k.changes.trans h.changes

theorem neg_ne_self (a : Term) : Term.neg a ≠ a := by
  intro heq
  have := congrArg Term.size heq
  simp only [Term.size] at this
  omega

theorem lookup_append_single (l : List (Term × ConstraintId)) (t u : Term) (c : ConstraintId) :
    (l ++ [(t, c)]).lookup u = (l.lookup u).or (if u = t then some c else none) := by
  rw [List.lookup_append]
  by_cases hut : u = t
  · subst hut
    simp
  · rw [List.lookup_cons, beq_eq_false_iff_ne.mpr hut, if_neg hut]
    rfl

/-- A new literal. -/
theorem attach_eq {db : Database} {t : Term} (h : db.lookup t = none) (c : ConstraintId) :
    db.attach c t = { db.update c fun k => { k with literal := k.literal.or (some t) } with
      literals := db.literals ++ [(t, c)] } := by
  rw [attach]
  have hn : (db.update c fun k => { k with literal := k.literal.or (some t) }).hasLiteral t =
      false := by
    rw [hasLiteral, lookup_update, h]
    rfl
  rw [hn]
  rfl

theorem negate_of_relational {a : Term} (h : a.isRelational = true) : a.negate = .neg a := by
  cases a <;> first | rfl | cases h

theorem isLiteral_neg {a : Term} (h : a.isRelational = true) : (Term.neg a).isLiteral = true := h

theorem isLiteral_of_relational {a : Term} (h : a.isRelational = true) : a.isLiteral = true := by
  cases a <;> first | exact h | cases h

theorem stored_attach (db : Database) (c e : ConstraintId) (t : Term) :
    (db.attach c t).stored e = if e = c then
      (db.stored e).map fun k => { k with literal := k.literal.or (some t) } else db.stored e := by
  rw [← stored_update, attach]
  split <;> rfl

theorem Indexed.attach {db : Database} (h : db.Indexed) (c : ConstraintId) (t : Term) :
    (db.attach c t).Indexed := by
  have hu := h.update (c := c) (f := fun k => { k with literal := k.literal.or (some t) })
    fun _ => ⟨rfl, rfl, rfl⟩
  rw [Database.attach]
  split
  · exact hu
  · exact ⟨hu.find_iff, hu.negation, hu.tidy⟩

theorem changes_attach (db : Database) (c : ConstraintId) (t : Term) :
    (db.attach c t).changes = db.changes := by
  rw [attach]
  split <;> rfl

/-- The database after an atom and its negation were attached to the halves of a pair. -/
def attachPair (db : Database) (c d : ConstraintId) (a : Term) : Database :=
  (db.attach c a).attach d (.neg a)

section AttachPair

variable {db : Database} {c d : ConstraintId} {a : Term}

theorem literals_attachPair (ha : db.lookup a = none) (hn : db.lookup (.neg a) = none) :
    (db.attachPair c d a).literals = db.literals ++ [(a, c)] ++ [(.neg a, d)] := by
  have hn' : (db.attach c a).lookup (.neg a) = none := by
    rw [attach_eq ha]
    change (db.literals ++ [(a, c)]).lookup (.neg a) = none
    rw [lookup_append_single, if_neg (neg_ne_self a)]
    change (db.lookup (.neg a)).or none = none
    rw [hn]
    rfl
  rw [attachPair, attach_eq hn', attach_eq ha]

theorem stored_attachPair (hne : d ≠ c) (e : ConstraintId) :
    (db.attachPair c d a).stored e =
      if e = c then (db.stored e).map fun k => { k with literal := k.literal.or (some a) }
      else if e = d then
        (db.stored e).map fun k => { k with literal := k.literal.or (some (.neg a)) }
      else db.stored e := by
  rw [attachPair, stored_attach, stored_attach]
  by_cases hec : e = c
  · subst hec
    rw [if_neg hne.symm, if_pos rfl, if_pos rfl]
  · rw [if_neg hec, if_neg hec]

theorem Indexed.attachPair (h : db.Indexed) : (db.attachPair c d a).Indexed :=
  (h.attach c a).attach d (.neg a)

theorem changes_attachPair (db : Database) (c d : ConstraintId) (a : Term) :
    (db.attachPair c d a).changes = db.changes := by
  rw [attachPair, changes_attach, changes_attach]

end AttachPair

/-- What adding an atom to a database gives. -/
structure AtomAdded (a : Term) (s : Statement) (c : ConstraintId) (db db' : Database) : Prop where
  valid : db'.Valid
  grown : Grown db db'
  statement : ∃ k, db'.stored c = some k ∧ k.live = true ∧ k.statement = s ∧
    db'.literals = db.literals ++ [(a, c)] ++ [(.neg a, k.negation)]
  fresh : ∀ e m, db.stored e = none → db'.stored e = some m → m.statement.var = s.var

/-- Adding an atom adds constraints on its own variable alone. -/
theorem AtomAdded.hasConstraints {a : Term} {s : Statement} {c : ConstraintId} {db db' : Database}
    (h : AtomAdded a s c db db') (hv : db.Indexed) {v : Var} (hc : db'.hasConstraints v = true) :
    db.hasConstraints v = true ∨ v = s.var := by
  obtain ⟨e, m, hm, hlive, rfl⟩ := h.valid.hasConstraints_iff.mp hc
  cases he : db.stored e with
  | none => exact .inr (h.fresh e m he hm)
  | some m' =>
    rw [h.grown.stored e m' he] at hm
    rw [← Option.some.inj hm] at hlive ⊢
    exact .inl (hv.hasConstraints_iff.mpr ⟨e, m', he, hlive, rfl⟩)

/-- Constraints on a variable stay when there are more constraints. -/
theorem Grown.hasConstraints {db db' : Database} (h : Grown db db') (hv : db.Indexed)
    (hv' : db'.Indexed) {v : Var} (hc : db.hasConstraints v = true) :
    db'.hasConstraints v = true := by
  obtain ⟨c, k, hk, hlive, rfl⟩ := hv.hasConstraints_iff.mp hc
  exact hv'.hasConstraints_iff.mpr ⟨c, k, h.stored c k hk, hlive, rfl⟩

/-- A key that is not found can be added at the end. -/
theorem nodup_keys_append {l : List (Term × ConstraintId)} (h : (l.map Prod.fst).Nodup) {t : Term}
    (ht : l.lookup t = none) (c : ConstraintId) : ((l ++ [(t, c)]).map Prod.fst).Nodup := by
  rw [List.map_append, List.nodup_append]
  refine ⟨h, List.pairwise_singleton _ _, ?_⟩
  rintro u hu v hv rfl
  obtain rfl : u = t := List.mem_singleton.mp hv
  obtain ⟨p, hp, hpu⟩ := List.mem_map.mp hu
  have := List.lookup_eq_none_iff.mp ht p hp
  simp [hpu] at this

theorem Valid.lookup_neg_eq_none {db : Database} (h : db.Valid) {a : Term}
    (ha : db.lookup a = none) : db.lookup (.neg a) = none := by
  cases hn : db.lookup (.neg a) with
  | none => rfl
  | some e =>
    obtain ⟨_, m, _, _, hm⟩ := h.known _ _ hn
    change db.lookup a = _ at hm
    rw [ha] at hm
    cases hm

/-- The second database has a pair of live constraints, and at most that pair more than the
first. -/
structure WithPair (db db₁ : Database) (c d : ConstraintId) (k l : Constraint) : Prop where
  indexed : db₁.Indexed
  first : db₁.stored c = some k
  second : db₁.stored d = some l
  ne : d ≠ c
  negation : k.negation = d ∧ l.negation = c
  negated : k.statement.negation? = some l.statement
  live : k.live = true ∧ l.live = true
  literals : db₁.literals = db.literals
  changes : db₁.changes = db.changes
  kept : ∀ e m, db.stored e = some m → db₁.stored e = some m
  fresh : ∀ e m, db.stored e = none → db₁.stored e = some m →
    (e = c ∨ e = d) ∧ m = { statement := m.statement, negation := m.negation }

/-- The pair of a statement that is found. -/
theorem Valid.withPair {db : Database} (h : db.Valid) {s : Statement} {c : ConstraintId}
    (hfind : db.find? s = some c) :
    ∃ k l, WithPair db db c k.negation k l ∧ k.statement = s := by
  obtain ⟨k, hk, hlive, hks⟩ := (h.find_iff _ _).mp hfind
  obtain ⟨l, hl, hlc, hneg, hll⟩ := h.negation c k hk
  refine ⟨k, l, ⟨h.toIndexed, hk, hl, h.negation_ne hk, ⟨rfl, hlc⟩, hneg, ⟨hlive, hll.trans hlive⟩,
    rfl, rfl, fun _ _ hm => hm, fun e m he hm => ?_⟩, hks⟩
  rw [he] at hm
  cases hm

/-- A pair that has been stored. -/
theorem Paired.withPair {db db₁ : Database} {s t : Statement} {c d : ConstraintId}
    (h : Paired s t c d db db₁) (hst : s.negation? = some t) :
    WithPair db db₁ c d { statement := s, negation := d } { statement := t, negation := c } := by
  refine ⟨h.indexed, ?_, ?_, h.ne, ⟨rfl, rfl⟩, hst, ⟨rfl, rfl⟩, h.literals, h.changes,
    fun e m hm => ?_, fun e m he hm => ?_⟩
  · rw [h.stored, if_pos rfl]
  · rw [h.stored, if_neg h.ne, if_pos rfl]
  · rw [h.stored, if_neg, if_neg, hm]
    · rintro rfl
      rw [h.unused.2] at hm
      cases hm
    · rintro rfl
      rw [h.unused.1] at hm
      cases hm
  · rw [h.stored] at hm
    split at hm
    · rw [← Option.some.inj hm]
      exact ⟨.inl ‹_›, rfl⟩
    · split at hm
      · rw [← Option.some.inj hm]
        exact ⟨.inr ‹_›, rfl⟩
      · rw [he] at hm
        cases hm

section WithPair

variable {db db₁ : Database} {c d : ConstraintId} {k l : Constraint} {a : Term}
variable (hp : WithPair db db₁ c d k l) (h : db.Valid) (hnew : db.lookup a = none)

include hp h

/-- A constraint that was there before keeps everything, since it has a literal if it is live. -/
theorem WithPair.stored_old {e : ConstraintId} {m : Constraint} (hm : db.stored e = some m) :
    (db₁.attachPair c d a).stored e = some m := by
  have hm₁ := hp.kept e m hm
  have hsame : m.live = true → ∀ t, { m with literal := m.literal.or (some t) } = m := by
    intro hlive t
    obtain ⟨u, hu, _⟩ := h.named e m hm hlive
    cases m
    simp_all
  rw [stored_attachPair hp.ne, hm₁]
  split
  · rename_i hec
    rw [hec, hp.first] at hm₁
    rw [Option.map_some, hsame (Option.some.inj hm₁ ▸ hp.live.1)]
  · split
    · rename_i hed
      rw [hed, hp.second] at hm₁
      rw [Option.map_some, hsame (Option.some.inj hm₁ ▸ hp.live.2)]
    · rfl

omit h in
/-- A constraint that was not there before is a half of the pair. -/
theorem WithPair.stored_new {e : ConstraintId} {m : Constraint} (he : db.stored e = none)
    (hm : (db₁.attachPair c d a).stored e = some m) :
    e = c ∧ m = { statement := k.statement, negation := d, literal := some a } ∨
      e = d ∧ m = { statement := l.statement, negation := c, literal := some (.neg a) } := by
  rw [stored_attachPair hp.ne] at hm
  split at hm
  · rename_i hec
    subst hec
    rw [hp.first, Option.map_some] at hm
    have hk := (hp.fresh e k he hp.first).2
    rw [hk, hp.negation.1] at hm
    exact .inl ⟨rfl, (Option.some.inj hm).symm⟩
  · split at hm
    · rename_i hed
      subst hed
      rw [hp.second, Option.map_some] at hm
      have hl := (hp.fresh e l he hp.second).2
      rw [hl, hp.negation.2] at hm
      exact .inr ⟨rfl, (Option.some.inj hm).symm⟩
    · rename_i hec hed
      exact ((hp.fresh e m he hm).1.elim hec hed).elim

include hnew

theorem WithPair.literals_attachPair :
    (db₁.attachPair c d a).literals = db.literals ++ [(a, c)] ++ [(.neg a, d)] := by
  have hlookup : ∀ t, db₁.lookup t = db.lookup t := fun t => by rw [lookup, lookup, hp.literals]
  rw [Database.literals_attachPair ((hlookup a).trans hnew)
    ((hlookup _).trans (h.lookup_neg_eq_none hnew)), hp.literals]

theorem WithPair.lookup_attachPair (t : Term) : (db₁.attachPair c d a).lookup t =
    (db.lookup t).or (if t = a then some c else if t = .neg a then some d else none) := by
  change (db₁.attachPair c d a).literals.lookup t = _
  rw [hp.literals_attachPair h hnew, lookup_append_single, lookup_append_single, Option.or_assoc]
  by_cases hta : t = a
  · rw [if_pos hta, if_pos hta]
    rfl
  · rw [if_neg hta, if_neg hta]
    rfl

theorem WithPair.lookup_old {t : Term} {e : ConstraintId} (ht : db.lookup t = some e) :
    (db₁.attachPair c d a).lookup t = some e := by
  rw [hp.lookup_attachPair h hnew, ht]
  rfl

theorem WithPair.lookup_atom : (db₁.attachPair c d a).lookup a = some c := by
  rw [hp.lookup_attachPair h hnew, hnew, if_pos rfl]
  rfl

theorem WithPair.lookup_neg : (db₁.attachPair c d a).lookup (.neg a) = some d := by
  rw [hp.lookup_attachPair h hnew, h.lookup_neg_eq_none hnew, if_neg (neg_ne_self a), if_pos rfl]
  rfl

/-- An atom and its negation as literals of the pair keep the database valid. -/
theorem WithPair.valid (hrel : a.isRelational = true) (hrep : k.statement.Representable) :
    (db₁.attachPair c d a).Valid where
  toIndexed := hp.indexed.attachPair
  representable e m hm := by
    cases he : db.stored e with
    | some m' =>
      have heq := hp.stored_old h (a := a) he
      rw [hm] at heq
      exact Option.some.inj heq ▸ h.representable e m' he
    | none =>
      rcases hp.stored_new he hm with ⟨rfl, rfl⟩ | ⟨rfl, rfl⟩
      · exact hrep
      · obtain ⟨t, ht, hrept⟩ := hrep.exists_negation
        rw [hp.negated] at ht
        exact Option.some.inj ht ▸ hrept
  keys := by
    rw [hp.literals_attachPair h hnew]
    refine nodup_keys_append (nodup_keys_append h.keys hnew c) ?_ d
    rw [lookup_append_single, if_neg (neg_ne_self a), Option.or_none]
    exact h.lookup_neg_eq_none hnew
  known t e ht := by
    rw [hp.lookup_attachPair h hnew, Option.or_eq_some_iff] at ht
    rcases ht with ht | ⟨_, ht⟩
    · obtain ⟨hlit, m, hm, hlive, hneg⟩ := h.known t e ht
      exact ⟨hlit, m, hp.stored_old h hm, hlive, hp.lookup_old h hnew hneg⟩
    · split at ht
      · rename_i hta
        subst hta
        rw [← Option.some.inj ht]
        refine ⟨isLiteral_of_relational hrel, { k with literal := k.literal.or (some t) }, ?_,
          hp.live.1, ?_⟩
        · rw [stored_attachPair hp.ne, if_pos rfl, hp.first]
          rfl
        · rw [negate_of_relational hrel, hp.lookup_neg h hnew, hp.negation.1]
      · split at ht
        · rename_i htn
          subst htn
          rw [← Option.some.inj ht]
          refine ⟨isLiteral_neg hrel, { l with literal := l.literal.or (some (.neg a)) }, ?_,
            hp.live.2, ?_⟩
          · rw [stored_attachPair hp.ne, if_neg hp.ne, if_pos rfl, hp.second]
            rfl
          · change (db₁.attachPair c d a).lookup a = some l.negation
            rw [hp.lookup_atom h hnew, hp.negation.2]
        · cases ht
  named e m hm hlive := by
    cases he : db.stored e with
    | some m' =>
      have heq := hp.stored_old h (a := a) he
      rw [hm] at heq
      rw [← Option.some.inj heq] at he
      obtain ⟨t, ht, htl⟩ := h.named e m he hlive
      exact ⟨t, ht, hp.lookup_old h hnew htl⟩
    | none =>
      rcases hp.stored_new he hm with ⟨rfl, rfl⟩ | ⟨rfl, rfl⟩
      · exact ⟨a, rfl, hp.lookup_atom h hnew⟩
      · exact ⟨.neg a, rfl, hp.lookup_neg h hnew⟩

/-- Attaching an atom to a pair adds it. -/
theorem WithPair.atomAdded (hrel : a.isRelational = true) (hrep : k.statement.Representable) :
    AtomAdded a k.statement c db (db₁.attachPair c d a) where
  valid := hp.valid h hnew hrel hrep
  grown :=
    { stored := fun _ _ hm => hp.stored_old h hm
      fresh := fun e m he hm => by
        rcases hp.stored_new he hm with ⟨rfl, rfl⟩ | ⟨rfl, rfl⟩ <;> exact ⟨rfl, rfl, rfl, rfl⟩
      lookup := fun _ _ ht => hp.lookup_old h hnew ht
      changes := (changes_attachPair _ _ _ _).trans hp.changes }
  statement := by
    refine ⟨{ k with literal := k.literal.or (some a) }, ?_, hp.live.1, rfl, ?_⟩
    · rw [stored_attachPair hp.ne, if_pos rfl, hp.first]
      rfl
    · rw [hp.literals_attachPair h hnew, hp.negation.1]
  fresh e m he hm := by
    rcases hp.stored_new he hm with ⟨rfl, rfl⟩ | ⟨rfl, rfl⟩
    · rfl
    · exact Statement.var_of_negation? hp.negated

end WithPair

/-- Adding a new atom for a statement. -/
theorem Valid.addAtom {db : Database} (h : db.Valid) {a : Term} (hrel : a.isRelational = true)
    (hnew : db.lookup a = none) {s : Statement} (hs : s.Representable) :
    ∃ db' c, db.addAtom a s = .ok (db', c) ∧ AtomAdded a s c db db' := by
  obtain ⟨t, hst, _⟩ := hs.exists_negation
  rcases h.obtain_spec hst with ⟨c, hfind, hok⟩ | ⟨_, db₁, c, d, hok, hpaired⟩
  · obtain ⟨k, l, hp, rfl⟩ := h.withPair hfind
    refine ⟨_, c, ?_, hp.atomAdded h hnew hrel hs⟩
    rw [Database.addAtom, hok, ok_bind]
    simp only [get_eq_ok hp.first]
    rfl
  · have hp := hpaired.withPair hst
    refine ⟨_, c, ?_, hp.atomAdded h hnew hrel hs⟩
    rw [Database.addAtom, hok, ok_bind]
    simp only [get_eq_ok hp.first]
    rfl

end Database

end LinearArithmetic
