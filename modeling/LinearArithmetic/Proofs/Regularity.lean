import LinearArithmetic.Database.Run
import LinearArithmetic.Proofs.Marks

/-!
# The database under all of its operations

Whatever sequence of operations a database is asked for, the index finds exactly the live
constraints, halves of a pair are created, removed and flagged together, at most one of them is
known to hold, and no literal leads to a removed constraint. What is said of marks has to hold in
every open scope, because leaving scopes brings the outer marks back.
-/

namespace LinearArithmetic.Database

/-! ## Marks of pairs -/

/-- The halves of every pair are flagged alike, at most one of them is known to hold, and only what
is known has been asserted. -/
structure Balanced (db : Database) (m : ConstraintId → Marks) : Prop where
  blank : ∀ c, (m c).proof = none → (m c).asserted = none
  exclusive : ∀ c k, db.stored c = some k → (m c).proof = none ∨ (m k.negation).proof = none
  alike : ∀ c k, db.stored c = some k →
    (m k.negation).preregistered = (m c).preregistered ∧ (m k.negation).split = (m c).split

/-- What is right at any time of the life of a database. -/
structure Orderly (db : Database) : Prop extends Indexed db where
  balanced : ∀ n ≤ db.changes.level, db.Balanced (db.marksAt n)
  literals : ∀ e ∈ db.literals, ∃ k, db.stored e.2 = some k ∧ k.live = true

variable {db db' : Database}

theorem Orderly.balanced_now (h : db.Orderly) : db.Balanced db.marksOf := by
  rw [← marksAt_level]
  exact h.balanced _ (Nat.le_refl _)

/-- The pairs of the second database are pairs of the first one, or new and without marks. -/
theorem Balanced.congr {m : ConstraintId → Marks} (h : db.Balanced m)
    (hpairs : ∀ c k', db'.stored c = some k' →
      (∃ k, db.stored c = some k ∧ k.negation = k'.negation) ∨ m c = {} ∧ m k'.negation = {}) :
    db'.Balanced m where
  blank := h.blank
  exclusive c k' hc := by
    rcases hpairs c k' hc with ⟨k, hk, hneg⟩ | ⟨hmc, _⟩
    · exact hneg ▸ h.exclusive c k hk
    · exact .inl (by rw [hmc])
  alike c k' hc := by
    rcases hpairs c k' hc with ⟨k, hk, hneg⟩ | ⟨hmc, hmn⟩
    · exact hneg ▸ h.alike c k hk
    · rw [hmc, hmn]
      exact ⟨rfl, rfl⟩

theorem Agrees.balanced (h : Agrees db db') {m : ConstraintId → Marks} (hm : db.Balanced m) :
    db'.Balanced m :=
  hm.congr fun _ _ hc =>
    let ⟨k, hk, hb⟩ := h.symm.stored hc
    .inl ⟨k, hk, Constraint.negation_of_bare hb⟩

/-- Constraints that are not stored have no marks in any scope. -/
theorem marksAt_of_unstored {c : ConstraintId} (hc : db.stored c = none) (n : Nat) :
    db.marksAt n c = {} := by
  have hfold : ∀ (xs : List ConstraintChange) (m : ConstraintId → Marks), m c = {} →
      xs.foldl undoMark m c = {} := by
    intro xs
    induction xs with
    | nil => exact fun _ hm => hm
    | cons x xs ih =>
      intro m hm
      refine ih _ ?_
      have hupdate : ∀ (d : ConstraintId) (g : Marks → Marks), g {} = {} →
          Function.update m d (g (m d)) c = {} := by
        intro d g hg
        by_cases hcd : c = d
        · subst hcd
          rw [Function.update_self, hm, hg]
        · rw [Function.update_of_ne hcd, hm]
      cases x with
      | proof d => exact hupdate d (fun m => { m with proof := none, asserted := none }) rfl
      | preregistered d => exact hupdate d (fun m => { m with preregistered := false }) rfl
      | split d => exact hupdate d (fun m => { m with split := false }) rfl
  exact hfold _ _ (marksOf_eq_of_unstored hc)

/-- A half of a pair comes to be known to hold, of which nothing was known. -/
theorem Balanced.proven {m : ConstraintId → Marks} (h : db.Balanced m) (hindexed : db.Indexed)
    {c : ConstraintId} {k : Constraint} (hc : db.stored c = some k)
    (hn : (m k.negation).proof = none)
    (p : Option (List ConstraintId)) (a : Option Term) (ha : p = none → a = none) :
    db.Balanced (Function.update m c { m c with proof := p, asserted := a }) := by
  have hne := hindexed.negation_ne hc
  refine ⟨fun d hd => ?_, fun d l hl => ?_, fun d l hl => ?_⟩
  · by_cases hdc : d = c
    · rw [hdc, Function.update_self] at hd ⊢
      exact ha hd
    · rw [Function.update_of_ne hdc] at hd ⊢
      exact h.blank d hd
  · obtain ⟨l', hl', hback, _⟩ := hindexed.negation d l hl
    by_cases hdc : d = c
    · rw [hdc, hc] at hl
      obtain rfl := Option.some.inj hl
      exact .inr (by rw [Function.update_of_ne hne, hn])
    · by_cases hlc : l.negation = c
      · rw [hlc, hc] at hl'
        rw [← Option.some.inj hl'] at hback
        exact .inl (by rw [Function.update_of_ne hdc, ← hback, hn])
      · rw [Function.update_of_ne hdc, Function.update_of_ne hlc]
        exact h.exclusive d l hl
  · have hflags : ∀ e,
        (Function.update m c { m c with proof := p, asserted := a } e).preregistered =
            (m e).preregistered ∧
          (Function.update m c { m c with proof := p, asserted := a } e).split = (m e).split := by
      intro e
      by_cases hec : e = c
      · rw [hec, Function.update_self]
        exact ⟨rfl, rfl⟩
      · rw [Function.update_of_ne hec]
        exact ⟨rfl, rfl⟩
    rw [(hflags _).1, (hflags _).2, (hflags _).1, (hflags _).2]
    exact h.alike d l hl

/-- Both halves of a pair get the same flags. -/
theorem Balanced.flagged {m : ConstraintId → Marks} (h : db.Balanced m) (hindexed : db.Indexed)
    {c : ConstraintId} {k : Constraint} (hc : db.stored c = some k) {f : Marks → Marks}
    (hproof : ∀ x, (f x).proof = x.proof ∧ (f x).asserted = x.asserted)
    (hflags : ∀ x y : Marks, x.preregistered = y.preregistered ∧ x.split = y.split →
      (f x).preregistered = (f y).preregistered ∧ (f x).split = (f y).split) :
    db.Balanced
      (Function.update (Function.update m c (f (m c))) k.negation (f (m k.negation))) := by
  have heq : ∀ d, Function.update (Function.update m c (f (m c))) k.negation (f (m k.negation)) d =
      if d = c ∨ d = k.negation then f (m d) else m d := by
    intro d
    by_cases hdn : d = k.negation
    · rw [if_pos (.inr hdn), hdn, Function.update_self]
    · rw [Function.update_of_ne hdn]
      by_cases hdc : d = c
      · rw [if_pos (.inl hdc), hdc, Function.update_self]
      · rw [if_neg (not_or.mpr ⟨hdc, hdn⟩), Function.update_of_ne hdc]
  have hsame : ∀ d, (if d = c ∨ d = k.negation then f (m d) else m d).proof = (m d).proof ∧
      (if d = c ∨ d = k.negation then f (m d) else m d).asserted = (m d).asserted := by
    intro d
    split
    · exact hproof _
    · exact ⟨rfl, rfl⟩
  refine ⟨fun d hd => ?_, fun d l hl => ?_, fun d l hl => ?_⟩
  · rw [heq, (hsame d).1] at hd
    rw [heq, (hsame d).2]
    exact h.blank d hd
  · rw [heq, heq, (hsame _).1, (hsame _).1]
    exact h.exclusive d l hl
  · -- a constraint belongs to the pair exactly when its negation does
    obtain ⟨k', hk', hkc, _⟩ := hindexed.negation c k hc
    obtain ⟨l', hl', hback, _⟩ := hindexed.negation d l hl
    have hiff : (l.negation = c ∨ l.negation = k.negation) ↔ (d = c ∨ d = k.negation) := by
      constructor
      · rintro (hlc | hln)
        · rw [hlc, hc] at hl'
          exact .inr (by rw [← hback, ← Option.some.inj hl'])
        · rw [hln, hk'] at hl'
          exact .inl (by rw [← hback, ← Option.some.inj hl', hkc])
      · rintro (rfl | rfl)
        · rw [hc] at hl
          exact .inr (by rw [← Option.some.inj hl])
        · rw [hk'] at hl
          exact .inl (by rw [← Option.some.inj hl, hkc])
    rw [heq, heq, if_congr hiff rfl rfl]
    have hlike := h.alike d l hl
    split
    · exact hflags _ _ hlike
    · exact hlike

/-! ## Reading off what an operation did -/

theorem stored_of_get_eq_ok {c : ConstraintId} {k : Constraint} (h : db.get c = .ok k) :
    db.stored c = some k := by
  rw [stored]
  rw [get, Arena.get] at h
  cases hk : db.constraints.get? c.index with
  | none =>
    rw [hk] at h
    cases h
  | some k' =>
    rw [hk] at h
    exact congrArg _ (Except.ok.inj h)

/-- A constraint of which nothing was known has been marked as following from others. -/
structure Marked (c : ConstraintId) (as : List ConstraintId) (db db' : Database) : Prop where
  unknown : db.Unknown c
  agrees : Agrees db db'
  changes : db'.changes = db.changes.push (.proof c)
  marks : ∃ a, db'.marksOf =
    Function.update db.marksOf c { db.marksOf c with proof := some as, asserted := a }

theorem Indexed.marked_of_mark (h : db.Indexed) {c : ConstraintId} {as : List ConstraintId}
    (hok : db.mark c as = .ok db') : Marked c as db db' := by
  obtain ⟨b, hb, hok⟩ := bind_eq_ok.mp hok
  obtain ⟨_, hproof, _⟩ := bind_eq_ok.mp hb
  obtain ⟨k, hget, _⟩ := bind_eq_ok.mp hproof
  have hc := stored_of_get_eq_ok hget
  obtain ⟨b', hb', hiff⟩ := h.isUnknown_spec hc
  obtain rfl := Except.ok.inj (hb.symm.trans hb')
  cases b with
  | false => cases hok
  | true =>
    simp only [get_eq_ok hc, Bool.not_true, Bool.false_eq_true, if_false, ok_bind] at hok
    split at hok
    · cases hok
    · obtain ⟨_, _, hok⟩ := bind_eq_ok.mp hok
      obtain rfl := Except.ok.inj hok
      have hagree : Agrees db (db.update c fun k => { k with proof := some as }) :=
        agrees_update db c fun _ => rfl
      refine ⟨hiff.mp rfl, hagree.withChanges _, rfl, (db.marksOf c).asserted, ?_⟩
      change (db.update c _).marksOf = _
      rw [marksOf_update hc, marksOf_of_stored hc]
      rfl

theorem Indexed.marked_of_markAsserted (h : db.Indexed) {c : ConstraintId} {t : Term}
    (hok : db.markAsserted c t = .ok db') : Marked c [] db db' := by
  rw [markAsserted] at hok
  split at hok
  · cases hok
  · obtain ⟨k, hget, hok⟩ := bind_eq_ok.mp hok
    have hc := stored_of_get_eq_ok hget
    dsimp only at hok
    split at hok
    · exact h.marked_of_mark hok
    · let db₁ := db.update c fun k => { k with asserted := some t }
      have hagree : Agrees db db₁ := agrees_update db c fun _ => rfl
      have hmarks : db₁.marksOf = Function.update db.marksOf c
          { db.marksOf c with asserted := some t } := by
        rw [marksOf_update hc, marksOf_of_stored hc]
        rfl
      have hm : Marked c [] db₁ db' := (hagree.indexed h).marked_of_mark hok
      obtain ⟨l, hl, _⟩ := h.negation c k hc
      obtain ⟨k₁, hk₁, hb⟩ := hagree.stored hc
      obtain ⟨l₁, hl₁, _⟩ := hagree.stored hl
      have hneg := Constraint.negation_of_bare hb
      refine ⟨?_, hagree.trans hm.agrees, hm.changes, ?_⟩
      · have hu := (unknown_iff hk₁ (hneg ▸ hl₁)).mp hm.unknown
        rw [hneg, hmarks, Function.update_self, Function.update_of_ne (h.negation_ne hc)] at hu
        exact (unknown_iff hc hl).mpr hu
      · obtain ⟨a, hm⟩ := hm.marks
        refine ⟨a, ?_⟩
        rw [hm, hmarks, Function.update_self, Function.update_idem]

/-- A literal is added by adding its atom. -/
theorem addAtom_of_addLiteral {ε : Type} {t : Term} {f : Term → Except ε Statement}
    {c : ConstraintId} (hok : db.addLiteral t f = .ok (.ok (db', c))) :
    ∃ s d, db.addAtom t.atom s = .ok (db', d) := by
  rw [Database.addLiteral] at hok
  split at hok
  · cases hok
  · cases hf : f t.atom with
    | error e =>
      simp only [hf] at hok
      cases hok
    | ok s =>
      simp only [hf] at hok
      obtain ⟨⟨db₁, d⟩, hadd, hok⟩ := bind_eq_ok.mp hok
      split at hok
      · obtain ⟨k, _, hok⟩ := bind_eq_ok.mp hok
        cases hok
        exact ⟨s, d, hadd⟩
      · cases hok
        exact ⟨s, d, hadd⟩

/-- Splitting marks both halves of a pair. -/
theorem setSplit_of_split {c : ConstraintId} {t : Trichotomy} (hok : db.split c = .ok (db', t)) :
    ∃ k db₁, db.stored c = some k ∧ db.setSplit c = .ok db₁ ∧
      db₁.setSplit k.negation = .ok db' := by
  obtain ⟨k, hget, hok⟩ := bind_eq_ok.mp hok
  refine ⟨k, ?_⟩
  cases hb : k.statement.kind.isBound with
  | true =>
    simp only [hb] at hok
    cases hok
  | false =>
    simp only [hb, Bool.false_eq_true, if_false] at hok
    obtain ⟨e, _, hok⟩ := bind_eq_ok.mp hok
    split at hok
    · cases hok
    · obtain ⟨db₁, hok₁, hok⟩ := bind_eq_ok.mp hok
      obtain ⟨db₂, hok₂, hok⟩ := bind_eq_ok.mp hok
      cases hok
      exact ⟨db₁, stored_of_get_eq_ok hget, hok₁, hok₂⟩
    · cases hok

/-- Preregistering marks both halves of a pair that is not preregistered. -/
theorem Indexed.setPreregistered_of_preregister (h : db.Indexed) {c : ConstraintId}
    (hok : db.preregister c = .ok db') :
    ∃ k l, db.stored c = some k ∧ (db.setPreregistered c).stored k.negation = some l ∧
      k.preregistered = false ∧ l.preregistered = false ∧
        db' = (db.setPreregistered c).setPreregistered k.negation := by
  obtain ⟨k, hget, hok⟩ := bind_eq_ok.mp hok
  obtain ⟨l, hget', hok⟩ := bind_eq_ok.mp hok
  have hc := stored_of_get_eq_ok hget
  split at hok
  · cases hok
  · rename_i hfree
    rw [Bool.or_eq_true, not_or, Bool.not_eq_true, Bool.not_eq_true] at hfree
    refine ⟨k, l, hc, ?_, hfree.1, hfree.2, (Except.ok.inj hok).symm⟩
    change (db.update c _).stored k.negation = _
    rw [stored_update, if_neg (h.negation_ne hc), stored_of_get_eq_ok hget']

/-! ## What keeps a database orderly -/

/-- Further marks in the innermost scope. -/
theorem Orderly.advances (h : db.Orderly) (hadv : Advances db db')
    (hb : db.Balanced db'.marksOf) : db'.Orderly where
  toIndexed := hadv.agrees.indexed h.toIndexed
  balanced n hn := by
    rw [hadv.level] at hn
    rcases Nat.lt_or_eq_of_le hn with hlt | rfl
    · rw [hadv.below n hlt]
      exact hadv.agrees.balanced (h.balanced n hn)
    · rw [← hadv.level, marksAt_level]
      exact hadv.agrees.balanced hb
  literals e he := by
    rw [hadv.agrees.literals] at he
    obtain ⟨k, hk, hl⟩ := h.literals e he
    obtain ⟨k', hk', hb⟩ := hadv.agrees.stored hk
    exact ⟨k', hk', (Constraint.live_of_bare hb).trans hl⟩

/-- Pairs that come and go, with all marks as they were. -/
theorem Orderly.reshaped (h : db.Orderly) (hindexed : db'.Indexed)
    (hchanges : db'.changes = db.changes) (hmarks : db'.marksOf = db.marksOf)
    (hpairs : ∀ c k', db'.stored c = some k' →
      (∃ k, db.stored c = some k ∧ k.negation = k'.negation) ∨
        db.stored c = none ∧ db.stored k'.negation = none)
    (hliterals : ∀ e ∈ db'.literals, ∃ k, db'.stored e.2 = some k ∧ k.live = true) :
    db'.Orderly where
  toIndexed := hindexed
  balanced n hn := by
    rw [hchanges] at hn
    rw [marksAt_congr hchanges hmarks]
    exact (h.balanced n hn).congr fun c k' hc =>
      (hpairs c k' hc).imp_right fun hnone =>
        ⟨marksAt_of_unstored hnone.1 n, marksAt_of_unstored hnone.2 n⟩
  literals := hliterals

/-! ## One operation -/

theorem Orderly.marked (h : db.Orderly) {c : ConstraintId} {as : List ConstraintId}
    (hm : Marked c as db db') : db'.Orderly := by
  obtain ⟨k, l, hc, hp, hl, hn⟩ := id hm.unknown
  obtain ⟨a, hmarks⟩ := hm.marks
  have hnow := h.balanced_now
  have hproof : (db.marksOf c).proof = none := by
    rw [marksOf_of_stored hc]
    exact hp
  refine h.advances (advances_of_push hm.agrees hm.changes ?_) ?_
  · rw [undoMark, hmarks, Function.update_self]
    refine update_update_marks _ _ ?_
    rw [← hproof, ← hnow.blank c hproof]
  · rw [hmarks]
    refine hnow.proven h.toIndexed hc ?_ _ _ fun h => by cases h
    rw [marksOf_of_stored hl]
    exact hn

theorem Paired.grown {s t : Statement} {c d : ConstraintId} (h : Paired s t c d db db')
    (hst : s.negation? = some t) : Grown db db' where
  stored := (h.withPair hst).kept
  fresh e m he hm := by
    rw [((h.withPair hst).fresh e m he hm).2]
    exact ⟨rfl, rfl, rfl, rfl⟩
  lookup u e hu := by
    rw [lookup, h.literals]
    exact hu
  changes := h.changes

theorem Orderly.obtain (h : db.Orderly) {s : Statement} {c : ConstraintId}
    (hok : db.obtain s = .ok (db', c)) :
    db'.Orderly ∧ ∃ k, db'.stored c = some k ∧ k.live = true := by
  cases hfind : db.find? s with
  | some d =>
    rw [Database.obtain, hfind] at hok
    obtain ⟨rfl, rfl⟩ := Prod.mk.inj (Except.ok.inj hok)
    obtain ⟨k, hk, hl, _⟩ := (h.find_iff s d).mp hfind
    exact ⟨h, k, hk, hl⟩
  | none =>
    cases hneg : s.negation? with
    | none =>
      rw [Database.obtain, hfind, hneg] at hok
      cases hok
    | some t =>
      rcases h.obtain_spec hneg with ⟨d, hfind', _⟩ | ⟨_, db₁, d, e, hok', hp⟩
      · cases hfind.symm.trans hfind'
      obtain ⟨rfl, rfl⟩ := Prod.mk.inj (Except.ok.inj (hok.symm.trans hok'))
      have hc : db'.stored c = some { statement := s, negation := e } := by
        rw [hp.stored, if_pos rfl]
      refine ⟨h.reshaped hp.indexed hp.changes (hp.grown hneg).marksOf (fun a k' ha => ?_)
        fun a ha => ?_, _, hc, rfl⟩
      · rw [hp.stored] at ha
        split at ha
        · rename_i hac
          rw [← Option.some.inj ha, hac]
          exact .inr hp.unused
        · split at ha
          · rename_i hae
            rw [← Option.some.inj ha, hae]
            exact .inr hp.unused.symm
          · exact .inl ⟨k', ha, rfl⟩
      · rw [hp.literals] at ha
        obtain ⟨k, hk, hl⟩ := h.literals a ha
        exact ⟨k, (hp.grown hneg).stored _ k hk, hl⟩

theorem marksOf_attach (db : Database) (c : ConstraintId) (t : Term) :
    (db.attach c t).marksOf = db.marksOf := by
  funext e
  rw [marksOf, stored_attach]
  split
  · rw [Option.map_map]
    rfl
  · rfl

theorem Orderly.attach (h : db.Orderly) {c : ConstraintId} {k : Constraint}
    (hc : db.stored c = some k) (hl : k.live = true) (t : Term) : (db.attach c t).Orderly := by
  have hstored : ∀ e m, db.stored e = some m → ∃ m', (db.attach c t).stored e = some m' ∧
      m'.live = m.live := by
    intro e m hm
    rw [stored_attach, hm]
    split
    · exact ⟨_, rfl, rfl⟩
    · exact ⟨m, rfl, rfl⟩
  refine h.reshaped (h.toIndexed.attach c t) (changes_attach db c t) (marksOf_attach db c t)
    (fun e m he => ?_) fun e he => ?_
  · rw [stored_attach] at he
    split at he
    · obtain ⟨m', hm', rfl⟩ := Option.map_eq_some_iff.mp he
      exact .inl ⟨m', hm', rfl⟩
    · exact .inl ⟨m, he, rfl⟩
  · have hmem : e ∈ db.literals ∨ e = (t, c) := by
      rw [Database.attach] at he
      split at he
      · exact .inl he
      · exact (List.mem_append.mp he).imp_right List.mem_singleton.mp
    rcases hmem with hmem | rfl
    · obtain ⟨m, hm, hml⟩ := h.literals e hmem
      obtain ⟨m', hm', hml'⟩ := hstored _ m hm
      exact ⟨m', hm', hml'.trans hml⟩
    · obtain ⟨m', hm', hml'⟩ := hstored c k hc
      exact ⟨m', hm', hml'.trans hl⟩

theorem Orderly.addAtom (h : db.Orderly) {a : Term} {s : Statement} {c : ConstraintId}
    (hok : db.addAtom a s = .ok (db', c)) : db'.Orderly := by
  obtain ⟨⟨db₁, d⟩, hok₁, hok⟩ := bind_eq_ok.mp hok
  obtain ⟨k, hget, hok⟩ := bind_eq_ok.mp hok
  obtain ⟨rfl, rfl⟩ := Prod.mk.inj (Except.ok.inj hok)
  obtain ⟨h₁, k', hk', hl⟩ := h.obtain hok₁
  have hk := stored_of_get_eq_ok hget
  rw [hk'] at hk
  obtain rfl := Option.some.inj hk
  have h₂ := h₁.attach hk' hl a
  have hc : (db₁.attach d a).stored d = some { k' with literal := k'.literal.or (some a) } := by
    rw [stored_attach, if_pos rfl, hk']
    rfl
  obtain ⟨l, hln, _, _, hll⟩ := h₂.negation d _ hc
  exact h₂.attach hln (hll.trans hl) _

theorem Orderly.addLiteral (h : db.Orderly) {ε : Type} {t : Term} {f : Term → Except ε Statement}
    {c : ConstraintId} (hok : db.addLiteral t f = .ok (.ok (db', c))) : db'.Orderly := by
  obtain ⟨s, d, hadd⟩ := addAtom_of_addLiteral hok
  exact h.addAtom hadd

theorem Orderly.split (h : db.Orderly) {c : ConstraintId} {t : Trichotomy}
    (hok : db.split c = .ok (db', t)) : db'.Orderly := by
  obtain ⟨k, db₁, hc, hfirst, hsecond⟩ := setSplit_of_split hok
  obtain ⟨l, hl, _⟩ := h.negation c k hc
  obtain ⟨_, hok₁, hf₁, hm₁⟩ := setSplit_spec hc
  obtain rfl := Except.ok.inj (hfirst.symm.trans hok₁)
  obtain ⟨l₁, hl₁, _⟩ := hf₁.advances.agrees.stored hl
  obtain ⟨_, hok₂, hf₂, hm₂⟩ := setSplit_spec hl₁
  obtain rfl := Except.ok.inj (hsecond.symm.trans hok₂)
  refine h.advances (hf₁.trans hf₂).advances ?_
  rw [hm₂, hm₁, Function.update_of_ne (h.negation_ne hc)]
  exact h.balanced_now.flagged h.toIndexed hc (f := fun m => { m with split := true })
    (fun _ => ⟨rfl, rfl⟩) fun _ _ hxy => ⟨hxy.1, rfl⟩

theorem Orderly.preregister (h : db.Orderly) {c : ConstraintId}
    (hok : db.preregister c = .ok db') : db'.Orderly := by
  obtain ⟨k, l, hc, hl, hk, hlp, rfl⟩ := h.setPreregistered_of_preregister hok
  obtain ⟨hf₁, hm₁⟩ := setPreregistered_spec hc hk
  obtain ⟨hf₂, hm₂⟩ := setPreregistered_spec hl hlp
  refine h.advances (hf₁.trans hf₂).advances ?_
  rw [hm₂, hm₁, Function.update_of_ne (h.negation_ne hc)]
  exact h.balanced_now.flagged h.toIndexed hc (f := fun m => { m with preregistered := true })
    (fun _ => ⟨rfl, rfl⟩) fun _ _ hxy => ⟨rfl, hxy.2⟩

/-- Collecting only removes pairs, and the literals of these. -/
theorem Orderly.pruned (h : db.Orderly) {n : Nat} (hok : db.collect = .ok (db', n)) :
    db'.Indexed ∧ Pruned db db' ∧
      db'.literals = db.literals.filter fun e => (db'.stored e.2).any (·.live) := by
  obtain ⟨db₁, m, hok₁, hindexed, hpruned, hlit, -⟩ := h.toIndexed.collect fun e he =>
    (h.literals e he).imp fun _ => And.left
  obtain ⟨rfl, rfl⟩ := Prod.mk.inj (Except.ok.inj (hok.symm.trans hok₁))
  exact ⟨hindexed, hpruned, hlit⟩

theorem Orderly.collect (h : db.Orderly) {n : Nat} (hok : db.collect = .ok (db', n)) :
    db'.Orderly := by
  obtain ⟨hindexed, hp, hlit⟩ := h.pruned hok
  refine h.reshaped hindexed hp.changes hp.marksOf (fun c k' hc => ?_) fun e he => ?_
  · obtain ⟨k, hk⟩ := hp.origin c k' hc
    refine .inl ⟨k, hk, ?_⟩
    rcases hp.stored c k hk with hc' | ⟨_, hc'⟩
    · rw [Option.some.inj (hc.symm.trans hc')]
    · rw [Option.some.inj (hc.symm.trans hc')]
      rfl
  · rw [hlit] at he
    exact (Option.any_eq_true _ _).mp (List.mem_filter.mp he).2

theorem Orderly.openScope (h : db.Orderly) : db.openScope.Orderly where
  find_iff := h.find_iff
  negation := h.negation
  tidy := h.tidy
  balanced n hn := by
    rcases Nat.lt_or_eq_of_le hn with hlt | rfl
    · rw [marksAt_openScope (Nat.le_of_lt_succ hlt)]
      exact ⟨(h.balanced n (Nat.le_of_lt_succ hlt)).blank,
        (h.balanced n (Nat.le_of_lt_succ hlt)).exclusive,
        (h.balanced n (Nat.le_of_lt_succ hlt)).alike⟩
    · rw [marksAt_level]
      exact ⟨h.balanced_now.blank, h.balanced_now.exclusive, h.balanced_now.alike⟩
  literals := h.literals

theorem Orderly.backtrack (h : db.Orderly) {n : Nat} (hok : db.backtrack n = .ok db') :
    db'.Orderly := by
  have hn := level_of_backtrack hok
  obtain ⟨db₁, hok₁, hagree, hchanges, hmarks⟩ := backtrack_spec hn
  obtain rfl := Except.ok.inj (hok.symm.trans hok₁)
  refine ⟨hagree.indexed h.toIndexed, fun m hm => ?_, fun e he => ?_⟩
  · rw [hchanges, Trail.level_kept hn] at hm
    rw [marksAt_kept hn hchanges hmarks hm]
    exact hagree.balanced (h.balanced m (hm.trans hn))
  · rw [hagree.literals] at he
    obtain ⟨k, hk, hl⟩ := h.literals e he
    obtain ⟨k', hk', hb⟩ := hagree.stored hk
    exact ⟨k', hk', (Constraint.live_of_bare hb).trans hl⟩

/-! ## Sequences of operations -/

theorem orderly_start (b : Bool) : ({ debugChecks := b } : Database).Orderly := by
  have hnone : ∀ c, ({ debugChecks := b } : Database).stored c = none := fun _ => rfl
  refine ⟨⟨fun s c => ⟨fun h => (by cases h), fun ⟨k, hk, _⟩ => (by cases hk)⟩,
    fun c k hk => (by cases hk), fun v x slots h => (by cases h)⟩, fun n hn => ?_,
    fun e he => (by cases he)⟩
  have hblank : ∀ c, ({ debugChecks := b } : Database).marksAt n c = {} := fun c =>
    marksAt_of_unstored (hnone c) n
  exact ⟨fun c _ => by rw [hblank], fun c k hk => (by cases hk), fun c k hk => (by cases hk)⟩

theorem Orderly.step (h : db.Orderly) {op : Operation} (hok : db.step op = .ok db') :
    db'.Orderly := by
  cases op with
  | obtain s =>
    obtain ⟨⟨db₁, c⟩, hok₁, hok⟩ := bind_eq_ok.mp hok
    cases hok
    exact (h.obtain hok₁).1
  | addLiteral t classified =>
    obtain ⟨r, hok₁, hok⟩ := bind_eq_ok.mp hok
    cases r with
    | ok r =>
      cases hok
      exact h.addLiteral hok₁
    | error e =>
      cases hok
      exact h
  | addAtom a s =>
    obtain ⟨⟨db₁, c⟩, hok₁, hok⟩ := bind_eq_ok.mp hok
    cases hok
    exact h.addAtom hok₁
  | mark c as => exact h.marked (h.toIndexed.marked_of_mark hok)
  | markAsserted c t => exact h.marked (h.toIndexed.marked_of_markAsserted hok)
  | split c =>
    obtain ⟨⟨db₁, t⟩, hok₁, hok⟩ := bind_eq_ok.mp hok
    cases hok
    exact h.split hok₁
  | preregister c => exact h.preregister hok
  | collect =>
    obtain ⟨⟨db₁, n⟩, hok₁, hok⟩ := bind_eq_ok.mp hok
    cases hok
    exact h.collect hok₁
  | openScope =>
    cases hok
    exact h.openScope
  | backtrack n => exact h.backtrack hok

theorem Orderly.run {ops : List Operation} {db : Database} (h : db.Orderly)
    (hok : db.run ops = .ok db') : db'.Orderly := by
  induction ops generalizing db with
  | nil =>
    cases hok
    exact h
  | cons op ops ih =>
    obtain ⟨db₁, hok₁, hok⟩ := bind_eq_ok.mp hok
    exact ih (h.step hok₁) hok

/-! ## The representation invariant -/

/-- A constraint and its negation: both are on one variable and share their life and their flags,
exactly one is true of any rational, and not both are known to hold. -/
structure Opposed (k l : Constraint) : Prop where
  var : l.statement.var = k.statement.var
  true_iff : ∀ q : ℚ, l.statement.TrueAt q ↔ ¬ k.statement.TrueAt q
  live : l.live = k.live
  proofs : ¬ (k.hasProof = true ∧ l.hasProof = true)
  preregistered : l.preregistered = k.preregistered
  split : l.split = k.split

/-- The representation invariant of a database. -/
structure Regular (db : Database) : Prop where
  find_iff : ∀ s c, db.find? s = some c ↔
    ∃ k, db.stored c = some k ∧ k.live = true ∧ k.statement = s
  unique : ∀ c d k l, db.stored c = some k → db.stored d = some l → k.live = true →
    l.live = true → k.statement = l.statement → c = d
  paired : ∀ c k, db.stored c = some k → k.negation ≠ c ∧
    ∃ l, db.stored k.negation = some l ∧ l.negation = c ∧ Opposed k l
  literals : ∀ t c, (t, c) ∈ db.literals → ∃ k, db.stored c = some k ∧ k.live = true
  hasConstraints_iff : ∀ v, db.hasConstraints v = true ↔
    ∃ c k, db.stored c = some k ∧ k.live = true ∧ k.statement.var = v

theorem Orderly.opposed (h : db.Orderly) {c : ConstraintId} {k l : Constraint}
    (hc : db.stored c = some k) (hl : db.stored k.negation = some l) : Opposed k l := by
  obtain ⟨l', hl', _, hneg, hlive⟩ := h.negation c k hc
  rw [hl] at hl'
  obtain rfl := Option.some.inj hl'
  have hflags := h.balanced_now.alike c k hc
  have hproofs := h.balanced_now.exclusive c k hc
  rw [marksOf_of_stored hc, marksOf_of_stored hl] at hflags hproofs
  refine ⟨Statement.var_of_negation? hneg, Statement.trueAt_negation? hneg, hlive,
    fun ⟨hk, hl⟩ => ?_, hflags.1, hflags.2⟩
  rcases hproofs with hp | hp
  · exact Option.isSome_iff_ne_none.mp hk hp
  · exact Option.isSome_iff_ne_none.mp hl hp

theorem Orderly.regular (h : db.Orderly) : db.Regular where
  find_iff := h.find_iff
  unique _ _ _ _ hc hd hk hl hs := h.eq_of_statement_eq hc hd hk hl hs
  paired c k hc := by
    obtain ⟨l, hl, hback, _⟩ := h.negation c k hc
    exact ⟨h.negation_ne hc, l, hl, hback, h.opposed hc hl⟩
  literals t c ht := h.literals (t, c) ht
  hasConstraints_iff _ := h.toIndexed.hasConstraints_iff

/-- The representation invariant holds after every sequence of operations within their
preconditions. -/
theorem regular_of_run {b : Bool} {ops : List Operation} {db : Database}
    (h : ({ debugChecks := b } : Database).run ops = .ok db) : db.Regular :=
  ((orderly_start b).run h).regular

/-- Two pairs get proofs and flags in a scope, are removed after it, and the first one is stored
again. -/
def recycled : List Operation :=
  let x : Var := ⟨0⟩
  let bound : Term := .rel .ge (.var "x") (.const 4)
  [.addLiteral (.neg bound) (.ok ⟨x, .lower, .ofRat 4⟩), .openScope,
    .addAtom (.rel .eq (.var "x") (.const 1)) ⟨x, .equality, .ofRat 1⟩,
    .markAsserted ⟨0⟩ bound, .mark ⟨3⟩ [⟨0⟩], .split ⟨2⟩, .preregister ⟨0⟩, .backtrack 0, .collect,
    .obtain ⟨x, .lower, .ofRat 4⟩]

theorem regular_of_recycled : ∃ db, ({ debugChecks := true } : Database).run recycled = .ok db ∧
    db.find? ⟨⟨0⟩, .lower, .ofRat 4⟩ = some ⟨4⟩ ∧ db.numConstraints = 2 ∧ db.Regular := by
  have h : (({ debugChecks := true } : Database).run recycled >>= fun db =>
      Except.ok (db.find? ⟨⟨0⟩, .lower, .ofRat 4⟩, db.numConstraints)) = .ok (some ⟨4⟩, 2) := by
    decide +kernel
  obtain ⟨db, hrun, h⟩ := bind_eq_ok.mp h
  obtain ⟨hfind, hnum⟩ := Prod.mk.inj (Except.ok.inj h)
  exact ⟨db, hrun, hfind, hnum, regular_of_run hrun⟩

end LinearArithmetic.Database
