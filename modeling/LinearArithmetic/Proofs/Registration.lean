import LinearArithmetic.Proofs.Classification
import LinearArithmetic.Proofs.Database

/-!
# Registered literals

A literal that is registered is found in the database or has a constant truth value. The
constraint found holds for the value of its variable exactly when the literal does, whatever the
leaves are, and registering more literals leaves that as it is.
-/

namespace LinearArithmetic

namespace Term

/-- The literal is the negation of an equation. -/
def IsDisequality : Term → Prop
  | neg (rel .eq _ _) => True
  | _ => False

instance : DecidablePred IsDisequality := fun t =>
  match t with
  | neg (rel .eq _ _) => isTrue trivial
  | neg (rel .lt _ _) | neg (rel .le _ _) | neg (rel .ge _ _) | neg (rel .gt _ _) => isFalse id
  | neg (var _) | neg (const _) | neg (bool _) | neg (sum _) | neg (prod _) | neg (neg _)
  | neg (conj _) | neg (disj _) | neg (implies _ _) | neg (ite _ _ _) => isFalse id
  | var _ | const _ | bool _ | sum _ | prod _ | rel _ _ _ | conj _ | disj _ | implies _ _
  | ite _ _ _ => isFalse id

/-- The comparison under the literal has a linear atom. -/
def Linear (t : Term) : Prop := ∃ l, t.atom.linearAtom = .ok l

theorem Linear.isRelational {t : Term} (h : t.Linear) : t.atom.isRelational = true := by
  obtain ⟨l, hl⟩ := h
  obtain ⟨⟨lhs, rhs, ht⟩, _⟩ := linearAtom_eq_ok hl
  rw [ht]
  rfl

theorem atom_of_isRelational {a : Term} (h : a.isRelational = true) : a.atom = a := by
  cases a <;> simp_all [isRelational, relation?, atom]

theorem atom_eq {t : Term} : t = t.atom ∨ t = .neg t.atom := by
  cases t with
  | neg u => exact .inr rfl
  | _ => exact .inl rfl

end Term

namespace Theory

/-! ## The meaning of constraints -/

/-- The statement is on a known variable, and holds for its value when the literal does. -/
structure Denotes (s : Theory) (t : Term) (st : Statement) : Prop where
  inRange : st.var.id < s.infos.size
  kind : st.kind = .disequality ↔ t.IsDisequality
  holds : ∀ ρ, t.Holds ρ ↔ st.Holds (.ofRat (s.interpret ρ st.var))

/-- The database is valid and the known literals have the meaning of their constraints. -/
structure Linked (s : Theory) : Prop where
  valid : s.database.Valid
  denotes : ∀ t c k, s.database.lookup t = some c → s.database.stored c = some k →
    s.Denotes t k.statement
  linear : ∀ t c, s.database.lookup t = some c → t.Linear
  constants : ∀ a b, s.constantAtoms.lookup a = some b → a.Linear ∧ a.isRelational = true ∧
    ∀ ρ, a.Holds ρ ↔ b = true

/-- A literal without unknowns has its truth value under all values of the leaves. -/
theorem Linked.holds_iff_constantTruth {s : Theory} (h : s.Linked) {t : Term} {b : Bool}
    (ht : s.constantTruth? t = some b) (ρ : Term → ℚ) : t.Holds ρ ↔ b = true := by
  obtain ⟨q, hq, hb⟩ := Option.map_eq_some_iff.mp ht
  obtain ⟨_, hrel, hiff⟩ := h.constants _ q hq
  cases t with
  | neg u =>
    have hneg : (Term.neg u).Holds ρ ↔ ¬ u.Holds ρ := by rw [Term.Holds]
    rw [hneg, show u.Holds ρ ↔ q = true from hiff ρ, ← hb]
    cases q <;> simp [Term.isNegated]
  | rel r u v =>
    rw [← hb]
    exact hiff ρ
  | _ => cases hrel

theorem Denotes.of_contents {s s' : Theory} {t : Term} {st : Statement} (h : s.Denotes t st)
    (ha : s.Arranged) (hcontents : ∀ v p, s.content? v = some p → s'.content? v = some p) :
    s'.Denotes t st where
  inRange := lt_of_contents hcontents h.inRange
  kind := h.kind
  holds ρ := by rw [h.holds, interpret_of_contents hcontents ha h.inRange]

/-- Literals keep their meaning while variables stand for what they stood for and literals lead to
constraints that say the same as before. -/
theorem Linked.transfer {s s' : Theory} (h : s.Linked) (ha : s.Arranged)
    (hvalid : s'.database.Valid)
    (hback : ∀ t c k, s'.database.lookup t = some c → s'.database.stored c = some k →
      s.database.lookup t = some c ∧
        ∃ k₀, s.database.stored c = some k₀ ∧ k₀.statement = k.statement)
    (hcontents : ∀ v p, s.content? v = some p → s'.content? v = some p)
    (hconst : s'.constantAtoms = s.constantAtoms) : s'.Linked where
  valid := hvalid
  denotes t c k hc hk := by
    obtain ⟨hlook, k₀, hk₀, hst⟩ := hback t c k hc hk
    rw [← hst]
    exact (h.denotes t c k₀ hlook hk₀).of_contents ha hcontents
  linear t c hc := by
    obtain ⟨_, k, hk, _⟩ := hvalid.known t c hc
    exact h.linear t c (hback t c k hc hk).1
  constants a b hb := h.constants a b (hconst ▸ hb)

/-- The literals of the database keep their meaning when there are more variables or other rows. -/
theorem Widened.linked {s s' : Theory} (h : Widened s s') (ha : s.Arranged) (hl : s.Linked) :
    s'.Linked := by
  refine hl.transfer ha (h.database.symm ▸ hl.valid) (fun t c k hc hk => ?_) h.contents
    h.constantAtoms
  rw [h.database] at hc hk
  exact ⟨hc, k, hk, rfl⟩

/-- A literal and its negation have opposite meanings. -/
theorem Denotes.negate {s : Theory} {a : Term} {st st' : Statement} (h : s.Denotes a st)
    (hrel : a.isRelational = true) (hkind : st.kind = .equality ↔ a.relation? = some .eq)
    (hn : st.negation? = some st') : s.Denotes (.neg a) st' where
  inRange := (Statement.var_of_negation? hn).symm ▸ h.inRange
  kind := by
    rw [Statement.kind_eq_disequality_iff hn, hkind]
    cases a with
    | rel r lhs rhs => cases r <;> simp [Term.relation?, Term.IsDisequality]
    | _ => simp [Term.isRelational, Term.relation?] at hrel
  holds ρ := by
    rw [Statement.var_of_negation? hn, Statement.holds_negation? hn, ← h.holds]
    rfl

/-! ## Registering literals -/

/-- What registering literals does: there may be more variables and more constraints. -/
structure Registers (s s' : Theory) : Prop where
  grows : Grows s s'
  named : s'.Named
  linked : s'.Linked
  trimmed : s.Trimmed → s'.Trimmed
  contents : ∀ v p, s.content? v = some p → s'.content? v = some p
  database : Database.Grown s.database s'.database
  constants : ∀ a b, s.constantAtoms.lookup a = some b → s'.constantAtoms.lookup a = some b
  options : s'.options = s.options
  pending : s'.pending = s.pending
  processed : s'.processed = s.processed
  disequalities : s'.disequalities = s.disequalities
  propagations : s'.propagations = s.propagations
  trail : s'.simplex.model.trail = s.simplex.model.trail
  bounds : s'.simplex.model.boundOf = s.simplex.model.boundOf
  lemmas : s'.simplex.lemmas = s.simplex.lemmas

theorem Registers.refl {s : Theory} (h : s.Framed) (hn : s.Named) (hl : s.Linked) :
    Registers s s :=
  ⟨.refl h, hn, hl, id, fun _ _ => id, .refl _, fun _ _ => id, rfl, rfl, rfl, rfl, rfl, rfl, rfl,
    rfl⟩

theorem Introduces.registers {s s' : Theory} (h : Introduces s s') (ha : s.Arranged)
    (hl : s.Linked) : Registers s s' where
  grows := h.grows
  named := h.named
  linked := h.widened.linked ha hl
  trimmed := h.trimmed
  contents := h.widened.contents
  database := h.widened.database.symm ▸ .refl _
  constants a b hb := by rw [h.widened.constantAtoms]; exact hb
  options := h.widened.options
  pending := h.widened.pending
  processed := h.widened.processed
  disequalities := h.widened.disequalities
  propagations := h.widened.propagations
  trail := h.widened.trail
  bounds := h.widened.bounds
  lemmas := h.widened.lemmas

/-- Growing only in tables that neither rows nor names are about. -/
theorem Registers.extend {s s' s'' : Theory} (h : Registers s s') (hl : s''.Linked)
    (hdb : Database.Grown s'.database s''.database)
    (hconst : ∀ a b, s'.constantAtoms.lookup a = some b → s''.constantAtoms.lookup a = some b)
    (htrim : s'.Trimmed → s''.Trimmed)
    (heq : s'' = { s' with database := s''.database, constantAtoms := s''.constantAtoms }) :
    Registers s s'' := by
  have hg := h.grows
  rw [heq] at hl htrim ⊢
  exact {
    trimmed := fun ht => htrim (h.trimmed ht)
    grows := ⟨⟨hg.framed.toArranged.congr rfl rfl rfl rfl, hg.framed.values, hg.framed.safe,
      hg.framed.dormant⟩, hg.sublist, hg.bounds, hg.active, hg.awake,
      fun hb => (hg.balanced hb).congr rfl rfl rfl, hg.values, hg.committed, hg.watches⟩
    named := ⟨h.named.leaves, h.named.slacks, h.named.leaf, h.named.listed, h.named.normal⟩
    linked := hl
    contents := h.contents
    database := h.database.trans hdb
    constants := fun a b hb => hconst a b (h.constants a b hb)
    options := h.options
    pending := h.pending
    processed := h.processed
    disequalities := h.disequalities
    propagations := h.propagations
    trail := h.trail
    bounds := h.bounds
    lemmas := h.lemmas }

/-- The atom of an unknown literal is unknown. -/
theorem lookup_atom_eq_none {db : Database} (h : db.Valid) {t : Term}
    (hrel : t.atom.isRelational = true) (ht : db.lookup t = none) : db.lookup t.atom = none := by
  rcases t.atom_eq with heq | heq
  · rwa [← heq]
  · cases hc : db.lookup t.atom with
    | none => rfl
    | some c =>
      obtain ⟨_, k, _, _, hneg⟩ := h.known _ c hc
      rw [Database.negate_of_relational hrel, ← heq, ht] at hneg
      cases hneg

/-- The literals after an atom and its negation were added. -/
theorem lookup_of_literals {db db' : Database} {a : Term} {c d : ConstraintId}
    (h : db'.literals = db.literals ++ [(a, c)] ++ [(.neg a, d)]) {t : Term} {e : ConstraintId}
    (ht : db'.lookup t = some e) :
    db.lookup t = some e ∨ t = a ∧ e = c ∨ t = .neg a ∧ e = d := by
  rw [Database.lookup, h, Database.lookup_append_single, Database.lookup_append_single] at ht
  rcases Option.or_eq_some_iff.mp ht with ht | ⟨_, ht⟩
  · rcases Option.or_eq_some_iff.mp ht with ht | ⟨_, ht⟩
    · exact .inl ht
    · split at ht
      · exact .inr (.inl ⟨‹_›, (Option.some.inj ht).symm⟩)
      · cases ht
  · split at ht
    · exact .inr (.inr ⟨‹_›, (Option.some.inj ht).symm⟩)
    · cases ht

/-- The database after an atom with the meaning of a statement was added. -/
theorem Linked.addAtom {s : Theory} (hl : s.Linked) {a : Term} {l : LinearAtom}
    (hlin : a.linearAtom = .ok l) {st : Statement} (hm : s.Means l (.constraint st))
    {c : ConstraintId} {db : Database} (hadd : Database.AtomAdded a st c s.database db) :
    ({ s with database := db } : Theory).Linked := by
  obtain ⟨⟨lhs, rhs, ha⟩, _, hholds⟩ := Term.linearAtom_eq_ok hlin
  obtain ⟨_, hrange, hkind, heq, hmean⟩ := hm
  have hrel : a.isRelational = true := by rw [ha]; rfl
  have hatom := Term.atom_of_isRelational hrel
  obtain ⟨k, hk, _, hkst, hlits⟩ := hadd.statement
  obtain ⟨k', hk', _, hneg, _⟩ := hadd.valid.negation c k hk
  have hden : s.Denotes a st := by
    refine ⟨hrange, ⟨fun h => absurd h hkind, fun h => ?_⟩, fun ρ => by rw [← hholds, hmean]⟩
    rw [ha] at h
    exact h.elim
  have hdenn : s.Denotes (.neg a) k'.statement := by
    refine hden.negate hrel ?_ (hkst ▸ hneg)
    rw [heq, ha]
    simp [Term.relation?]
  refine ⟨hadd.valid, fun t e m he hme => ?_, fun t e he => ?_, hl.constants⟩
  · have hD : s.Denotes t m.statement := by
      rcases lookup_of_literals hlits he with he | ⟨rfl, rfl⟩ | ⟨rfl, rfl⟩
      · obtain ⟨_, m', hm', _⟩ := hl.valid.known t e he
        rw [hadd.grown.stored e m' hm'] at hme
        exact hl.denotes t e m he (hme ▸ hm')
      · rw [hk] at hme
        rw [← Option.some.inj hme, hkst]
        exact hden
      · rw [hk'] at hme
        rw [← Option.some.inj hme]
        exact hdenn
    exact ⟨hD.inRange, hD.kind, hD.holds⟩
  · rcases lookup_of_literals hlits he with he | ⟨rfl, _⟩ | ⟨rfl, _⟩
    · exact hl.linear t e he
    · exact ⟨l, by rw [hatom]; exact hlin⟩
    · exact ⟨l, hlin⟩

/-- An atom on a variable that is not eliminated leaves the rows trimmed. -/
theorem Trimmed.addAtom {s : Theory} (h : s.Trimmed) (ha : s.Arranged)
    (hv : s.database.Indexed) {a : Term} {st : Statement}
    (hback : s.IsLeaf st.var → st.var ∉ s.eliminated.map Prod.fst) {c : ConstraintId}
    {db : Database} (hadd : Database.AtomAdded a st c s.database db) :
    ({ s with database := db } : Theory).Trimmed where
  eliminated v hmem := by
    rw [← Bool.not_eq_true]
    intro hc
    rcases hadd.hasConstraints hv hc with hc | rfl
    · rw [h.eliminated v hmem] at hc
      cases hc
    · exact hback (h.isLeaf ha hmem) hmem
  active v hact := (h.active v hact).imp_right (hadd.grown.hasConstraints hv hadd.valid.toIndexed)

/-- The truth value of an atom without unknowns is added. -/
theorem Linked.addConstant {s : Theory} (hl : s.Linked) {a : Term} {l : LinearAtom}
    (hlin : a.linearAtom = .ok l) {b : Bool} (hm : s.Means l (.constant b))
    (hnew : s.constantAtoms.lookup a = none) :
    ({ s with constantAtoms := s.constantAtoms ++ [(a, b)] } : Theory).Linked := by
  obtain ⟨⟨lhs, rhs, ha⟩, _, hholds⟩ := Term.linearAtom_eq_ok hlin
  have hrel : a.isRelational = true := by rw [ha]; rfl
  refine ⟨hl.valid, fun t c k hc hk => ?_, hl.linear, fun t q hq => ?_⟩
  · have hD := hl.denotes t c k hc hk
    exact ⟨hD.inRange, hD.kind, hD.holds⟩
  · rcases (lookup_append_of_none hnew b t q).mp hq with hq | ⟨rfl, rfl⟩
    · exact hl.constants t q hq
    · refine ⟨⟨l, ?_⟩, hrel, fun ρ => by rw [← hholds, hm]⟩
      rw [Term.atom_of_isRelational hrel]
      exact hlin

/-- Adding an unknown literal with a statement for its atom. -/
theorem addLiteral_spec {db : Database} (h : db.Valid) {t : Term}
    (hrel : t.atom.isRelational = true) (hnew : db.lookup t = none) {st : Statement}
    (hs : st.Representable) :
    ∃ db' c d, db.addLiteral t (fun _ => Except.ok (ε := Refusal) st) = .ok (.ok (db', c)) ∧
      Database.AtomAdded t.atom st d db db' ∧ db'.lookup t = some c := by
  have hnewa := lookup_atom_eq_none h hrel hnew
  obtain ⟨db', c, hok, hadd⟩ := h.addAtom hrel hnewa hs
  obtain ⟨k, hk, _, _, hlits⟩ := hadd.statement
  have hlookup : ∀ u, db.lookup u = none → db'.lookup u =
      (if u = t.atom then some c else none).or
        (if u = .neg t.atom then some k.negation else none) := by
    intro u hu
    rw [Database.lookup, hlits, Database.lookup_append_single, Database.lookup_append_single]
    rw [Database.lookup] at hu
    rw [hu, Option.none_or]
  cases hneg : t.isNegated with
  | false =>
    refine ⟨db', c, c, ?_, hadd, ?_⟩
    · simp only [Database.addLiteral, Database.hasLiteral, hnew, hok, hneg]
      rfl
    · have hatom : t = t.atom := by cases t <;> first | rfl | cases hneg
      rw [hlookup t hnew, if_pos hatom]
      rfl
  | true =>
    refine ⟨db', k.negation, c, ?_, hadd, ?_⟩
    · simp only [Database.addLiteral, Database.hasLiteral, hnew, hok, hneg]
      simp only [Option.isSome_none, Bool.false_eq_true, if_false, if_true, pure_eq_ok, ok_bind,
        Database.get_eq_ok hk]
    · have hatom : t = .neg t.atom := by cases t <;> first | rfl | cases hneg
      have hne : t ≠ t.atom := fun hta => Database.neg_ne_self _ (hatom.symm.trans hta)
      rw [hlookup t hnew, if_neg hne, if_pos hatom]
      rfl

/-- The outcome of registering a literal: it is in the database or has a truth value. -/
def Registered (s : Theory) (t : Term) : Option ConstraintId → Prop
  | none => ∃ b, s.constantAtoms.lookup t.atom = some b
  | some c => s.database.lookup t = some c

/-- A literal with a linear atom that is not known yet gets a truth value or a constraint. -/
theorem registerLiteral_of_linear {s : Theory} (h : s.Framed) (hn : s.Named) (hl : s.Linked)
    {t : Term} (hc : s.database.lookup t = none) (hrel : t.atom.isRelational = true)
    (hconst : s.constantAtoms.lookup t.atom = none) {l : LinearAtom}
    (hlin : t.atom.linearAtom = .ok l) :
    ∃ s' c, s.registerLiteral t = .ok (s', c) ∧ Registers s s' ∧ s'.Registered t c := by
  obtain ⟨_, hleaf, _⟩ := Term.linearAtom_eq_ok hlin
  obtain ⟨s₁, k, hok, hint, hmeans, hback⟩ := h.classify hn hleaf
  have hreg := hint.registers h.toArranged hl
  cases k with
  | constant b =>
    have hconst₁ : s₁.constantAtoms.lookup t.atom = none := by
      rw [hint.widened.constantAtoms]
      exact hconst
    refine ⟨_, none, ?_, hreg.extend (hreg.linked.addConstant hlin hmeans hconst₁) (.refl _)
      (fun a b' ha => ?_) (·.congr rfl rfl fun _ => rfl) rfl, b, ?_⟩
    · simp only [registerLiteral, hc, hrel, hconst, hlin, Except.mapError, bind, Except.bind, hok]
      rfl
    · exact (lookup_append_of_none hconst₁ _ _ _).mpr (.inl ha)
    · exact (lookup_append_of_none hconst₁ _ _ _).mpr (.inr ⟨rfl, rfl⟩)
  | constraint st =>
    have hnew : s₁.database.lookup t = none := by
      rw [hint.widened.database]
      exact hc
    obtain ⟨db, c, d, hlit, hadd, hfind⟩ := addLiteral_spec hreg.linked.valid hrel hnew hmeans.1
    refine ⟨{ s₁ with database := db }, some c, ?_,
      hreg.extend (hreg.linked.addAtom hlin hmeans hadd) hadd.grown (fun _ _ => id)
        (fun ht => ht.addAtom hint.grows.framed.toArranged hreg.linked.valid.toIndexed
          (hback st rfl) hadd) rfl, hfind⟩
    simp only [registerLiteral, hc, hrel, hconst, hlin, Except.mapError, bind, Except.bind, hok,
      hlit]
    rfl

/-- A literal is refused if its comparison is not linear, and registered otherwise. -/
theorem registerLiteral_spec {s : Theory} (h : s.Framed) (hn : s.Named) (hl : s.Linked)
    (t : Term) :
    (∃ why, s.registerLiteral t = .error (.refusal why) ∧ ¬ t.Linear) ∨
      ∃ s' c, s.registerLiteral t = .ok (s', c) ∧ Registers s s' ∧ t.Linear ∧
        s'.Registered t c := by
  cases hc : s.database.lookup t with
  | some c =>
    refine .inr ⟨s, some c, ?_, .refl h hn hl, hl.linear t c hc, hc⟩
    simp only [registerLiteral, hc]
    rfl
  | none =>
    cases hrel : t.atom.isRelational with
    | false =>
      refine .inl ⟨.notAnAtom t, ?_, fun hlin => ?_⟩
      · simp only [registerLiteral, hc, hrel]
        rfl
      · rw [hlin.isRelational] at hrel
        cases hrel
    | true =>
      cases hconst : s.constantAtoms.lookup t.atom with
      | some b =>
        refine .inr ⟨s, none, ?_, .refl h hn hl, ?_, b, hconst⟩
        · simp only [registerLiteral, hc, hrel, hconst]
          rfl
        · obtain ⟨l, hlin⟩ := (hl.constants _ b hconst).1
          exact ⟨l, by rwa [Term.atom_of_isRelational hrel] at hlin⟩
      | none =>
        cases hlin : t.atom.linearAtom with
        | error why =>
          refine .inl ⟨why, ?_, fun ⟨l, hl'⟩ => by rw [hlin] at hl'; cases hl'⟩
          simp only [registerLiteral, hc, hrel, hconst, hlin]
          rfl
        | ok l =>
          obtain ⟨s', c, hok, hreg, hregistered⟩ :=
            registerLiteral_of_linear h hn hl hc hrel hconst hlin
          exact .inr ⟨s', c, hok, hreg, ⟨l, hlin⟩, hregistered⟩

end Theory

end LinearArithmetic
