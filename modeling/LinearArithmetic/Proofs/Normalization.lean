import LinearArithmetic.Proofs.Equations

/-!
# Normal forms keep the meaning

A comparison that is brought to normal form says the same as before. Whatever rationals the leaves
are, it holds exactly when the variable of its constraint satisfies the constraint, where a slack
variable has the value of its definition and an infinitesimal makes a bound strict. The constraint
of the negated comparison holds exactly when the comparison does not. A comparison without unknowns
is recorded with its truth value.
-/

namespace LinearArithmetic

namespace Statement

/-- A statement with a negation is true of some rational and false of another. -/
theorem Representable.exists_trueAt {st : Statement} (h : st.Representable) :
    (∃ q, st.TrueAt q) ∧ ∃ q, ¬ st.TrueAt q := by
  obtain ⟨n, hn, hrep⟩ := h.exists_negation
  obtain ⟨q, hq⟩ := h.exists_holds
  obtain ⟨q', hq'⟩ := hrep.exists_holds
  refine ⟨⟨q, (trueAt_iff_holds hn q).mpr hq⟩, q', ?_⟩
  rw [← trueAt_negation? hn, trueAt_iff_holds (negation?_negation? hn)]
  exact hq'

end Statement

/-- The literal has one truth value, whatever the leaves are. -/
def Term.Settled (literal : Term) : Prop := ∃ b : Bool, ∀ ρ, literal.Holds ρ ↔ b = true

/-- A literal is settled exactly when its comparison is. -/
theorem Term.settled_atom {literal : Term} : literal.atom.Settled ↔ literal.Settled := by
  cases literal with
  | neg atom =>
    have hneg : ∀ ρ, (Term.neg atom).Holds ρ ↔ ¬ atom.Holds ρ := by
      intro ρ
      rw [Term.Holds]
    constructor
    · rintro ⟨b, hb⟩
      refine ⟨!b, fun ρ => ?_⟩
      rw [hneg, show atom.Holds ρ ↔ b = true from hb ρ, Bool.not_eq_true, Bool.not_eq_true']
    · rintro ⟨b, hb⟩
      refine ⟨!b, fun ρ => ?_⟩
      rw [Bool.not_eq_true', ← Bool.not_eq_true, ← hb ρ, hneg, not_not]
      rfl
  | _ => exact Iff.rfl

namespace Theory

variable {s : Theory}

/-- The statement is on a known variable, and true of its value exactly when the leaves have the
property. -/
structure Describes (s : Theory) (st : Statement) (P : (Term → ℚ) → Prop) : Prop where
  inRange : st.var.id < s.infos.size
  trueAt : ∀ ρ, st.TrueAt (s.interpret ρ st.var) ↔ P ρ

theorem Describes.negation {st st' : Statement} {P : (Term → ℚ) → Prop} (h : s.Describes st P)
    (hn : st.negation? = some st') : s.Describes st' fun ρ => ¬ P ρ where
  inRange := by
    rw [Statement.var_of_negation? hn]
    exact h.inRange
  trueAt ρ := by
    rw [Statement.var_of_negation? hn, Statement.trueAt_negation? hn, h.trueAt]

/-- A literal that a statement describes is not settled. -/
theorem Describes.not_settled {st : Statement} {literal : Term}
    (h : s.Describes st literal.Holds) (hn : s.Named) (ha : s.Arranged)
    (hst : st.Representable) : ¬ literal.Settled := by
  rintro ⟨b, hb⟩
  obtain ⟨⟨q, hq⟩, q', hq'⟩ := hst.exists_trueAt
  obtain ⟨ρ, rfl⟩ := hn.exists_interpret ha h.inRange q
  obtain ⟨ρ', rfl⟩ := hn.exists_interpret ha h.inRange q'
  rw [h.trueAt, hb] at hq hq'
  exact hq' hq

/-- What a comparison comes down to says the same as the comparison, and the negation of its
statement the opposite. -/
def Expresses (s : Theory) (atom : Term) : Classified → Prop
  | .constant b => ∀ ρ, atom.Holds ρ ↔ b = true
  | .constraint st => s.Describes st atom.Holds ∧
    ∃ st', st.negation? = some st' ∧ s.Describes st' fun ρ => ¬ atom.Holds ρ

/-- What is recorded for a literal says the same as the literal, and what is recorded for its
negation the opposite. -/
def Records (s : Theory) (literal : Term) : Option ConstraintId → Prop
  | none => ∃ b, s.constantTruth? literal = some b ∧ ∀ ρ, literal.Holds ρ ↔ b = true
  | some c => s.database.lookup literal = some c ∧
    ∃ k k', s.database.get c = .ok k ∧ s.database.get k.negation = .ok k' ∧
      s.database.lookup literal.negate = some k.negation ∧
      s.Describes k.statement literal.Holds ∧
      s.Describes k'.statement fun ρ => ¬ literal.Holds ρ

theorem Means.expresses {atom : Term} {a : LinearAtom} {k : Classified} (h : s.Means a k)
    (ha : atom.linearAtom = .ok a) : s.Expresses atom k := by
  obtain ⟨_, _, hholds⟩ := Term.linearAtom_eq_ok ha
  cases k with
  | constant b =>
    intro ρ
    rw [← hholds]
    exact h ρ
  | constraint st =>
    obtain ⟨hrep, hrange, _, _, hst⟩ := h
    obtain ⟨st', hn, _⟩ := hrep.exists_negation
    have hdesc : s.Describes st atom.Holds := by
      refine ⟨hrange, fun ρ => ?_⟩
      rw [Statement.trueAt_iff_holds hn, ← hst, hholds]
    exact ⟨hdesc, st', hn, hdesc.negation hn⟩

/-- A known literal is recorded with its meaning. -/
theorem Linked.records {literal : Term} {c : ConstraintId} (h : s.Linked)
    (hc : s.database.lookup literal = some c) : s.Records literal (some c) := by
  obtain ⟨_, k, hk, _, hneg⟩ := h.valid.known literal c hc
  obtain ⟨k', hk', _, hn, _⟩ := h.valid.negation c k hk
  have hden := h.denotes literal c k hc hk
  have hdesc : s.Describes k.statement literal.Holds := by
    refine ⟨hden.inRange, fun ρ => ?_⟩
    rw [Statement.trueAt_iff_holds hn, ← hden.holds]
  exact ⟨hc, k, k', Database.get_eq_ok hk, Database.get_eq_ok hk', hneg, hdesc,
    hdesc.negation hn⟩

/-- A literal without unknowns is recorded with its truth value. -/
theorem Linked.records_constant {literal : Term} {b : Bool} (h : s.Linked)
    (hb : s.constantAtoms.lookup literal.atom = some b) : s.Records literal none := by
  have htruth : s.constantTruth? literal = some (if literal.isNegated then !b else b) := by
    rw [constantTruth?, hb]
    rfl
  exact ⟨_, htruth, h.holds_iff_constantTruth htruth⟩

/-- Whatever rationals the leaves are, the normal form of a literal and what is recorded for it say
the same as the literal; and it is recorded with a truth value exactly when it has no unknowns. -/
theorem Sane.normalized (hs : s.Sane) {literal : Term} {a : LinearAtom}
    (ha : literal.atom.linearAtom = .ok a) :
    ∃ s₁ k s₂ c, s.classify a = .ok (s₁, k) ∧ s₁.Expresses literal.atom k ∧
      s.registerLiteral literal = .ok (s₂, c) ∧ s₂.Records literal c ∧
      (c = none ↔ ∃ b, k = .constant b) := by
  obtain ⟨_, hleaf, _⟩ := Term.linearAtom_eq_ok ha
  obtain ⟨s₁, k, hclassify, hint, hmeans, _⟩ := hs.framed.classify hs.named hleaf
  obtain ⟨why, _, hnot⟩ | ⟨s₂, c, hregister, hreg, _, hregd⟩ :=
    registerLiteral_spec hs.framed hs.named hs.linked literal
  · exact absurd ⟨a, ha⟩ hnot
  have hexpr : s₁.Expresses literal.atom k := hmeans.expresses ha
  refine ⟨s₁, k, s₂, c, hclassify, hexpr, hregister, ?_⟩
  cases c with
  | none =>
    obtain ⟨b, hb⟩ := hregd
    have hrec := hreg.linked.records_constant hb
    refine ⟨hrec, fun _ => ?_, fun _ => rfl⟩
    cases k with
    | constant b' => exact ⟨b', rfl⟩
    | constraint st =>
      obtain ⟨b', _, hb'⟩ := hrec
      exact absurd (Term.settled_atom.mpr ⟨b', hb'⟩)
        (hexpr.1.not_settled hint.named hint.grows.framed.toArranged hmeans.1)
  | some c =>
    have hrec := hreg.linked.records hregd
    refine ⟨hrec, fun h => (by cases h), ?_⟩
    rintro ⟨b, rfl⟩
    obtain ⟨_, l, l', hl, _, _, hdesc, _⟩ := hrec
    obtain ⟨_, m, hm, _⟩ := hreg.linked.valid.known literal c hregd
    obtain rfl := Except.ok.inj ((Database.get_eq_ok hm).symm.trans hl)
    have hrep := hreg.linked.valid.representable c m hm
    exact absurd (Term.settled_atom.mp ⟨b, hexpr⟩)
      (hdesc.not_settled hreg.named hreg.grows.framed.toArranged hrep)

/-- In every state, a literal whose comparison is linear is brought to a normal form and recorded
without loss: both say the same as the literal, whatever rationals the leaves are. -/
theorem normalized_of_run {o : Options} {ops : List Operation} {as : List Answer} {s s' : Theory}
    (hrun : (start o).run ops = .ok (s, as)) (hstage : Stage s s') {literal : Term}
    {a : LinearAtom} (ha : literal.atom.linearAtom = .ok a) :
    ∃ s₁ k s₂ c, s'.classify a = .ok (s₁, k) ∧ s₁.Expresses literal.atom k ∧
      s'.registerLiteral literal = .ok (s₂, c) ∧ s₂.Records literal c ∧
      (c = none ↔ ∃ b, k = .constant b) :=
  (hstage.sane (running_of_run hrun).sane).normalized ha

/-- The atom `2(x + 3y) - 5x < 4y + 6`, which is `x - 2y/3 > -2`. -/
def folded : Term :=
  .rel .lt (.sum [.prod [.const 2, .sum [.var "x", .prod [.const 3, .var "y"]]],
    .prod [.const (-5), .var "x"]]) (.sum [.prod [.const 4, .var "y"], .const 6])

/-- The linear atom of `folded`. -/
def foldedLinear : LinearAtom := ⟨.lt, [(.var "x", -3), (.var "y", 2)], 6⟩

theorem linearAtom_folded : folded.linearAtom = .ok foldedLinear := by
  have h : folded.linearAtom.toOption.map (fun a => (a.relation, a.leaves, a.bound)) =
      some (.lt, [(.var "x", -3), (.var "y", 2)], 6) := by decide +kernel
  cases ha : folded.linearAtom with
  | error e =>
    rw [ha] at h
    cases h
  | ok a =>
    rw [ha] at h
    obtain ⟨r, leaves, bound⟩ := a
    simp only [Except.toOption, Option.map_some, Option.some.injEq, Prod.mk.injEq] at h
    obtain ⟨rfl, rfl, rfl⟩ := h
    rfl

/-- Beside the sum `2x + y`, the atom gets a slack variable of its own; dividing by the coefficient
of `x` has turned it into a lower bound. -/
theorem normalized_of_folded :
    ∃ s as s₁ s₂ c,
      (start {}).run [.register (.rel .gt (.sum [.prod [.const 2, .var "x"], .var "y"])
        (.const 3))] = .ok (s, as) ∧
      s.classify foldedLinear = .ok (s₁, .constraint ⟨⟨3⟩, .lower, ⟨-2, 1⟩⟩) ∧
      s₁.Expresses folded (.constraint ⟨⟨3⟩, .lower, ⟨-2, 1⟩⟩) ∧
      s.registerLiteral folded = .ok (s₂, some c) ∧ s₂.Records folded (some c) := by
  have h : ((start {}).run [.register (.rel .gt (.sum [.prod [.const 2, .var "x"], .var "y"])
      (.const 3))] >>= fun p => p.1.classify foldedLinear >>= fun q => Except.ok (match q.2 with
        | .constraint st => some st
        | .constant _ => none)) = .ok (some ⟨⟨3⟩, .lower, ⟨-2, 1⟩⟩) := by decide +kernel
  obtain ⟨⟨s, as⟩, hrun, hrest⟩ := bind_eq_ok.mp h
  obtain ⟨⟨s₁, k⟩, hclassify, hst⟩ := bind_eq_ok.mp hrest
  have hatom : folded.atom.linearAtom = .ok foldedLinear := linearAtom_folded
  obtain ⟨s₁', k', s₂, c, hclassify', hexpr, hregister, hrec, hconst⟩ :=
    normalized_of_run hrun .start hatom
  cases hclassify.symm.trans hclassify'
  cases k with
  | constant b => cases hst
  | constraint st =>
    obtain rfl : st = ⟨⟨3⟩, .lower, ⟨-2, 1⟩⟩ := Option.some.inj (Except.ok.inj hst)
    cases c with
    | none =>
      obtain ⟨b, hb⟩ := hconst.mp rfl
      cases hb
    | some c => exact ⟨s, as, s₁, s₂, c, hrun, hclassify, hexpr, hregister, hrec⟩

end Theory

end LinearArithmetic
