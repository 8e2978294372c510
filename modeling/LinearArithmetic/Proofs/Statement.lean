import LinearArithmetic.Constraint
import LinearArithmetic.Proofs.DeltaRat

/-!
# Statements

Statements that come from comparisons with rationals have a negation, and one statement on a
variable implies another when it leaves it no other values.
-/

namespace LinearArithmetic.Statement

/-- The statement comes from a comparison with a rational: lower bounds are off by one
infinitesimal upwards, upper ones downwards, if they are strict. -/
def Representable (s : Statement) : Prop :=
  match s.kind with
  | .lower => s.value.infinitesimal = 0 ∨ s.value.infinitesimal = 1
  | .upper => s.value.infinitesimal = 0 ∨ s.value.infinitesimal = -1
  | .equality | .disequality => s.value.infinitesimal = 0

instance : DecidablePred Representable
  | ⟨_, .lower, x⟩ => inferInstanceAs (Decidable (x.infinitesimal = 0 ∨ x.infinitesimal = 1))
  | ⟨_, .upper, x⟩ => inferInstanceAs (Decidable (x.infinitesimal = 0 ∨ x.infinitesimal = -1))
  | ⟨_, .equality, x⟩ | ⟨_, .disequality, x⟩ => inferInstanceAs (Decidable (x.infinitesimal = 0))

/-- Every value of the variable under which the first statement holds makes the second one hold. -/
def Implies (s t : Statement) : Prop :=
  t.var = s.var ∧ ∀ x : DeltaRat, s.Holds x → t.Holds x

theorem Implies.refl (s : Statement) : s.Implies s := ⟨rfl, fun _ => id⟩

theorem Implies.trans {s t u : Statement} (h : s.Implies t) (k : t.Implies u) : s.Implies u :=
  ⟨k.1.trans h.1, fun x hx => k.2 x (h.2 x hx)⟩

/-- A statement that excludes nothing holds at its own number. -/
theorem holds_value {s : Statement} (hs : s.kind ≠ .disequality) : s.Holds s.value := by
  obtain ⟨v, k, x⟩ := s
  cases k with
  | lower => exact le_refl x
  | upper => exact le_refl x
  | equality => rfl
  | disequality => exact absurd rfl hs

/-- Only a statement that has the same number implies an equality. -/
theorem Implies.value_eq {s t : Statement} (h : s.Implies t) (hs : s.kind ≠ .disequality)
    (ht : t.kind = .equality) : s.value = t.value := by
  have heq := h.2 s.value (holds_value hs)
  rw [Holds, ht] at heq
  exact heq

theorem Representable.exists_negation {s : Statement} (h : s.Representable) :
    ∃ t, s.negation? = some t ∧ t.Representable := by
  obtain ⟨v, k, ⟨c, i⟩⟩ := s
  cases k with
  | lower =>
    rcases h with h | h <;> simp only at h <;> subst h
    · exact ⟨⟨v, .upper, ⟨c, -1⟩⟩, rfl, .inr rfl⟩
    · exact ⟨⟨v, .upper, ⟨c, 0⟩⟩, rfl, .inl rfl⟩
  | upper =>
    rcases h with h | h <;> simp only at h <;> subst h
    · exact ⟨⟨v, .lower, ⟨c, 1⟩⟩, rfl, .inr rfl⟩
    · exact ⟨⟨v, .lower, ⟨c, 0⟩⟩, rfl, .inl rfl⟩
  | equality => exact ⟨_, rfl, h⟩
  | disequality => exact ⟨_, rfl, h⟩

/-- The second statement is the negation of the first one: the bound of the other side next to it,
or the other comparison with the same number. -/
inductive Opposed : Statement → Statement → Prop where
  | lower (v : Var) (c : ℚ) {i : ℚ} (hi : i = 0 ∨ i = 1) :
      Opposed ⟨v, .lower, ⟨c, i⟩⟩ ⟨v, .upper, ⟨c, i - 1⟩⟩
  | upper (v : Var) (c : ℚ) {i : ℚ} (hi : i = 0 ∨ i = -1) :
      Opposed ⟨v, .upper, ⟨c, i⟩⟩ ⟨v, .lower, ⟨c, i + 1⟩⟩
  | equality (v : Var) (x : DeltaRat) : Opposed ⟨v, .equality, x⟩ ⟨v, .disequality, x⟩
  | disequality (v : Var) (x : DeltaRat) : Opposed ⟨v, .disequality, x⟩ ⟨v, .equality, x⟩

theorem opposed_of_negation? {s t : Statement} (h : s.negation? = some t) : Opposed s t := by
  obtain ⟨v, k, ⟨c, i⟩⟩ := s
  cases k with
  | lower =>
    obtain ⟨hi, rfl⟩ : (i = 0 ∨ i = 1) ∧ t = ⟨v, .upper, ⟨c, i - 1⟩⟩ := by grind [negation?]
    exact .lower v c hi
  | upper =>
    obtain ⟨hi, rfl⟩ : (i = 0 ∨ i = -1) ∧ t = ⟨v, .lower, ⟨c, i + 1⟩⟩ := by grind [negation?]
    exact .upper v c hi
  | equality => exact Option.some.inj h ▸ .equality v ⟨c, i⟩
  | disequality => exact Option.some.inj h ▸ .disequality v ⟨c, i⟩

theorem var_of_negation? {s t : Statement} (h : s.negation? = some t) : t.var = s.var := by
  cases opposed_of_negation? h <;> rfl

theorem kind_of_negation? {s t : Statement} (h : s.negation? = some t) : t.kind ≠ s.kind := by
  cases opposed_of_negation? h <;> nofun

theorem kind_eq_disequality_iff {s t : Statement} (h : s.negation? = some t) :
    t.kind = .disequality ↔ s.kind = .equality := by
  cases opposed_of_negation? h <;> simp

/-- A disequality is the negation of the equality with the same number. -/
theorem value_of_negation? {s t : Statement} (h : s.negation? = some t)
    (ht : t.kind = .disequality) : t.value = s.value := by
  cases opposed_of_negation? h with
  | equality => rfl
  | _ => cases ht

/-- Of a statement and its negation, exactly one holds at a rational. -/
theorem holds_negation? {s t : Statement} (h : s.negation? = some t) (q : ℚ) :
    t.Holds (.ofRat q) ↔ ¬ s.Holds (.ofRat q) := by
  cases opposed_of_negation? h with
  | lower v c hi =>
    simp only [Holds, DeltaRat.ofRat, DeltaRat.le_def]
    grind
  | upper v c hi =>
    simp only [Holds, DeltaRat.ofRat, DeltaRat.le_def]
    grind
  | equality => rfl
  | disequality => exact not_not.symm

/-- A statement and its negation never hold together. -/
theorem not_holds_of_negation? {s t : Statement} (h : s.negation? = some t) {x : DeltaRat}
    (hs : s.Holds x) : ¬ t.Holds x := by
  cases opposed_of_negation? h with
  | lower v c hi =>
    simp only [Holds, DeltaRat.le_def] at hs ⊢
    grind
  | upper v c hi =>
    simp only [Holds, DeltaRat.le_def] at hs ⊢
    grind
  | equality => exact fun hn => hn hs
  | disequality => exact fun he => hs he

/-- The statement at a rational value of the variable: an infinitesimal makes a bound strict. -/
def TrueAt (s : Statement) (q : ℚ) : Prop :=
  match s.kind with
  | .lower => if s.value.infinitesimal = 0 then s.value.standard ≤ q else s.value.standard < q
  | .upper => if s.value.infinitesimal = 0 then q ≤ s.value.standard else q < s.value.standard
  | .equality => .ofRat q = s.value
  | .disequality => .ofRat q ≠ s.value

theorem trueAt_iff_holds {s t : Statement} (h : s.negation? = some t) (q : ℚ) :
    s.TrueAt q ↔ s.Holds (.ofRat q) := by
  obtain ⟨v, k, ⟨c, i⟩⟩ := s
  cases k with
  | lower => grind [negation?, TrueAt, Holds, DeltaRat.ofRat, DeltaRat.le_def]
  | upper => grind [negation?, TrueAt, Holds, DeltaRat.ofRat, DeltaRat.le_def]
  | equality => exact Iff.rfl
  | disequality => exact Iff.rfl

/-- Of a statement and its negation, exactly one is true of a rational. -/
theorem trueAt_negation? {s t : Statement} (h : s.negation? = some t) (q : ℚ) :
    t.TrueAt q ↔ ¬ s.TrueAt q := by
  rw [trueAt_iff_holds h, trueAt_iff_holds (negation?_negation? h)]
  exact holds_negation? h q

/-- A rational at which a statement holds with room for one infinitesimal. -/
theorem holds_substitute_one {s : Statement} (h : s.Representable) (hk : s.kind ≠ .disequality) :
    s.Holds (.ofRat (s.value.substitute 1)) := by
  obtain ⟨v, k, ⟨c, i⟩⟩ := s
  cases k with
  | lower =>
    rcases h with h | h <;>
    simp_all [Holds, DeltaRat.substitute, DeltaRat.le_ofRat_iff]
  | upper =>
    rcases h with h | h <;>
    simp_all [Holds, DeltaRat.substitute, DeltaRat.ofRat_le_iff]
  | equality =>
    have hi : i = 0 := h
    simp [Holds, DeltaRat.substitute, DeltaRat.ofRat, hi]
  | disequality => exact absurd rfl hk

/-- Every statement holds at some rational. -/
theorem Representable.exists_holds {s : Statement} (h : s.Representable) :
    ∃ q : ℚ, s.Holds (.ofRat q) := by
  by_cases hk : s.kind = .disequality
  · refine ⟨s.value.standard + 1, ?_⟩
    obtain ⟨v, k, ⟨c, i⟩⟩ := s
    simp only at hk
    subst hk
    intro heq
    have := congrArg DeltaRat.standard heq
    simp at this
  · exact ⟨_, holds_substitute_one h hk⟩

/-- No line of rationals lies within the rationals at which a statement holds. -/
theorem Representable.exists_not_holds {s : Statement} (hs : s.Representable) (a : ℚ) {b : ℚ}
    (hb : b ≠ 0) : ∃ t : ℚ, ¬ s.Holds (.ofRat (a + t * b)) := by
  obtain ⟨n, hn, hrep⟩ := hs.exists_negation
  obtain ⟨q, hq⟩ := hrep.exists_holds
  refine ⟨(q - a) / b, ?_⟩
  rw [div_mul_cancel₀ _ hb, add_sub_cancel]
  exact (holds_negation? hn q).mp hq

/-- A disequality excludes a rational. -/
theorem Representable.eq_disequality {s : Statement} (hs : s.Representable)
    (hk : s.kind = .disequality) : s = ⟨s.var, .disequality, .ofRat s.value.standard⟩ := by
  obtain ⟨v, k, ⟨c, i⟩⟩ := s
  obtain rfl : k = .disequality := hk
  obtain rfl : i = 0 := hs
  rfl

end LinearArithmetic.Statement
