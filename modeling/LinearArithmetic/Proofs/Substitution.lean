import LinearArithmetic.Division
import LinearArithmetic.Proofs.DeltaRat
import Mathlib.Data.Rat.Floor
import Mathlib.Order.Bounds.Defs

/-!
# Small numbers for the infinitesimal

Rounding a number `c + k·δ` finds the integers next to it in the order of these numbers. With a
small enough positive rational for `δ`, finitely many numbers become rationals that compare, add
up and round as the numbers do. How small it has to be depends on the numbers: the infinitesimal
part of one can be as large as it likes.
-/

namespace LinearArithmetic.DeltaRat

/-! ## Arithmetic -/

theorem substitute_add (d : ℚ) (a b : DeltaRat) :
    (a + b).substitute d = a.substitute d + b.substitute d :=
  (substituteHom d).map_add a b

theorem substitute_sub (d : ℚ) (a b : DeltaRat) :
    (a - b).substitute d = a.substitute d - b.substitute d :=
  (substituteHom d).map_sub a b

theorem substitute_neg (d : ℚ) (a : DeltaRat) : (-a).substitute d = -a.substitute d :=
  (substituteHom d).map_neg a

theorem substitute_scale (d q : ℚ) (a : DeltaRat) :
    (a.scale q).substitute d = a.substitute d * q := by
  simp only [substitute, scale]
  ring

theorem substitute_divide (d : ℚ) {q : ℚ} (hq : q ≠ 0) (a : DeltaRat) :
    ∃ c, a.divide q = .ok c ∧ c.substitute d = a.substitute d / q := by
  refine ⟨⟨a.standard / q, a.infinitesimal / q⟩, ?_, ?_⟩
  · unfold divide
    rw [if_neg hq]
  · simp only [substitute]
    ring

@[simp] theorem substitute_ofRat (d q : ℚ) : (ofRat q).substitute d = q := by
  simp [substitute]

/-! ## Rounding -/

/-- An integer lies below a number exactly if it lies below the floor. The case of an integral
standard part is the one in which the sign of the infinitesimal part counts. -/
theorem ofRat_le_iff_le_floor {n : ℤ} {a : DeltaRat} : ofRat n ≤ a ↔ n ≤ a.floor := by
  rw [ofRat_le_iff]
  by_cases hint : a.standard.den = 1
  · obtain ⟨m, hm⟩ : ∃ m : ℤ, a.standard = m :=
      ⟨a.standard.num, ((Rat.den_eq_one_iff _).mp hint).symm⟩
    have hfloor : a.standard.floor = m := by rw [hm, Rat.floor_intCast]
    unfold floor
    rw [hfloor, hm]
    simp only [Int.cast_lt, Int.cast_inj]
    by_cases hneg : a.infinitesimal < 0
    · have hnonneg : ¬ 0 ≤ a.infinitesimal := not_le.mpr hneg
      simp only [Rat.den_intCast, hneg, hnonneg, and_self, and_false, or_false, if_true]
      omega
    · have hnonneg : 0 ≤ a.infinitesimal := not_lt.mp hneg
      simp only [hneg, hnonneg, and_false, and_true, if_false]
      omega
  · have hne : (n : ℚ) ≠ a.standard := by
      intro heq
      apply hint
      rw [← heq]
      exact Rat.den_intCast n
    have hfloor : a.floor = a.standard.floor := if_neg fun h => hint h.1
    rw [hfloor, Rat.le_floor_iff]
    constructor
    · rintro (hlt | ⟨heq, -⟩)
      · exact hlt.le
      · exact absurd heq hne
    · intro hle
      exact .inl (lt_of_le_of_ne hle hne)

theorem ofRat_neg (q : ℚ) : ofRat (-q) = -ofRat q := ofRatHom.map_neg q

theorem ceiling_eq_neg_floor_neg (a : DeltaRat) : a.ceiling = -(-a).floor := by
  unfold ceiling floor
  rw [Rat.ceil_eq_neg_floor_neg]
  simp only [standard_neg, infinitesimal_neg, Rat.den_neg_eq_den, neg_lt_zero]
  split
  · omega
  · rfl

theorem le_ofRat_iff_ceiling_le {n : ℤ} {a : DeltaRat} : a ≤ ofRat n ↔ a.ceiling ≤ n := by
  rw [ceiling_eq_neg_floor_neg, neg_le, ← ofRat_le_iff_le_floor, Int.cast_neg, ofRat_neg,
    neg_le_neg_iff]

theorem ofRat_floor_le (a : DeltaRat) : ofRat a.floor ≤ a :=
  ofRat_le_iff_le_floor.mpr (le_refl _)

theorem lt_ofRat_floor_add_one (a : DeltaRat) : a < ofRat (a.floor + 1 : ℤ) := by
  rw [← not_le, ofRat_le_iff_le_floor]
  omega

theorem isGreatest_floor (a : DeltaRat) : IsGreatest {n : ℤ | ofRat n ≤ a} a.floor :=
  ⟨ofRat_floor_le a, fun _ hn => ofRat_le_iff_le_floor.mp hn⟩

theorem isLeast_ceiling (a : DeltaRat) : IsLeast {n : ℤ | a ≤ ofRat n} a.ceiling :=
  ⟨le_ofRat_iff_ceiling_le.mpr (le_refl _), fun _ hn => le_ofRat_iff_ceiling_le.mp hn⟩

/-! ## Properties of all small numbers -/

/-- The property holds for all positive rationals up to one of them. -/
def ForSmall (P : ℚ → Prop) : Prop := ∃ d₀, 0 < d₀ ∧ ∀ d, 0 < d → d ≤ d₀ → P d

namespace ForSmall

variable {P Q : ℚ → Prop}

theorem of_forall (h : ∀ d, P d) : ForSmall P := ⟨1, one_pos, fun d _ _ => h d⟩

theorem imp (hPQ : ∀ d, P d → Q d) (h : ForSmall P) : ForSmall Q := by
  obtain ⟨d₀, hpos, hd₀⟩ := h
  exact ⟨d₀, hpos, fun d hd hle => hPQ d (hd₀ d hd hle)⟩

theorem and (hP : ForSmall P) (hQ : ForSmall Q) : ForSmall fun d => P d ∧ Q d := by
  obtain ⟨p, hp, hP⟩ := hP
  obtain ⟨q, hq, hQ⟩ := hQ
  refine ⟨min p q, lt_min hp hq, ?_⟩
  intro d hd hle
  exact ⟨hP d hd (hle.trans (min_le_left p q)), hQ d hd (hle.trans (min_le_right p q))⟩

/-- One number does for all members of a list. -/
theorem forall_mem {α : Type} {P : α → ℚ → Prop} {l : List α} (h : ∀ x ∈ l, ForSmall (P x)) :
    ForSmall fun d => ∀ x ∈ l, P x d := by
  induction l with
  | nil =>
    apply of_forall
    intro d x hx
    cases hx
  | cons y l ih =>
    have hrest := ih fun x hx => h x (List.mem_cons_of_mem y hx)
    refine ((h y List.mem_cons_self).and hrest).imp ?_
    intro d hd x hx
    rcases List.mem_cons.mp hx with rfl | hx
    · exact hd.1
    · exact hd.2 x hx

end ForSmall

/-- The gap between two standard parts outweighs what the infinitesimal parts add to it, for all
small enough numbers. -/
theorem forSmall_substitute_lt {a b : DeltaRat} (h : a < b) :
    ForSmall fun d => a.substitute d < b.substitute d := by
  rcases lt_def.mp h with hstandard | ⟨heq, hinf⟩
  · have hgap : 0 < b.standard - a.standard := sub_pos.mpr hstandard
    let lead := a.infinitesimal - b.infinitesimal
    have hden : 0 < |lead| + 1 := by positivity
    refine ⟨(b.standard - a.standard) / (|lead| + 1), div_pos hgap hden, ?_⟩
    intro d hd hle
    have hlead : d * lead < b.standard - a.standard := by
      calc d * lead ≤ d * |lead| := mul_le_mul_of_nonneg_left (le_abs_self lead) hd.le
        _ < d * (|lead| + 1) := mul_lt_mul_of_pos_left (lt_add_one _) hd
        _ ≤ b.standard - a.standard := (le_div_iff₀ hden).mp hle
    have hsplit : d * lead = d * a.infinitesimal - d * b.infinitesimal := mul_sub _ _ _
    unfold substitute
    linarith
  · refine ⟨1, one_pos, ?_⟩
    intro d hd _
    have hmul := mul_lt_mul_of_pos_left hinf hd
    unfold substitute
    rw [heq]
    linarith

theorem forSmall_substitute_le {a b : DeltaRat} (h : a ≤ b) :
    ForSmall fun d => a.substitute d ≤ b.substitute d := by
  rcases h.lt_or_eq with hlt | rfl
  · exact (forSmall_substitute_lt hlt).imp fun _ => le_of_lt
  · exact ForSmall.of_forall fun d => le_refl _

/-- The floor is kept once the integers on both sides of a number are. -/
theorem forSmall_substitute_floor (a : DeltaRat) :
    ForSmall fun d => (a.substitute d).floor = a.floor := by
  have hbelow := forSmall_substitute_le (ofRat_floor_le a)
  have habove := forSmall_substitute_lt (lt_ofRat_floor_add_one a)
  refine (hbelow.and habove).imp ?_
  intro d hd
  simp only [substitute_ofRat, Int.cast_add, Int.cast_one] at hd
  exact Int.floor_eq_iff.mpr hd

theorem forSmall_substitute_ceiling (a : DeltaRat) :
    ForSmall fun d => (a.substitute d).ceil = a.ceiling := by
  refine (forSmall_substitute_floor (-a)).imp ?_
  intro d hd
  rw [Rat.ceil_eq_neg_floor_neg, ceiling_eq_neg_floor_neg, ← hd, substitute_neg]

/-! ## Finitely many numbers -/

/-- With `d` for `δ`, all calculations give the rationals that they should, and the numbers of a
list compare and round as the rationals that they become. -/
structure Represents (d : ℚ) (l : List DeltaRat) : Prop where
  lt_iff : ∀ a ∈ l, ∀ b ∈ l, a.substitute d < b.substitute d ↔ a < b
  le_iff : ∀ a ∈ l, ∀ b ∈ l, a.substitute d ≤ b.substitute d ↔ a ≤ b
  eq_iff : ∀ a ∈ l, ∀ b ∈ l, a.substitute d = b.substitute d ↔ a = b
  add : ∀ a b : DeltaRat, (a + b).substitute d = a.substitute d + b.substitute d
  sub : ∀ a b : DeltaRat, (a - b).substitute d = a.substitute d - b.substitute d
  neg : ∀ a : DeltaRat, (-a).substitute d = -a.substitute d
  scale : ∀ (q : ℚ) (a : DeltaRat), (a.scale q).substitute d = a.substitute d * q
  divide : ∀ q : ℚ, q ≠ 0 → ∀ a : DeltaRat,
    ∃ c, a.divide q = .ok c ∧ c.substitute d = a.substitute d / q
  floor : ∀ a ∈ l, (a.substitute d).floor = a.floor
  ceiling : ∀ a ∈ l, (a.substitute d).ceil = a.ceiling

/-- Keeping `<` among the members of a list is enough, since the order is total. -/
theorem Represents.of_lt {d : ℚ} {l : List DeltaRat}
    (hlt : ∀ a ∈ l, ∀ b ∈ l, a < b → a.substitute d < b.substitute d)
    (hfloor : ∀ a ∈ l, (a.substitute d).floor = a.floor)
    (hceiling : ∀ a ∈ l, (a.substitute d).ceil = a.ceiling) : Represents d l := by
  have hmono : StrictMonoOn (DeltaRat.substitute d) {a | a ∈ l} := fun a ha b hb => hlt a ha b hb
  exact
    { lt_iff := fun a ha b hb => hmono.lt_iff_lt ha hb
      le_iff := fun a ha b hb => hmono.le_iff_le ha hb
      eq_iff := fun a ha b hb => hmono.injOn.eq_iff ha hb
      add := substitute_add d
      sub := substitute_sub d
      neg := substitute_neg d
      scale := substitute_scale d
      divide := fun q hq => substitute_divide d hq
      floor := hfloor
      ceiling := hceiling }

/-- For any finitely many numbers, there is a positive rational such that with it, as with every
smaller positive one, they are represented faithfully. Rounding gives the integers next to a number
in the order of these numbers. -/
theorem represents_small_substitutions :
    (∀ l : List DeltaRat, ∃ d₀ : ℚ, 0 < d₀ ∧ ∀ d, 0 < d → d ≤ d₀ → Represents d l) ∧
    ∀ a : DeltaRat, IsGreatest {n : ℤ | ofRat n ≤ a} a.floor ∧
      IsLeast {n : ℤ | a ≤ ofRat n} a.ceiling := by
  refine ⟨?_, fun a => ⟨isGreatest_floor a, isLeast_ceiling a⟩⟩
  intro l
  have horder : ForSmall fun d =>
      ∀ a ∈ l, ∀ b ∈ l, a < b → a.substitute d < b.substitute d := by
    apply ForSmall.forall_mem
    intro a _
    apply ForSmall.forall_mem
    intro b _
    by_cases hab : a < b
    · exact (forSmall_substitute_lt hab).imp fun _ hd _ => hd
    · exact ForSmall.of_forall fun _ h => absurd h hab
  have hfloor := ForSmall.forall_mem fun a (_ : a ∈ l) => forSmall_substitute_floor a
  have hceiling := ForSmall.forall_mem fun a (_ : a ∈ l) => forSmall_substitute_ceiling a
  exact (horder.and (hfloor.and hceiling)).imp fun d hd =>
    Represents.of_lt hd.1 hd.2.1 hd.2.2

/-- No rational does for all numbers: the smaller it is, the larger the infinitesimal part that
makes a number pass an integer. -/
theorem not_represents_all {d : ℚ} (hd : 0 < d) : ∃ l, ¬ Represents d l := by
  refine ⟨[⟨0, 2 / d⟩, ofRat 1], ?_⟩
  intro h
  have hlt : (⟨0, 2 / d⟩ : DeltaRat) < ofRat 1 := .inl one_pos
  have hbelow := (h.lt_iff _ List.mem_cons_self _ (by simp)).mpr hlt
  rw [substitute_ofRat] at hbelow
  simp only [substitute, zero_add, mul_div_cancel₀ _ hd.ne'] at hbelow
  linarith

end LinearArithmetic.DeltaRat
