/-!
# Rationals with an infinitesimal part

`⟨c, k⟩` stands for `c + k·δ`, where `δ` is a positive infinitesimal. A strict bound becomes a
non-strict one this way: `x < 5` is `x ≤ 5 - δ`, and `x > 5` is `x ≥ 5 + δ`. The order compares
standard parts first, so `δ` is smaller than every positive rational. In text, rationals stand in
lowest terms.
-/

namespace LinearArithmetic

/-- The numerator, followed by a slash and the denominator unless the denominator is one. -/
def rationalText (q : Rat) : String :=
  if q.den = 1 then toString q.num else toString q.num ++ "/" ++ toString q.den

/-- The number `standard + infinitesimal·δ`. -/
structure DeltaRat where
  standard : Rat
  infinitesimal : Rat
  deriving DecidableEq, Inhabited

namespace DeltaRat

/-- A rational as a number without infinitesimal part. -/
def ofRat (q : Rat) : DeltaRat := ⟨q, 0⟩

instance : Zero DeltaRat := ⟨⟨0, 0⟩⟩

instance : Add DeltaRat :=
  ⟨fun a b => ⟨a.standard + b.standard, a.infinitesimal + b.infinitesimal⟩⟩

instance : Sub DeltaRat :=
  ⟨fun a b => ⟨a.standard - b.standard, a.infinitesimal - b.infinitesimal⟩⟩

instance : Neg DeltaRat := ⟨fun a => ⟨-a.standard, -a.infinitesimal⟩⟩

/-- The product with a rational. Two numbers with infinitesimal parts have no product here,
since `δ·δ` is not of this form. -/
def scale (q : Rat) (a : DeltaRat) : DeltaRat := ⟨a.standard * q, a.infinitesimal * q⟩

/-- Standard parts are compared first; infinitesimal parts break ties. -/
instance : LT DeltaRat :=
  ⟨fun a b => a.standard < b.standard ∨
    (a.standard = b.standard ∧ a.infinitesimal < b.infinitesimal)⟩

/-- Standard parts are compared first; infinitesimal parts break ties. -/
instance : LE DeltaRat :=
  ⟨fun a b => a.standard < b.standard ∨
    (a.standard = b.standard ∧ a.infinitesimal ≤ b.infinitesimal)⟩

instance : DecidableLT DeltaRat := fun a b =>
  inferInstanceAs (Decidable (a.standard < b.standard ∨
    (a.standard = b.standard ∧ a.infinitesimal < b.infinitesimal)))

instance : DecidableLE DeltaRat := fun a b =>
  inferInstanceAs (Decidable (a.standard < b.standard ∨
    (a.standard = b.standard ∧ a.infinitesimal ≤ b.infinitesimal)))

theorem lt_def {a b : DeltaRat} : a < b ↔ a.standard < b.standard ∨
    (a.standard = b.standard ∧ a.infinitesimal < b.infinitesimal) := Iff.rfl

theorem le_def {a b : DeltaRat} : a ≤ b ↔ a.standard < b.standard ∨
    (a.standard = b.standard ∧ a.infinitesimal ≤ b.infinitesimal) := Iff.rfl

theorem eq_of_parts {a b : DeltaRat} (hs : a.standard = b.standard)
    (hi : a.infinitesimal = b.infinitesimal) : a = b := by
  cases a; cases b; simp_all

instance : Std.IsLinearOrder DeltaRat where
  le_refl a := .inr ⟨rfl, by grind⟩
  le_trans a b c h k := by grind [le_def]
  le_antisymm a b h k := by
    apply eq_of_parts <;> grind [le_def]
  le_total a b := by grind [le_def]

instance : Std.LawfulOrderLT DeltaRat where
  lt_iff a b := by grind [le_def, lt_def]

/-- The value at a concrete `δ`. -/
def substitute (d : Rat) (a : DeltaRat) : Rat := a.standard + d * a.infinitesimal

/-- The standard part alone if there is no infinitesimal part; otherwise both, the
infinitesimal part with its sign and marked `δ`. -/
def text (a : DeltaRat) : String :=
  if a.infinitesimal = 0 then rationalText a.standard
  else if 0 < a.infinitesimal then
    rationalText a.standard ++ "+" ++ rationalText a.infinitesimal ++ "δ"
  else rationalText a.standard ++ "-" ++ rationalText (-a.infinitesimal) ++ "δ"

end DeltaRat

end LinearArithmetic
