import LinearArithmetic.DeltaRat.Basic
import Mathlib.Algebra.Module.Rat
import Mathlib.Algebra.Order.Module.Defs
import Mathlib.Algebra.Order.Ring.Rat
import Mathlib.Algebra.Field.Rat
import Mathlib.Algebra.Module.LinearMap.Defs
import Mathlib.Tactic.Linarith
import Mathlib.Tactic.Ring
import Mathlib.Tactic.FieldSimp

/-!
# The ordered space of numbers with an infinitesimal part

Numbers `c + k·δ` form a linearly ordered vector space over the rationals. Substituting a rational
for `δ` is linear, and for a small enough positive rational it keeps the order of finitely many
numbers.
-/

namespace LinearArithmetic.DeltaRat

@[ext] theorem ext {a b : DeltaRat} (hs : a.standard = b.standard)
    (hi : a.infinitesimal = b.infinitesimal) : a = b := eq_of_parts hs hi

@[simp] theorem standard_zero : (0 : DeltaRat).standard = 0 := rfl

@[simp] theorem infinitesimal_zero : (0 : DeltaRat).infinitesimal = 0 := rfl

@[simp] theorem standard_add (a b : DeltaRat) : (a + b).standard = a.standard + b.standard := rfl

@[simp] theorem infinitesimal_add (a b : DeltaRat) :
    (a + b).infinitesimal = a.infinitesimal + b.infinitesimal := rfl

@[simp] theorem standard_sub (a b : DeltaRat) : (a - b).standard = a.standard - b.standard := rfl

@[simp] theorem infinitesimal_sub (a b : DeltaRat) :
    (a - b).infinitesimal = a.infinitesimal - b.infinitesimal := rfl

@[simp] theorem standard_neg (a : DeltaRat) : (-a).standard = -a.standard := rfl

@[simp] theorem infinitesimal_neg (a : DeltaRat) : (-a).infinitesimal = -a.infinitesimal := rfl

instance : SMul ℚ DeltaRat := ⟨scale⟩

theorem scale_eq_smul (q : ℚ) (a : DeltaRat) : a.scale q = q • a := rfl

@[simp] theorem standard_smul (q : ℚ) (a : DeltaRat) : (q • a).standard = q * a.standard :=
  Rat.mul_comm _ _

@[simp] theorem infinitesimal_smul (q : ℚ) (a : DeltaRat) :
    (q • a).infinitesimal = q * a.infinitesimal := Rat.mul_comm _ _

instance : AddCommGroup DeltaRat where
  add_assoc a b c := by ext <;> simp [add_assoc]
  zero_add a := by ext <;> simp
  add_zero a := by ext <;> simp
  add_comm a b := by ext <;> simp [add_comm]
  neg_add_cancel a := by ext <;> simp
  sub_eq_add_neg a b := by ext <;> simp [sub_eq_add_neg]
  nsmul := nsmulRec
  zsmul := zsmulRec

instance : Module ℚ DeltaRat where
  one_smul a := by ext <;> simp
  mul_smul p q a := by ext <;> simp [mul_assoc]
  smul_zero q := by ext <;> simp
  smul_add q a b := by ext <;> simp [mul_add]
  add_smul p q a := by ext <;> simp [add_mul]
  zero_smul a := by ext <;> simp

theorem le_self (a : DeltaRat) : a ≤ a := Std.le_refl a

theorem le_of_le_of_le (a b c : DeltaRat) : a ≤ b → b ≤ c → a ≤ c := Std.le_trans

theorem lt_iff_not_ge (a b : DeltaRat) : a < b ↔ a ≤ b ∧ ¬ b ≤ a := Std.lt_iff_le_and_not_ge

theorem eq_of_le_of_ge (a b : DeltaRat) : a ≤ b → b ≤ a → a = b := Std.le_antisymm

theorem le_or_ge (a b : DeltaRat) : a ≤ b ∨ b ≤ a := Std.le_total

instance : LinearOrder DeltaRat where
  le_refl := le_self
  le_trans := le_of_le_of_le
  lt_iff_le_not_ge := lt_iff_not_ge
  le_antisymm := eq_of_le_of_ge
  le_total := le_or_ge
  toDecidableLE := inferInstance

instance : IsOrderedAddMonoid DeltaRat where
  add_le_add_left a b h c := by
    rcases h with h | ⟨h, k⟩
    · exact .inl (by simpa using h)
    · exact .inr ⟨by simpa using h, by simpa using k⟩

instance : PosSMulStrictMono ℚ DeltaRat where
  smul_lt_smul_of_pos_left q hq a b h := by
    rcases h with h | ⟨h, k⟩
    · exact .inl (by simpa using mul_lt_mul_of_pos_left h hq)
    · exact .inr ⟨by simp [h], by simpa using mul_lt_mul_of_pos_left k hq⟩

/-! ## Rationals among the numbers -/

@[simp] theorem standard_ofRat (q : ℚ) : (ofRat q).standard = q := rfl

@[simp] theorem infinitesimal_ofRat (q : ℚ) : (ofRat q).infinitesimal = 0 := rfl

/-- The embedding of the rationals. -/
def ofRatHom : ℚ →ₗ[ℚ] DeltaRat where
  toFun := ofRat
  map_add' p q := by ext <;> simp
  map_smul' p q := by ext <;> simp

@[simp] theorem ofRatHom_apply (q : ℚ) : ofRatHom q = ofRat q := rfl

/-- The substitution of a rational for the infinitesimal. -/
def substituteHom (d : ℚ) : DeltaRat →ₗ[ℚ] ℚ where
  toFun := substitute d
  map_add' a b := by simp only [substitute, standard_add, infinitesimal_add]; ring
  map_smul' q a := by simp [substitute]; ring

@[simp] theorem substituteHom_apply (d : ℚ) (a : DeltaRat) :
    substituteHom d a = a.substitute d := rfl

theorem le_ofRat_iff {a : DeltaRat} {q : ℚ} :
    a ≤ ofRat q ↔ a.standard < q ∨ a.standard = q ∧ a.infinitesimal ≤ 0 := Iff.rfl

theorem ofRat_le_iff {a : DeltaRat} {q : ℚ} :
    ofRat q ≤ a ↔ q < a.standard ∨ q = a.standard ∧ 0 ≤ a.infinitesimal := Iff.rfl

@[simp] theorem ofRat_inj {p q : ℚ} : ofRat p = ofRat q ↔ p = q := by
  rw [DeltaRat.ext_iff]
  exact and_iff_left rfl

@[simp] theorem ofRat_le_ofRat {p q : ℚ} : ofRat p ≤ ofRat q ↔ p ≤ q := by
  rw [le_ofRat_iff, le_iff_lt_or_eq (a := p)]
  exact or_congr_right (and_iff_left (le_refl (0 : ℚ)))

/-- A multiple by a negative number turns the order round. -/
theorem smul_le_smul_of_neg {q : ℚ} {a b : DeltaRat} (hq : q < 0) (h : a ≤ b) :
    q • b ≤ q • a := by
  have hneg : (-q) • a ≤ (-q) • b := smul_le_smul_of_nonneg_left h (by linarith)
  simpa using hneg

end LinearArithmetic.DeltaRat
