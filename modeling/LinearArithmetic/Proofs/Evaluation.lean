import LinearArithmetic.Evaluation
import LinearArithmetic.Proofs.LinearValue

/-!
# Evaluated terms

An evaluation gives some leaves values of their own and computes others from their parts. A result
does not change when an evaluation may go deeper, so all values of leaves together are one
assignment, and whatever term or literal has a result has the value that it has under this
assignment.
-/

namespace LinearArithmetic

/-- The second outcome is a result whenever the first one is, and then the same. -/
def Sustains {α : Type} (x y : Except Refusal α) : Prop := ∀ a, x = .ok a → y = .ok a

namespace Sustains

variable {α β : Type} {x y : Except Refusal α}

theorem refl (x : Except Refusal α) : Sustains x x := fun _ => id

theorem of_error (why : Refusal) (y : Except Refusal α) : Sustains (.error why) y := by
  rintro a ⟨⟩

theorem bind {f g : α → Except Refusal β} (h : Sustains x y) (hfg : ∀ a, Sustains (f a) (g a)) :
    Sustains (x >>= f) (y >>= g) := by
  intro b hb
  cases x with
  | error why => cases hb
  | ok a =>
    rw [h a rfl]
    exact hfg a b hb

theorem ite {c : Prop} [Decidable c] {z w : Except Refusal α} (h : Sustains x y)
    (k : Sustains z w) : Sustains (if c then x else z) (if c then y else w) := by
  split
  · exact h
  · exact k

theorem foldlM {f g : β → α → Except Refusal β} (h : ∀ b a, Sustains (f b a) (g b a)) (l : List α)
    (b : β) : Sustains (l.foldlM f b) (l.foldlM g b) := by
  induction l generalizing b with
  | nil => exact refl _
  | cons a rest ih => exact (h b a).bind ih

theorem allM {f g : α → Except Refusal Bool} (h : ∀ a, Sustains (f a) (g a)) (l : List α) :
    Sustains (l.allM f) (l.allM g) := by
  induction l with
  | nil => exact refl _
  | cons a rest ih =>
    refine (h a).bind fun b => ?_
    cases b
    · exact refl _
    · exact ih

theorem anyM {f g : α → Except Refusal Bool} (h : ∀ a, Sustains (f a) (g a)) (l : List α) :
    Sustains (l.anyM f) (l.anyM g) := by
  induction l with
  | nil => exact refl _
  | cons a rest ih =>
    refine (h a).bind fun b => ?_
    cases b
    · exact ih
    · exact refl _

end Sustains

namespace Term

theorem size_pos (t : Term) : 0 < t.size := by
  cases t <;> simp only [size] <;> omega

/-- An evaluation starts with at least one level. -/
theorem exists_depth (t : Term) : ∃ n, 2 * t.size = n + 1 :=
  ⟨2 * t.size - 1, by have := t.size_pos; omega⟩

variable (owned : Term → Option ℚ)

section Owned

variable {owned} {t : Term} {q : ℚ} (ht : owned t = some q)

include ht

/-- An owned term has its own value, however it is built. -/
theorem rationalWithin_owned (n : Nat) : rationalWithin owned (n + 1) t = .ok q := by
  cases t <;> simp only [rationalWithin, ht]

theorem leafWithin_owned (n : Nat) : leafWithin owned (n + 1) t = .ok q := by
  cases t <;> simp only [leafWithin, ht]

theorem rationalValue_owned : t.rationalValue owned = .ok q := by
  obtain ⟨n, hn⟩ := t.exists_depth
  rw [rationalValue, hn, rationalWithin_owned ht]

end Owned

/-- Evaluations that may go deeper have the same results. -/
structure Deeper (n m : Nat) : Prop where
  rational : ∀ t, Sustains (rationalWithin owned n t) (rationalWithin owned m t)
  leaf : ∀ t, Sustains (leafWithin owned n t) (leafWithin owned m t)
  truth : ∀ t, Sustains (truthWithin owned n t) (truthWithin owned m t)

section Step

variable {owned} {n m : Nat} (h : Deeper owned n m)

include h

theorem Deeper.rational_succ (t : Term) :
    Sustains (rationalWithin owned (n + 1) t) (rationalWithin owned (m + 1) t) := by
  cases ho : owned t with
  | some q =>
    rw [rationalWithin_owned ho, rationalWithin_owned ho]
    exact .refl _
  | none =>
    cases t with
    | sum ts | prod ts =>
      simp only [rationalWithin, ho]
      exact (Sustains.refl _).bind fun s : LinearSum => Sustains.foldlM
        (fun x e => (h.leaf e.1).bind fun _ => .refl _) s.leaves s.constant
    | ite c a b =>
      simp only [rationalWithin, ho]
      exact h.leaf _
    | _ =>
      simp only [rationalWithin, ho]
      exact .refl _

theorem Deeper.leaf_succ (t : Term) :
    Sustains (leafWithin owned (n + 1) t) (leafWithin owned (m + 1) t) := by
  cases ho : owned t with
  | some q =>
    rw [leafWithin_owned ho, leafWithin_owned ho]
    exact .refl _
  | none =>
    cases t with
    | prod ts =>
      simp only [leafWithin, ho]
      exact .foldlM (fun x u => (h.rational u).bind fun _ => .refl _) ts 1
    | ite c a b =>
      simp only [leafWithin, ho]
      exact (h.truth c).bind fun _ => .ite (h.rational a) (h.rational b)
    | _ =>
      simp only [leafWithin, ho]
      exact .refl _

theorem Deeper.truth_succ (t : Term) :
    Sustains (truthWithin owned (n + 1) t) (truthWithin owned (m + 1) t) := by
  cases t with
  | neg u =>
    simp only [truthWithin]
    exact (h.truth u).bind fun _ => .refl _
  | conj ts =>
    simp only [truthWithin]
    exact .allM h.truth ts
  | disj ts =>
    simp only [truthWithin]
    exact .anyM h.truth ts
  | implies a b =>
    simp only [truthWithin]
    exact (h.truth a).bind fun _ => .ite (h.truth b) (.refl _)
  | ite c a b =>
    simp only [truthWithin]
    exact (h.truth c).bind fun _ => .ite (h.truth a) (h.truth b)
  | rel r a b =>
    simp only [truthWithin]
    exact (h.rational a).bind fun _ => (h.rational b).bind fun _ => .refl _
  | _ =>
    simp only [truthWithin]
    exact .refl _

end Step

theorem deeper_succ (n : Nat) : Deeper owned n (n + 1) := by
  induction n with
  | zero =>
    refine ⟨fun t => ?_, fun t => ?_, fun t => ?_⟩
    · rw [rationalWithin]
      exact .of_error _ _
    · rw [leafWithin]
      exact .of_error _ _
    · rw [truthWithin]
      exact .of_error _ _
  | succ n ih => exact ⟨ih.rational_succ, ih.leaf_succ, ih.truth_succ⟩

theorem deeper_of_le {n m : Nat} (h : n ≤ m) : Deeper owned n m := by
  induction m, h using Nat.le_induction with
  | base => exact ⟨fun _ => .refl _, fun _ => .refl _, fun _ => .refl _⟩
  | succ m _ ih =>
    have hnext := deeper_succ owned m
    exact ⟨fun t q hq => hnext.rational t q (ih.rational t q hq),
      fun t q hq => hnext.leaf t q (ih.leaf t q hq),
      fun t b hb => hnext.truth t b (ih.truth t b hb)⟩

/-- The assignment gives every leaf that has a value this value. -/
def Reads (ρ : Term → ℚ) : Prop := ∀ n t q, leafWithin owned n t = .ok q → ρ t = q

theorem exists_reads : ∃ ρ : Term → ℚ, Reads owned ρ := by
  classical
  refine ⟨fun t => if h : ∃ q n, leafWithin owned n t = .ok q then h.choose else 0,
    fun n t q hq => ?_⟩
  have hex : ∃ q n, leafWithin owned n t = .ok q := ⟨q, n, hq⟩
  obtain ⟨m, hm⟩ := hex.choose_spec
  refine (dif_pos hex).trans ?_
  -- both values are found with the larger of the two depths
  have h₁ := (deeper_of_le owned (Nat.le_max_left m n)).leaf t _ hm
  have h₂ := (deeper_of_le owned (Nat.le_max_right m n)).leaf t _ hq
  exact Except.ok.inj (h₁.symm.trans h₂)

variable {owned} {ρ : Term → ℚ}

/-- Literals are evaluated as formulas. -/
theorem evaluate_literal {t : Term} (ht : t.isLiteral = true) :
    t.evaluate owned = ModelValue.truth <$> t.truthValue owned := by
  cases t with
  | rel r x y => rfl
  | neg u => rfl
  | _ => cases ht

section Leaves

variable {n : Nat} (hn : ∀ t q, leafWithin owned n t = .ok q → ρ t = q)

include hn

theorem sum_of_leafWithin {l : List (Term × ℚ)} {x q : ℚ}
    (hq : l.foldlM (fun x e => do return x + e.2 * (← leafWithin owned n e.1)) x = .ok q) :
    q = x + (l.map fun e => e.2 * ρ e.1).sum := by
  induction l generalizing x with
  | nil =>
    rw [List.map_nil, List.sum_nil, add_zero]
    exact (Except.ok.inj hq).symm
  | cons e rest ih =>
    rw [List.foldlM_cons, bind_assoc] at hq
    obtain ⟨y, hy, hq⟩ := bind_eq_ok.mp hq
    rw [ih hq, List.map_cons, List.sum_cons, hn e.1 y hy, add_assoc]

/-- A linear sum has the value that the values of the leaves give its term. -/
theorem linearValue_of_leafWithin {t : Term} {q : ℚ}
    (hq : (t.linearSum >>= fun s : LinearSum => s.leaves.foldlM
      (fun x e => do return x + e.2 * (← leafWithin owned n e.1)) s.constant) = .ok q) :
    t.linearValue ρ = q := by
  obtain ⟨s, hs, hq⟩ := bind_eq_ok.mp hq
  rw [sum_of_leafWithin hn hq, LinearSum.sum_leaves, ← (linearSum_eq_ok hs).2 ρ, LinearSum.eval]

end Leaves

variable (h : Reads owned ρ)

include h

theorem Reads.of_owned {t : Term} {q : ℚ} (ht : owned t = some q) : ρ t = q :=
  h 1 t q (leafWithin_owned ht 0)

/-- An arithmetic term has the value of its leaves. -/
theorem Reads.rational (hleaf : ∀ t q, owned t = some q → t.IsLeaf) {n : Nat} {t : Term} {q : ℚ}
    (hq : rationalWithin owned n t = .ok q) : t.linearValue ρ = q := by
  cases n with
  | zero =>
    rw [rationalWithin] at hq
    cases hq
  | succ n =>
    cases ho : owned t with
    | some x =>
      rw [(hleaf t x ho).linearValue_eq, h.of_owned ho]
      exact Except.ok.inj ((rationalWithin_owned ho n).symm.trans hq)
    | none =>
      cases t with
      | const x =>
        simp only [rationalWithin, ho, Except.ok.injEq] at hq
        rw [linearValue, hq]
      | sum ts | prod ts =>
        simp only [rationalWithin, ho] at hq
        exact linearValue_of_leafWithin (h n) hq
      | ite c a b =>
        simp only [rationalWithin, ho] at hq
        exact h n _ q hq
      | _ =>
        simp only [rationalWithin, ho] at hq
        cases hq

theorem Reads.comparison (hleaf : ∀ t q, owned t = some q → t.IsLeaf) {n : Nat} {r : Relation}
    {x y : Term} {b : Bool} (hb : truthWithin owned n (rel r x y) = .ok b) :
    b = true ↔ (rel r x y).Holds ρ := by
  cases n with
  | zero =>
    rw [truthWithin] at hb
    cases hb
  | succ n =>
    simp only [truthWithin] at hb
    obtain ⟨p, hx, hb⟩ := bind_eq_ok.mp hb
    obtain ⟨q, hy, hb⟩ := bind_eq_ok.mp hb
    rw [Holds, h.rational hleaf hx, h.rational hleaf hy]
    exact iff_of_eq (congrArg (· = true) (Except.ok.inj hb).symm)

/-- A literal is true or false as it is for its leaves. -/
theorem Reads.literal (hleaf : ∀ t q, owned t = some q → t.IsLeaf) {t : Term}
    (ht : t.isLiteral = true) {n : Nat} {b : Bool} (hb : truthWithin owned n t = .ok b) :
    b = true ↔ t.Holds ρ := by
  cases t with
  | rel r x y => exact h.comparison hleaf hb
  | neg u =>
    cases u with
    | rel r x y =>
      cases n with
      | zero =>
        rw [truthWithin] at hb
        cases hb
      | succ n =>
        simp only [truthWithin] at hb
        obtain ⟨c, hu, hb⟩ := bind_eq_ok.mp hb
        have hbc : (!c) = b := Except.ok.inj hb
        rw [← hbc, Holds, ← h.comparison hleaf hu, Bool.not_eq_true', Bool.not_eq_true]
    | _ => simp [isLiteral, atom, isRelational, relation?] at ht
  | _ => simp [isLiteral, atom, isRelational, relation?] at ht

/-- The value that a literal evaluates to. -/
theorem Reads.evaluate (hleaf : ∀ t q, owned t = some q → t.IsLeaf) {t : Term}
    (ht : t.isLiteral = true) {v : ModelValue} (hv : t.evaluate owned = .ok v) :
    ∃ b, v = .truth b ∧ (b = true ↔ t.Holds ρ) := by
  rw [evaluate_literal ht] at hv
  cases hb : t.truthValue owned with
  | error why =>
    rw [hb] at hv
    cases hv
  | ok b =>
    rw [hb] at hv
    exact ⟨b, (Except.ok.inj hv).symm, h.literal hleaf ht hb⟩

end Term

end LinearArithmetic
