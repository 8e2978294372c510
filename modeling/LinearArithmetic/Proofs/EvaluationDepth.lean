import LinearArithmetic.Proofs.Coefficients
import LinearArithmetic.Proofs.Evaluation

/-!
# The depth of an evaluation

An evaluation never comes to the limit on its depth: with one more level the outcome is the same,
also where it is a refusal. So the values of terms satisfy the equations of an evaluation without a
limit.
-/

namespace LinearArithmetic

section Members

variable {α : Type} {l : List α}

theorem allM_congr_left {f g : α → Except Refusal Bool} (h : ∀ a ∈ l, f a = g a) :
    l.allM f = l.allM g := by
  induction l with
  | nil => rfl
  | cons a rest ih =>
    rw [List.allM_cons, List.allM_cons, h a List.mem_cons_self,
      ih fun a ha => h a (List.mem_cons_of_mem _ ha)]

theorem anyM_congr_left {f g : α → Except Refusal Bool} (h : ∀ a ∈ l, f a = g a) :
    l.anyM f = l.anyM g := by
  induction l with
  | nil => rfl
  | cons a rest ih =>
    rw [List.anyM_cons, List.anyM_cons, h a List.mem_cons_self,
      ih fun a ha => h a (List.mem_cons_of_mem _ ha)]

end Members

namespace Term

theorem size_le_sizeAll {t : Term} {ts : List Term} (h : t ∈ ts) : t.size ≤ sizeAll ts := by
  induction ts with
  | nil => exact absurd h List.not_mem_nil
  | cons u ts ih =>
    simp only [sizeAll]
    rcases List.mem_cons.mp h with rfl | h
    · omega
    · have := ih h
      omega

variable (owned : Term → Option ℚ)

/-- One more level changes nothing for a term that is small enough for the limit. A leaf needs one
level less than its size says, since the step from a term to a leaf of it is one of the two that do
not make it smaller. -/
structure Settles (n : Nat) : Prop where
  rational : ∀ t, 2 * t.size ≤ n → rationalWithin owned (n + 1) t = rationalWithin owned n t
  leaf : ∀ t, 2 * t.size ≤ n + 1 → leafWithin owned (n + 1) t = leafWithin owned n t
  truth : ∀ t, 2 * t.size ≤ n → truthWithin owned (n + 1) t = truthWithin owned n t

variable {owned}

section Step

variable {n : Nat} (h : Settles owned n)

include h

theorem Settles.foldlM_leaves {t : Term} (ht : 2 * t.size ≤ n + 1) :
    (t.linearSum >>= fun s : LinearSum => s.leaves.foldlM
      (fun x e => do return x + e.2 * (← leafWithin owned (n + 1) e.1)) s.constant) =
    t.linearSum >>= fun s : LinearSum => s.leaves.foldlM
      (fun x e => do return x + e.2 * (← leafWithin owned n e.1)) s.constant := by
  cases hs : t.linearSum with
  | error why => rfl
  | ok s =>
    refine foldlM_congr_left (fun e he x => ?_) s.constant
    have := ((linearSum_entries hs).2 e he).size_le
    rw [h.leaf e.1 (by omega)]

theorem Settles.rational_succ {t : Term} (ht : 2 * t.size ≤ n + 1) :
    rationalWithin owned (n + 2) t = rationalWithin owned (n + 1) t := by
  cases ho : owned t with
  | some q => rw [rationalWithin_owned ho, rationalWithin_owned ho]
  | none =>
    cases t with
    | sum ts | prod ts =>
      rw [rationalWithin, rationalWithin, ho]
      exact h.foldlM_leaves ht
    | ite c a b =>
      rw [rationalWithin, rationalWithin, ho]
      exact h.leaf _ ht
    | _ => simp only [rationalWithin, ho]

theorem Settles.leaf_succ {t : Term} (ht : 2 * t.size ≤ n + 2) :
    leafWithin owned (n + 2) t = leafWithin owned (n + 1) t := by
  cases ho : owned t with
  | some q => rw [leafWithin_owned ho, leafWithin_owned ho]
  | none =>
    cases t with
    | prod ts =>
      simp only [leafWithin, ho]
      simp only [size] at ht
      refine foldlM_congr_left (fun u hu x => ?_) 1
      have := size_le_sizeAll hu
      rw [h.rational u (by omega)]
    | ite c a b =>
      simp only [size] at ht
      simp only [leafWithin, ho]
      rw [h.truth c (by omega), h.rational a (by omega), h.rational b (by omega)]
    | _ => simp only [leafWithin, ho]

theorem Settles.truth_succ {t : Term} (ht : 2 * t.size ≤ n + 1) :
    truthWithin owned (n + 2) t = truthWithin owned (n + 1) t := by
  cases t with
  | neg u =>
    simp only [size] at ht
    rw [truthWithin, truthWithin, h.truth u (by omega)]
  | conj ts =>
    simp only [size] at ht
    simp only [truthWithin]
    refine allM_congr_left fun u hu => ?_
    have := size_le_sizeAll hu
    exact h.truth u (by omega)
  | disj ts =>
    simp only [size] at ht
    simp only [truthWithin]
    refine anyM_congr_left fun u hu => ?_
    have := size_le_sizeAll hu
    exact h.truth u (by omega)
  | implies a b =>
    simp only [size] at ht
    rw [truthWithin, truthWithin, h.truth a (by omega), h.truth b (by omega)]
  | ite c a b =>
    simp only [size] at ht
    rw [truthWithin, truthWithin, h.truth c (by omega), h.truth a (by omega),
      h.truth b (by omega)]
  | rel r a b =>
    simp only [size] at ht
    rw [truthWithin, truthWithin, h.rational a (by omega), h.rational b (by omega)]
  | _ => simp only [truthWithin]

end Step

theorem settles (n : Nat) : Settles owned n := by
  induction n with
  | zero =>
    refine ⟨fun t ht => ?_, fun t ht => ?_, fun t ht => ?_⟩ <;>
      exact absurd t.size_pos (by omega)
  | succ n ih => exact ⟨fun _ => ih.rational_succ, fun _ => ih.leaf_succ, fun _ => ih.truth_succ⟩

variable (owned) in
/-- The value of a leaf of a linear sum. -/
def leafValue (t : Term) : Except Refusal ℚ := leafWithin owned (2 * t.size) t

theorem rationalWithin_eq {n : Nat} {t : Term} (h : 2 * t.size ≤ n) :
    rationalWithin owned n t = t.rationalValue owned := by
  induction n, h using Nat.le_induction with
  | base => rfl
  | succ n hn ih => rw [(settles n).rational t hn, ih]

theorem truthWithin_eq {n : Nat} {t : Term} (h : 2 * t.size ≤ n) :
    truthWithin owned n t = t.truthValue owned := by
  induction n, h using Nat.le_induction with
  | base => rfl
  | succ n hn ih => rw [(settles n).truth t hn, ih]

theorem leafWithin_eq {n : Nat} {t : Term} (h : 2 * t.size ≤ n + 1) :
    leafWithin owned n t = t.leafValue owned := by
  by_cases hn : 2 * t.size ≤ n
  · induction n, hn using Nat.le_induction with
    | base => rfl
    | succ n hn ih => rw [(settles n).leaf t (by omega), ih (by omega)]
  -- the depth is one level short of what the size says
  · rw [leafValue, show 2 * t.size = n + 1 by omega, (settles n).leaf t h]

/-! ## The equations -/

/-- The value of a sum or a product that has none of its own is that of its linear sum. -/
theorem rationalValue_linear {t : Term} (ho : owned t = none)
    (ht : (∃ ts, t = sum ts) ∨ ∃ ts, t = prod ts) : t.rationalValue owned = (do
      let s ← t.linearSum
      s.leaves.foldlM (fun x e => return x + e.2 * (← leafValue owned e.1)) s.constant) := by
  obtain ⟨n, hn⟩ := t.exists_depth
  have hvalue : t.rationalValue owned = t.linearSum >>= fun s : LinearSum => s.leaves.foldlM
      (fun x e => do return x + e.2 * (← leafWithin owned n e.1)) s.constant := by
    rw [rationalValue, hn]
    rcases ht with ⟨ts, rfl⟩ | ⟨ts, rfl⟩ <;> simp only [rationalWithin, ho]
  rw [hvalue]
  cases hs : t.linearSum with
  | error why => rfl
  | ok s =>
    refine foldlM_congr_left (fun e he x => ?_) s.constant
    have := ((linearSum_entries hs).2 e he).size_le
    rw [leafWithin_eq (by omega)]

theorem rationalValue_ite {c a b : Term} (ho : owned (ite c a b) = none) :
    (ite c a b).rationalValue owned = (ite c a b).leafValue owned := by
  obtain ⟨n, hn⟩ := (ite c a b).exists_depth
  rw [rationalValue, hn, rationalWithin, ho]
  exact leafWithin_eq (by omega)

theorem leafValue_owned {t : Term} {q : ℚ} (ho : owned t = some q) :
    t.leafValue owned = .ok q := by
  obtain ⟨n, hn⟩ := t.exists_depth
  rw [leafValue, hn, leafWithin_owned ho]

theorem truthValue_rel {r : Relation} {a b : Term} : (rel r a b).truthValue owned = (do
    return r.holds (← a.rationalValue owned) (← b.rationalValue owned)) := by
  have hsize : (rel r a b).size = 1 + a.size + b.size := by rw [size]
  obtain ⟨n, hn⟩ := (rel r a b).exists_depth
  rw [truthValue, hn]
  simp only [truthWithin]
  rw [rationalWithin_eq (by omega), rationalWithin_eq (by omega)]

theorem truthValue_neg {t : Term} : (neg t).truthValue owned = (do
    return !(← t.truthValue owned)) := by
  have hsize : (neg t).size = 1 + t.size := by rw [size]
  obtain ⟨n, hn⟩ := (neg t).exists_depth
  rw [truthValue, hn]
  simp only [truthWithin]
  rw [truthWithin_eq (by omega)]

end Term

end LinearArithmetic
