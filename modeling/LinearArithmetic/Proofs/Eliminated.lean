import LinearArithmetic.Proofs.Row
import LinearArithmetic.Theory.Basic

/-!
# Values of eliminated variables

The rows of eliminated variables form a triangular system: a row mentions neither its own variable
nor one that was eliminated before. Values for the other variables extend to exactly one solution
of such a system, which `extendValues` computes.
-/

namespace LinearArithmetic.Theory

section Extension

variable {M : Type} [AddCommGroup M] [Module ℚ M]

/-- Every equation `variable = row` of a list holds. -/
def Solved (l : List (Var × Row)) (σ : Var → M) : Prop := ∀ e ∈ l, σ e.1 = e.2.eval σ

theorem solved_middle {v : Var} {r : Row} {newer older : List (Var × Row)} {σ : Var → M} :
    Solved (newer ++ (v, r) :: older) σ ↔ Solved (newer ++ older) σ ∧ σ v = r.eval σ := by
  unfold Solved
  rw [List.forall_mem_append, List.forall_mem_append, List.forall_mem_cons]
  exact and_left_comm.trans and_comm

/-- Every row mentions neither its own variable nor that of a later entry. -/
structure Triangular (l : List (Var × Row)) : Prop where
  later : l.Pairwise fun e f => e.1 ≠ f.1 ∧ e.2.contains f.1 = false
  self : ∀ e ∈ l, e.2.contains e.1 = false

theorem Triangular.sublist {l l' : List (Var × Row)} (h : Triangular l) (hl : l'.Sublist l) :
    Triangular l' :=
  ⟨h.later.sublist hl, fun e he => h.self e (hl.subset he)⟩

/-- The row of a new variable that mentions none of the others may come first. -/
theorem Triangular.cons {l : List (Var × Row)} (h : Triangular l) {v : Var} {r : Row}
    (hself : r.contains v = false) (hl : ∀ e ∈ l, v ≠ e.1 ∧ r.contains e.1 = false) :
    Triangular ((v, r) :: l) :=
  ⟨List.pairwise_cons.mpr ⟨hl, h.later⟩, List.forall_mem_cons.mpr ⟨hself, h.self⟩⟩

/-- The row of `v` stands between newer and older ones of a triangular list. -/
structure Between (v : Var) (r : Row) (newer older : List (Var × Row)) : Prop where
  self : r.contains v = false
  newer : ∀ e ∈ newer, e.1 ≠ v ∧ e.2.contains v = false
  older : ∀ e ∈ older, e.1 ≠ v ∧ r.contains e.1 = false

theorem Triangular.between {v : Var} {r : Row} {newer older : List (Var × Row)}
    (h : Triangular (newer ++ (v, r) :: older)) : Between v r newer older := by
  obtain ⟨-, htail, hcross⟩ := List.pairwise_append.mp h.later
  obtain ⟨hhead, -⟩ := List.pairwise_cons.mp htail
  exact ⟨h.self (v, r) (by simp), fun e he => hcross e he (v, r) List.mem_cons_self,
    fun e he => ⟨(hhead e he).1.symm, (hhead e he).2⟩⟩

theorem Between.not_mem {v : Var} {r : Row} {newer older : List (Var × Row)}
    (h : Between v r newer older) : v ∉ (newer ++ older).map Prod.fst := by
  intro hmem
  obtain ⟨e, he, heq⟩ := List.mem_map.mp hmem
  rcases List.mem_append.mp he with he | he
  · exact (h.newer e he).1 heq
  · exact (h.older e he).1 heq

/-- The row mentions neither its own variable nor that of an older one. -/
theorem Between.ne {v : Var} {r : Row} {newer older : List (Var × Row)}
    (h : Between v r newer older) {u : Var} (hu : r.contains u = true) : u ≠ v := by
  rintro rfl
  rw [h.self] at hu
  cases hu

theorem Between.not_mem_older {v : Var} {r : Row} {newer older : List (Var × Row)}
    (h : Between v r newer older) {u : Var} (hu : r.contains u = true) :
    u ∉ older.map Prod.fst := by
  intro hmem
  obtain ⟨e, he, rfl⟩ := List.mem_map.mp hmem
  rw [(h.older e he).2] at hu
  cases hu

theorem Between.mono {v : Var} {r : Row} {newer newer' older : List (Var × Row)}
    (h : Between v r newer older) (hsub : newer'.Sublist newer) : Between v r newer' older :=
  ⟨h.self, fun e he => h.newer e (hsub.subset he), h.older⟩

/-- Taking out the rows of `v` takes out just that one. -/
theorem Between.filter_eq {v : Var} {r : Row} {newer older : List (Var × Row)}
    (h : Between v r newer older) :
    (newer ++ (v, r) :: older).filter (fun e => decide (e.1 ≠ v)) = newer ++ older := by
  rw [List.filter_append, List.filter_cons_of_neg (by simp), List.filter_eq_self.mpr,
    List.filter_eq_self.mpr]
  · exact fun e he => decide_eq_true (h.older e he).1
  · exact fun e he => decide_eq_true (h.newer e he).1

/-- The values that `extendValues` computes, for values of every variable. -/
noncomputable def extended (σ : Var → M) : List (Var × Row) → Var → M
  | [] => σ
  | (v, r) :: older => extended (Function.update σ v (r.eval σ)) older

theorem extended_of_not_mem {l : List (Var × Row)} {u : Var} (hu : u ∉ l.map Prod.fst)
    (σ : Var → M) : extended σ l u = σ u := by
  induction l generalizing σ with
  | nil => rfl
  | cons e older ih =>
    obtain ⟨v, r⟩ := e
    simp only [List.map_cons, List.mem_cons, not_or] at hu
    rw [extended, ih hu.2, Function.update_of_ne hu.1]

/-- The extended values solve the system. -/
theorem Triangular.solved_extended {l : List (Var × Row)} (h : Triangular l) (σ : Var → M) :
    Solved l (extended σ l) := by
  induction l generalizing σ with
  | nil => exact fun e he => absurd he List.not_mem_nil
  | cons e older ih =>
    obtain ⟨v, r⟩ := e
    have hbetween : Between v r [] older := h.between
    intro f hf
    rw [extended]
    rcases List.mem_cons.mp hf with rfl | hf
    · rw [extended_of_not_mem (l := older) hbetween.not_mem, Function.update_self]
      refine Row.eval_congr fun u hu => ?_
      rw [extended_of_not_mem (hbetween.not_mem_older hu),
        Function.update_of_ne (hbetween.ne hu)]
    · exact ih (h.sublist (List.sublist_cons_self _ _)) _ f hf

/-- A solution is determined by the values of the other variables. -/
theorem Triangular.extended_eq {l : List (Var × Row)} (h : Triangular l) {σ τ : Var → M}
    (hτ : Solved l τ) (hσ : ∀ u, u ∉ l.map Prod.fst → σ u = τ u) : extended σ l = τ := by
  induction l generalizing σ with
  | nil => exact funext fun u => hσ u (by simp)
  | cons e older ih =>
    obtain ⟨v, r⟩ := e
    have hbetween : Between v r [] older := h.between
    rw [extended]
    refine ih (h.sublist (List.sublist_cons_self _ _))
      (fun f hf => hτ f (List.mem_cons_of_mem _ hf)) fun u hu => ?_
    by_cases huv : u = v
    · subst huv
      rw [Function.update_self, hτ (u, r) List.mem_cons_self]
      refine Row.eval_congr fun w hw => hσ w ?_
      simp only [List.map_cons, List.mem_cons, not_or]
      exact ⟨hbetween.ne hw, hbetween.not_mem_older hw⟩
    · rw [Function.update_of_ne huv]
      refine hσ u ?_
      simp only [List.map_cons, List.mem_cons, not_or]
      exact ⟨huv, hu⟩

end Extension

theorem extendValues_of_not_mem {l : List (Var × Row)} {v : Var} (hv : v ∉ l.map Prod.fst)
    (value : Var → Checked DeltaRat) : extendValues value l v = value v := by
  induction l generalizing value with
  | nil => rfl
  | cons e older ih =>
    obtain ⟨w, r⟩ := e
    simp only [List.map_cons, List.mem_cons, not_or] at hv
    rw [extendValues, ih hv.2, if_neg hv.1]

/-- The computation of extended values succeeds where all values that it reads do. -/
theorem extendValues_eq_ok {value : Var → Checked DeltaRat} {σ : Var → DeltaRat} {n : Nat}
    (hvalue : ∀ u : Var, u.id < n → value u = .ok (σ u)) {l : List (Var × Row)}
    (hl : ∀ e ∈ l, ∀ u, e.2.contains u = true → u.id < n) {u : Var} (hu : u.id < n) :
    extendValues value l u = .ok (extended σ l u) := by
  induction l generalizing value σ with
  | nil => exact hvalue u hu
  | cons e older ih =>
    obtain ⟨v, r⟩ := e
    rw [extendValues, extended]
    refine ih (fun w hw => ?_) fun f hf => hl f (List.mem_cons_of_mem _ hf)
    by_cases hwv : w = v
    · subst hwv
      rw [if_pos rfl, Function.update_self]
      exact Row.valueUnder_eq_ok fun x hx => hvalue x (hl _ List.mem_cons_self x hx)
    · rw [if_neg hwv, Function.update_of_ne hwv]
      exact hvalue w hw

end LinearArithmetic.Theory
