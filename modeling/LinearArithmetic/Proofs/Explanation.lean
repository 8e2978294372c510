import LinearArithmetic.Database.Proof
import LinearArithmetic.Proofs.Database

/-!
# Explanations

Constraints that explain themselves are their own explanation, and a constraint that follows from
one of them is explained by it.
-/

namespace LinearArithmetic.Database

/-- The constraint explains itself, under the given literal. -/
def SelfExplained (db : Database) (c : ConstraintId) (t : Term) : Prop :=
  ∃ k, db.stored c = some k ∧ k.proof = some [] ∧ k.explainingLiteral? = some t

/-- A walk goes on with the antecedents of a constraint that it has not met before. -/
theorem walk_of_proof {db : Database} {c : ConstraintId} {k : Constraint}
    (hc : db.stored c = some k) {as : List ConstraintId} (hp : k.proof = some as)
    {visited : List ConstraintId} (hnew : c ∉ visited) (n : Nat) (todo leaves : List ConstraintId) :
    db.walk (n + 1) (c :: todo) visited leaves =
      db.walk n (as ++ todo) (c :: visited) (if as = [] then leaves ++ [c] else leaves) := by
  have hvisited : visited.contains c = false := by simpa using hnew
  rw [walk, hvisited]
  simp only [Bool.false_eq_true, if_false, get_eq_ok hc, ok_bind, hp]
  cases as with
  | nil => rfl
  | cons a as => rfl

/-- Walking from constraints that explain themselves collects them in order. -/
theorem walk_of_self {db : Database} {n : Nat} {todo visited leaves : List ConstraintId}
    (hn : todo.length ≤ n) (hself : ∀ c ∈ todo, ∃ t, db.SelfExplained c t) (hnodup : todo.Nodup)
    (hnew : ∀ c ∈ todo, c ∉ visited) : db.walk n todo visited leaves = .ok (leaves ++ todo) := by
  induction todo generalizing n visited leaves with
  | nil => simp [walk]
  | cons c todo ih =>
    obtain ⟨hc, htodo⟩ := List.nodup_cons.mp hnodup
    obtain ⟨t, k, hk, hp, _⟩ := hself c List.mem_cons_self
    cases n with
    | zero => exact absurd hn (by simp)
    | succ n =>
      have hrest := @ih n (c :: visited) (leaves ++ [c])
        (by simpa using hn) (fun d hd => hself d (List.mem_cons_of_mem _ hd)) htodo
        (fun d hd => by
          rw [List.mem_cons, not_or]
          exact ⟨fun hdc => hc (hdc ▸ hd), hnew d (List.mem_cons_of_mem _ hd)⟩)
      rw [walk_of_proof hk hp (hnew c List.mem_cons_self), List.nil_append, if_pos rfl, hrest,
        List.append_assoc, List.singleton_append]

/-- The literals of constraints that explain themselves. -/
theorem explanationLiterals_of_self {db : Database} {cs : List ConstraintId} (hnodup : cs.Nodup)
    (lit : ConstraintId → Term) (h : ∀ c ∈ cs, db.SelfExplained c (lit c)) :
    db.explanationLiterals cs = .ok (cs.map lit) := by
  have hwalk : db.explanation cs = .ok cs :=
    walk_of_self (Nat.le_add_right _ _) (fun c hc => ⟨_, h c hc⟩) hnodup
      fun _ _ => List.not_mem_nil
  rw [explanationLiterals, hwalk, ok_bind]
  refine Checked.mapM_eq_ok fun c hc => ?_
  obtain ⟨k, hk, _, hlit⟩ := h c hc
  simp only [get_eq_ok hk, ok_bind, hlit]
  rfl

theorem numAntecedents_pos {db : Database} {c a : ConstraintId} {k : Constraint}
    (hc : db.stored c = some k) (hp : k.proof = some [a]) : 0 < db.numAntecedents := by
  rw [numAntecedents, List.length_pos_iff_exists_mem]
  refine ⟨a, List.mem_flatMap.mpr ⟨k, List.mem_of_getElem? hc, ?_⟩⟩
  rw [hp]
  exact List.mem_singleton_self a

/-- A constraint that follows from one that explains itself is explained by it. -/
theorem explanationLiterals_of_antecedent {db : Database} {c a : ConstraintId} {k : Constraint}
    (hc : db.stored c = some k) (hp : k.proof = some [a]) {t : Term} (ha : db.SelfExplained a t) :
    db.explanationLiterals [c] = .ok [t] := by
  obtain ⟨l, hl, hlp, hlit⟩ := ha
  have hne : a ≠ c := by
    rintro rfl
    rw [hc] at hl
    rw [← Option.some.inj hl, hp] at hlp
    cases hlp
  obtain ⟨m, hm⟩ : ∃ m, db.numAntecedents = m + 1 :=
    ⟨db.numAntecedents - 1, by have := numAntecedents_pos hc hp; omega⟩
  have hwalk : db.explanation [c] = .ok [a] := by
    rw [explanation, hm, List.length_singleton, Nat.add_comm 1,
      walk_of_proof hc hp List.not_mem_nil, if_neg (List.cons_ne_nil a [])]
    exact walk_of_self (by simp) (fun d hd => by
      rw [List.append_nil, List.mem_singleton] at hd
      exact hd ▸ ⟨t, l, hl, hlp, hlit⟩) (List.pairwise_singleton _ a) fun d hd => by
      rw [List.append_nil, List.mem_singleton] at hd
      rw [List.mem_singleton]
      exact hd ▸ hne
  rw [explanationLiterals, hwalk, ok_bind, List.mapM_cons]
  simp only [get_eq_ok hl, ok_bind, hlit]
  rfl

end LinearArithmetic.Database
