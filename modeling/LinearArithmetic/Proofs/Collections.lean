import LinearArithmetic.Collection.Arena
import LinearArithmetic.Collection.SortedMap
import LinearArithmetic.Proofs.Checked

/-!
# Laws of the collections

What the keys of a map say of its look-ups, and what a key in use says of an arena.
-/

namespace LinearArithmetic

namespace SortedMap

variable {κ α : Type} [LT κ]

theorem mem_keys_iff_exists {m : SortedMap κ α} {k : κ} :
    k ∈ m.keys ↔ ∃ x, (k, x) ∈ m.entries := by
  simp [keys]

theorem sorted_keys (m : SortedMap κ α) : m.keys.Pairwise (· < ·) :=
  List.pairwise_map.mpr m.sorted

theorem nodup_keys [LE κ] [Std.LawfulOrderLT κ] (m : SortedMap κ α) : m.keys.Nodup := by
  exact m.sorted_keys.imp fun hlt heq => by
    subst heq
    exact absurd hlt Std.lt_irrefl

variable [DecidableEq κ]

theorem contains_iff_exists {m : SortedMap κ α} {k : κ} :
    m.contains k = true ↔ ∃ x, m.get? k = some x := Option.isSome_iff_exists

variable [LE κ] [Std.LawfulOrderLT κ]

theorem mem_keys_iff {m : SortedMap κ α} {k : κ} : k ∈ m.keys ↔ m.contains k = true := by
  rw [mem_keys_iff_exists, contains_iff_exists]
  exact exists_congr fun x => get?_eq_some_iff.symm

theorem size_eq_zero_iff {m : SortedMap κ α} :
    m.size = 0 ↔ ∀ k, ¬ m.contains k = true := by
  rw [size, List.length_eq_zero_iff]
  constructor
  · intro h k hk
    obtain ⟨x, hx⟩ := mem_keys_iff_exists.mp (mem_keys_iff.mpr hk)
    rw [h] at hx
    exact List.not_mem_nil hx
  · intro h
    rw [List.eq_nil_iff_forall_not_mem]
    intro e he
    exact h e.1 (mem_keys_iff.mp (List.mem_map.mpr ⟨e, he, rfl⟩))

@[simp] theorem mem_keys_insert_iff [DecidableLT κ] [Std.IsLinearOrder κ] {m : SortedMap κ α}
    {j k : κ} {x : α} : j ∈ (m.insert k x).keys ↔ j = k ∨ j ∈ m.keys := by
  rw [mem_keys_iff, mem_keys_iff, contains, contains, get?_insert]
  split <;> simp_all

theorem mem_filter_keys_iff {m : SortedMap κ α} {p : κ → Bool} {k : κ} :
    (m.filter fun j _ => p j).contains k = true ↔ m.contains k = true ∧ p k = true := by
  rw [← mem_keys_iff, ← mem_keys_iff, mem_keys_iff_exists, mem_keys_iff_exists]
  simp [filter]

end SortedMap

namespace Arena

variable {α : Type}

theorem get?_eq_none_iff {a : Arena α} {k : Nat} : a.get? k = none ↔ a.size ≤ k :=
  List.getElem?_eq_none_iff

theorem get?_isSome {a : Arena α} {k : Nat} (h : k < a.size) : ∃ x, a.get? k = some x :=
  ⟨a.items[k], List.getElem?_eq_getElem h⟩

theorem lt_size_of_get? {a : Arena α} {k : Nat} {x : α} (h : a.get? k = some x) : k < a.size := by
  by_contra hge
  rw [get?_eq_none_iff.mpr (Nat.le_of_not_lt hge)] at h
  cases h

theorem ext_get? {a b : Arena α} (h : ∀ k, a.get? k = b.get? k) : a = b :=
  congrArg Arena.mk (List.ext_getElem? h)

theorem get_eq_ok {a : Arena α} {k : Nat} {x : α} (h : a.get? k = some x) : a.get k = .ok x := by
  rw [get, h]

theorem lt_size_of_get {a : Arena α} {k : Nat} {x : α} (h : a.get k = .ok x) : k < a.size := by
  cases hk : a.get? k with
  | some y => exact lt_size_of_get? hk
  | none =>
    rw [get, hk] at h
    cases h

theorem ensure_of_lt {a : Arena α} {k : Nat} (d : α) (h : k < a.size) : a.ensure k d = a := by
  unfold ensure
  rw [show k + 1 - a.size = 0 by omega]
  simp

theorem get?_map {β : Type} (f : α → β) (a : Arena α) (k : Nat) :
    (a.map f).get? k = (a.get? k).map f := by
  simp [get?, map]

theorem modify_comm {f g : α → α} (h : ∀ x, f (g x) = g (f x)) (j k : Nat) (a : Arena α) :
    (a.modify j f).modify k g = (a.modify k g).modify j f := by
  refine ext_get? fun i => ?_
  simp only [get?_modify]
  split <;> split <;> simp [Option.map_map, Function.comp_def, h]

@[simp] theorem size_map {β : Type} (f : α → β) (a : Arena α) : (a.map f).size = a.size := by
  simp [size, map]

end Arena

/-- Each element is left once. -/
theorem nodup_eraseDups {α : Type} [BEq α] [LawfulBEq α] (l : List α) : l.eraseDups.Nodup := by
  match l with
  | [] => exact List.nodup_nil
  | a :: l =>
    have hlen : (l.filter fun b => !b == a).length < (a :: l).length :=
      Nat.lt_succ_of_le (List.length_filter_le _ l)
    rw [List.eraseDups_cons]
    refine List.nodup_cons.mpr ⟨fun hmem => ?_, nodup_eraseDups _⟩
    have hmem' := (List.mem_filter.mp (List.mem_eraseDups.mp hmem)).2
    simp at hmem'
termination_by l.length
decreasing_by exact hlen

end LinearArithmetic
