/-!
# Finite maps sorted by key

A finite map is the list of its entries in strictly increasing order of the keys. The order is
part of the type, so two maps with the same look-ups are equal (`ext_get?`), and walking a map
meets the keys from the smallest to the largest.
-/

namespace LinearArithmetic

/-- A finite map: its entries, by strictly increasing key. -/
structure SortedMap (κ α : Type) [LT κ] where
  entries : List (κ × α)
  sorted : entries.Pairwise (fun a b => a.1 < b.1)

namespace SortedMap

/-! ## Look-ups in lists of entries -/

section Find

variable {κ α : Type} [DecidableEq κ]

/-- The value found first under a key in a list of entries. -/
def find? (k : κ) : List (κ × α) → Option α
  | [] => none
  | (j, x) :: rest => if k = j then some x else find? k rest

theorem find?_filter_ne (j k : κ) (l : List (κ × α)) :
    find? j (l.filter fun e => decide (e.1 ≠ k)) = if j = k then none else find? j l := by
  induction l with
  | nil => simp [find?]
  | cons a rest ih =>
    obtain ⟨i, y⟩ := a
    by_cases hi : i = k <;> by_cases hj : j = i <;> grind [find?]

theorem mem_of_find? {k : κ} {x : α} {l : List (κ × α)} (h : find? k l = some x) :
    (k, x) ∈ l := by
  induction l with
  | nil => simp [find?] at h
  | cons a rest ih =>
    obtain ⟨j, y⟩ := a
    by_cases hk : k = j
    · simp_all [find?]
    · simp only [find?, hk, if_false] at h
      exact List.mem_cons_of_mem _ (ih h)

end Find

/-! ## Maps -/

variable {κ α : Type} [LT κ]

instance [DecidableEq κ] [DecidableEq α] : DecidableEq (SortedMap κ α)
  | ⟨a, _⟩, ⟨b, _⟩ =>
    if h : a = b then isTrue (by subst h; rfl) else isFalse (fun e => h (congrArg entries e))

/-- The map without entries. -/
def empty : SortedMap κ α := ⟨[], .nil⟩

instance : EmptyCollection (SortedMap κ α) := ⟨empty⟩

instance : Inhabited (SortedMap κ α) := ⟨empty⟩

/-- The number of entries. -/
def size (m : SortedMap κ α) : Nat := m.entries.length

/-- The map has no entry. -/
def isEmpty (m : SortedMap κ α) : Bool := m.entries.isEmpty

/-- The keys, in increasing order. -/
def keys (m : SortedMap κ α) : List κ := m.entries.map Prod.fst

/-- The values, by increasing key. -/
def values (m : SortedMap κ α) : List α := m.entries.map Prod.snd

/-- The entries whose key and value pass a test. -/
def filter (p : κ → α → Bool) (m : SortedMap κ α) : SortedMap κ α :=
  ⟨m.entries.filter fun e => p e.1 e.2, m.sorted.filter _⟩

/-- The same keys with changed values. -/
def mapValues {β : Type} (f : κ → α → β) (m : SortedMap κ α) : SortedMap κ β :=
  ⟨m.entries.map fun e => (e.1, f e.1 e.2), by
    simpa [List.pairwise_map] using m.sorted⟩

/-! ## Look-ups -/

variable [DecidableEq κ]

/-- The value under a key. -/
def get? (m : SortedMap κ α) (k : κ) : Option α := find? k m.entries

/-- Some entry has the key. -/
def contains (m : SortedMap κ α) (k : κ) : Bool := (m.get? k).isSome

/-- The map without the entry of a key. -/
def erase (k : κ) (m : SortedMap κ α) : SortedMap κ α := m.filter fun j _ => j ≠ k

@[simp] theorem get?_empty (k : κ) : (∅ : SortedMap κ α).get? k = none := rfl

@[simp] theorem get?_erase (j k : κ) (m : SortedMap κ α) :
    (m.erase k).get? j = if j = k then none else m.get? j :=
  find?_filter_ne j k m.entries

/-! ## Changes -/

section Insert

variable [DecidableLT κ]

/-- The entries with one value set; the list stays sorted. -/
def insertEntry (k : κ) (x : α) : List (κ × α) → List (κ × α)
  | [] => [(k, x)]
  | (j, y) :: rest =>
    if k < j then (k, x) :: (j, y) :: rest
    else if k = j then (k, x) :: rest
    else (j, y) :: insertEntry k x rest

theorem mem_insertEntry {k : κ} {x : α} {e : κ × α} {l : List (κ × α)}
    (h : e ∈ insertEntry k x l) : e = (k, x) ∨ e ∈ l := by
  induction l with
  | nil => exact .inl (List.mem_singleton.mp h)
  | cons a rest ih =>
    obtain ⟨j, y⟩ := a
    rw [insertEntry] at h
    split at h
    · exact (List.mem_cons.mp h).imp_right id
    · split at h
      · exact (List.mem_cons.mp h).imp_right (List.mem_cons_of_mem _)
      · rcases List.mem_cons.mp h with rfl | h
        · exact .inr List.mem_cons_self
        · exact (ih h).imp_right (List.mem_cons_of_mem _)

theorem find?_insertEntry (j k : κ) (x : α) (l : List (κ × α)) :
    find? j (insertEntry k x l) = if j = k then some x else find? j l := by
  induction l with
  | nil => simp [insertEntry, find?]
  | cons a rest ih =>
    obtain ⟨i, y⟩ := a
    rw [insertEntry]
    split
    · simp [find?]
    · split
      · rename_i hk
        subst hk
        by_cases hj : j = k <;> simp [find?, hj]
      · by_cases hj : j = i <;> grind [find?]

variable [LE κ] [Std.IsLinearOrder κ] [Std.LawfulOrderLT κ]

theorem sorted_insertEntry (k : κ) (x : α) {l : List (κ × α)}
    (h : l.Pairwise (fun a b => a.1 < b.1)) :
    (insertEntry k x l).Pairwise (fun a b => a.1 < b.1) := by
  induction l with
  | nil => exact List.pairwise_singleton _ _
  | cons a rest ih =>
    obtain ⟨j, y⟩ := a
    have hj := List.pairwise_cons.mp h
    rw [insertEntry]
    split
    · rename_i hk
      refine List.pairwise_cons.mpr ⟨fun e he => ?_, h⟩
      rcases List.mem_cons.mp he with rfl | he
      · exact hk
      · have := hj.1 e he
        grind
    · split
      · rename_i hk
        subst hk
        exact List.pairwise_cons.mpr ⟨fun e he => hj.1 e he, hj.2⟩
      · refine List.pairwise_cons.mpr ⟨fun e he => ?_, ih hj.2⟩
        rcases mem_insertEntry he with rfl | he
        · grind
        · exact hj.1 e he

/-- The map with the value under a key set. -/
def insert (k : κ) (x : α) (m : SortedMap κ α) : SortedMap κ α :=
  ⟨insertEntry k x m.entries, sorted_insertEntry k x m.sorted⟩

/-- The map with the value under a key changed: `none` means no entry, before and after. -/
def alter (k : κ) (f : Option α → Option α) (m : SortedMap κ α) : SortedMap κ α :=
  match f (m.get? k) with
  | some x => m.insert k x
  | none => m.erase k

@[simp] theorem get?_insert (j k : κ) (x : α) (m : SortedMap κ α) :
    (m.insert k x).get? j = if j = k then some x else m.get? j :=
  find?_insertEntry j k x m.entries

theorem get?_alter (j k : κ) (f : Option α → Option α) (m : SortedMap κ α) :
    (m.alter k f).get? j = if j = k then f (m.get? k) else m.get? j := by
  unfold alter
  split <;> simp_all

end Insert

/-! ## Extensionality -/

variable [LE κ] [Std.LawfulOrderLT κ]

theorem find?_of_mem {k : κ} {x : α} {l : List (κ × α)}
    (hs : l.Pairwise (fun a b => a.1 < b.1)) (h : (k, x) ∈ l) : find? k l = some x := by
  induction l with
  | nil => simp at h
  | cons a rest ih =>
    obtain ⟨j, y⟩ := a
    have hj := List.pairwise_cons.mp hs
    rcases List.mem_cons.mp h with h | h
    · simp_all [find?]
    · have hlt := hj.1 _ h
      have : k ≠ j := by
        rintro rfl
        exact absurd hlt Std.lt_irrefl
      simp [find?, this, ih hj.2 h]

theorem get?_eq_some_iff {m : SortedMap κ α} {k : κ} {x : α} :
    m.get? k = some x ↔ (k, x) ∈ m.entries :=
  ⟨mem_of_find?, find?_of_mem m.sorted⟩

variable [Std.IsLinearOrder κ]

/-- Maps with the same look-ups are equal. -/
theorem ext_get? {m n : SortedMap κ α} (h : ∀ k, m.get? k = n.get? k) : m = n := by
  obtain ⟨l, hl⟩ := m
  obtain ⟨l', hl'⟩ := n
  suffices l = l' by subst this; rfl
  simp only [get?] at h
  induction l generalizing l' with
  | nil =>
    cases l' with
    | nil => rfl
    | cons b t => have := h b.1; simp [find?] at this
  | cons a s ih =>
    cases l' with
    | nil => have := h a.1; simp [find?] at this
    | cons b t =>
      obtain ⟨i, x⟩ := a
      obtain ⟨j, y⟩ := b
      have ha := List.pairwise_cons.mp hl
      have hb := List.pairwise_cons.mp hl'
      have hx : find? i ((j, y) :: t) = some x := by rw [← h i]; simp [find?]
      have hy : find? j ((i, x) :: s) = some y := by rw [h j]; simp [find?]
      have hij : i = j := by
        rcases List.mem_cons.mp (mem_of_find? hx) with e | e
        · exact congrArg Prod.fst e
        · rcases List.mem_cons.mp (mem_of_find? hy) with e' | e'
          · exact (congrArg Prod.fst e').symm
          · have h1 := hb.1 _ e
            have h2 := ha.1 _ e'
            grind
      subst hij
      have hxy : x = y := by simpa [find?] using hx.symm
      subst hxy
      have hst : s = t := by
        refine ih ha.2 t hb.2 fun k => ?_
        by_cases hk : k = i
        · subst hk
          have none_of {r : List (κ × α)} (hr : ∀ e ∈ r, k < e.1) : find? k r = none := by
            cases hf : find? k r with
            | none => rfl
            | some z => have := hr _ (mem_of_find? hf); grind
          rw [none_of ha.1, none_of hb.1]
        · simpa [find?, hk] using h k
      rw [hst]

end SortedMap

/-- A finite set, kept as the keys of a map. -/
abbrev SortedSet (κ : Type) [LT κ] := SortedMap κ Unit

namespace SortedSet

variable {κ : Type} [LT κ] [DecidableEq κ] [DecidableLT κ] [LE κ] [Std.IsLinearOrder κ]
  [Std.LawfulOrderLT κ]

/-- The set with an element put in, or taken out. -/
def setMember (k : κ) (present : Bool) (s : SortedSet κ) : SortedSet κ :=
  if present then s.insert k () else s.erase k

theorem contains_setMember (j k : κ) (present : Bool) (s : SortedSet κ) :
    (setMember k present s).contains j = if j = k then present else s.contains j := by
  cases present <;> by_cases h : j = k <;> simp [setMember, SortedMap.contains, h]

end SortedSet

end LinearArithmetic
