import LinearArithmetic.Fault

/-!
# Arenas

An arena stores values under the keys `0, 1, …`. Keys are given out in order and never reused,
so an arena only grows.
-/

namespace LinearArithmetic

/-- Values under consecutive keys. -/
structure Arena (α : Type) where
  items : List α := []
  deriving DecidableEq

namespace Arena

variable {α : Type}

instance : Inhabited (Arena α) := ⟨{}⟩

/-- The number of stored values. -/
def size (a : Arena α) : Nat := a.items.length

/-- The arena stores nothing. -/
def isEmpty (a : Arena α) : Bool := a.items.isEmpty

/-- The keys in use, in order. -/
def keys (a : Arena α) : List Nat := List.range a.size

/-- The key that the next value gets. -/
def nextKey (a : Arena α) : Nat := a.size

/-- The arena with a value stored under the next key. -/
def push (x : α) (a : Arena α) : Arena α := ⟨a.items ++ [x]⟩

/-- The value under a key. -/
def get? (a : Arena α) (k : Nat) : Option α := a.items[k]?

/-- The value under a key that is in use. -/
def get (a : Arena α) (k : Nat) : Checked α :=
  match a.get? k with
  | some x => .ok x
  | none => .error (.outOfRange k)

/-- The arena with the value under a key in use replaced. -/
def set (k : Nat) (x : α) (a : Arena α) : Checked (Arena α) :=
  if k < a.size then .ok ⟨a.items.set k x⟩ else .error (.outOfRange k)

/-- The arena with the value under a key changed; a key that is not in use changes nothing. -/
def modify (k : Nat) (f : α → α) (a : Arena α) : Arena α := ⟨a.items.modify k f⟩

/-- The arena with every value changed. -/
def map {β : Type} (f : α → β) (a : Arena α) : Arena β := ⟨a.items.map f⟩

/-- The arena with the key in use: the keys up to it that were not get the default value. -/
def ensure (k : Nat) (default : α) (a : Arena α) : Arena α :=
  ⟨a.items ++ List.replicate (k + 1 - a.size) default⟩

@[simp] theorem size_push (x : α) (a : Arena α) : (a.push x).size = a.size + 1 := by
  simp [size, push]

@[simp] theorem size_modify (k : Nat) (f : α → α) (a : Arena α) :
    (a.modify k f).size = a.size := by
  simp [size, modify]

@[simp] theorem size_ensure (k : Nat) (d : α) (a : Arena α) :
    (a.ensure k d).size = max a.size (k + 1) := by
  simp only [size, ensure, List.length_append, List.length_replicate]
  omega

theorem get?_push (x : α) (a : Arena α) (k : Nat) :
    (a.push x).get? k = if k = a.size then some x else a.get? k := by
  simp only [get?, push, size, List.getElem?_append]
  grind

theorem get?_modify (j k : Nat) (f : α → α) (a : Arena α) :
    (a.modify k f).get? j = if j = k then (a.get? j).map f else a.get? j := by
  simp only [get?, modify, List.getElem?_modify]
  grind

theorem get?_ensure (j k : Nat) (d : α) (a : Arena α) :
    (a.ensure k d).get? j = if a.size ≤ j ∧ j ≤ k then some d else a.get? j := by
  simp only [get?, ensure, size, List.getElem?_append, List.getElem?_replicate]
  grind

end Arena

end LinearArithmetic
