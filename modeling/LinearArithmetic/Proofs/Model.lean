import LinearArithmetic.Model.Basic
import LinearArithmetic.Proofs.Collections
import LinearArithmetic.Proofs.DeltaRat
import LinearArithmetic.Proofs.Trail

/-!
# Reading and changing a model

A model is read through its current values, its values of the last commit and its bounds. Every
operation is described by its effect on these three.
-/

namespace LinearArithmetic

namespace ModelEntry

@[simp] theorem bound_setValue (e : ModelEntry) (x : DeltaRat) (side : Side) :
    (e.setValue x).bound side = e.bound side := by cases side <;> rfl

@[simp] theorem bound_revert (e : ModelEntry) (side : Side) :
    e.revert.bound side = e.bound side := by
  cases side <;> rfl

@[simp] theorem bound_commit (e : ModelEntry) (side : Side) :
    e.commit.bound side = e.bound side := by
  cases side <;> rfl

@[simp] theorem safeValue_setValue (e : ModelEntry) (x : DeltaRat) :
    (e.setValue x).safeValue = e.safeValue := rfl

@[simp] theorem safeValue_setBound (e : ModelEntry) (side : Side) (b : Option Bound) :
    (e.setBound side b).safeValue = e.safeValue := by cases side <;> rfl

@[simp] theorem value_setBound (e : ModelEntry) (side : Side) (b : Option Bound) :
    (e.setBound side b).value = e.value := by cases side <;> rfl

@[simp] theorem saved_setBound (e : ModelEntry) (side : Side) (b : Option Bound) :
    (e.setBound side b).saved = e.saved := by cases side <;> rfl

theorem bound_setBound (e : ModelEntry) (s side : Side) (b : Option Bound) :
    (e.setBound side b).bound s = if s = side then b else e.bound s := by
  cases s <;> cases side <;> rfl

end ModelEntry

namespace Model

/-- What is kept for a variable; the default for a variable out of range. -/
def look (m : Model) (v : Var) : ModelEntry := (m.byVar.get? v.id).getD {}

/-- The current values. -/
def valueOf (m : Model) (v : Var) : DeltaRat := (m.look v).value

/-- The values of the last commit. -/
def safeOf (m : Model) (v : Var) : DeltaRat := (m.look v).safeValue

/-- The bounds. -/
def boundOf (m : Model) (side : Side) (v : Var) : Option Bound := (m.look v).bound side

/-- The saved values of the variables that have changed since the last commit. -/
def savedOf (m : Model) (v : Var) : Option DeltaRat := (m.look v).saved

/-- No value has changed since the last commit. -/
def Committed (m : Model) : Prop := ∀ v, m.savedOf v = none

section Reads

variable {m : Model} {v : Var}

theorem entry_eq_ok (h : v.id < m.numVariables) : m.entry v = .ok (m.look v) := by
  obtain ⟨e, he⟩ := Arena.get?_isSome h
  rw [entry, Arena.get_eq_ok he, look, he]
  rfl

theorem entry_eq_error (h : ¬ v.id < m.numVariables) : m.entry v = .error (.outOfRange v.id) := by
  rw [entry, Arena.get, Arena.get?_eq_none_iff.mpr (Nat.le_of_not_lt h)]

theorem value_eq_ok (h : v.id < m.numVariables) : m.value v = .ok (m.valueOf v) := by
  rw [value, entry_eq_ok h]
  rfl

theorem lt_of_value {x : DeltaRat} (h : m.value v = .ok x) : v.id < m.numVariables := by
  obtain ⟨e, he, _⟩ := bind_eq_ok.mp h
  exact Arena.lt_size_of_get he

theorem safeValue_eq_ok (h : v.id < m.numVariables) : m.safeValue v = .ok (m.safeOf v) := by
  rw [safeValue, entry_eq_ok h]
  rfl

theorem bound_eq_ok (h : v.id < m.numVariables) (side : Side) :
    m.bound side v = .ok (m.boundOf side v) := by
  rw [bound, entry_eq_ok h]
  rfl

theorem hasBounds_eq_ok (h : v.id < m.numVariables) :
    m.hasBounds v = .ok ((m.boundOf .lower v).isSome || (m.boundOf .upper v).isSome) := by
  rw [hasBounds, entry_eq_ok h]
  rfl

theorem violation?_eq_ok (h : v.id < m.numVariables) :
    m.violation? v = .ok (m.look v).violation? := by
  rw [violation?, entry_eq_ok h]
  rfl

theorem look_of_ge (h : m.numVariables ≤ v.id) : m.look v = {} := by
  rw [look, Arena.get?_eq_none_iff.mpr h]
  rfl

end Reads

theorem hasUncommitted_eq_false_iff {m : Model} : m.hasUncommitted = false ↔ m.Committed := by
  rw [hasUncommitted, List.any_eq_false]
  constructor
  · intro h v
    unfold savedOf look Arena.get?
    cases he : m.byVar.items[v.id]? with
    | none => rfl
    | some e => simpa using h e (List.mem_of_getElem? he)
  · intro h e he
    obtain ⟨i, hi⟩ := List.mem_iff_getElem?.mp he
    have := h ⟨i⟩
    unfold savedOf look Arena.get? at this
    rw [hi] at this
    simpa using this

/-! ## Changes of one entry -/

@[simp] theorem numVariables_update (m : Model) (v : Var) (f : ModelEntry → ModelEntry) :
    (m.update v f).numVariables = m.numVariables := Arena.size_modify _ _ _

@[simp] theorem trail_update (m : Model) (v : Var) (f : ModelEntry → ModelEntry) :
    (m.update v f).trail = m.trail := rfl

theorem look_update {m : Model} {v : Var} (h : v.id < m.numVariables) (f : ModelEntry → ModelEntry)
    (u : Var) : (m.update v f).look u = if u = v then f (m.look u) else m.look u := by
  unfold look update
  rw [Arena.get?_modify]
  by_cases hu : u = v
  · subst hu
    obtain ⟨e, he⟩ := Arena.get?_isSome h
    simp [he]
  · have hid : u.id ≠ v.id := fun h => hu (Var.eq_of_id_eq h)
    simp [hu, hid]

theorem savedOf_update {m : Model} {v : Var} {f : ModelEntry → ModelEntry}
    (hf : ∀ e, (f e).saved = e.saved) : (m.update v f).savedOf = m.savedOf := by
  funext u
  rw [savedOf, savedOf, look, look, update, Arena.get?_modify]
  split
  · cases m.byVar.get? u.id with
    | none => rfl
    | some e => exact hf e
  · rfl

/-! ## Values -/

/-- The model after a change of a value. -/
def assigned (v : Var) (x : DeltaRat) (m : Model) : Model := m.update v (·.setValue x)

/-- A change of a value does not touch the bounds. -/
theorem boundOf_assigned (m : Model) (v : Var) (x : DeltaRat) :
    (m.assigned v x).boundOf = m.boundOf := by
  funext side u
  rw [boundOf, boundOf, look, look, assigned, update, Arena.get?_modify]
  split
  · cases m.byVar.get? u.id with
    | none => rfl
    | some e => exact ModelEntry.bound_setValue e x side
  · rfl

section Assigned

variable {m : Model} {v : Var} (h : v.id < m.numVariables) (x : DeltaRat)

include h

theorem setValue_eq_ok : m.setValue v x = .ok (m.assigned v x) := by
  rw [setValue, entry_eq_ok h]
  rfl

theorem valueOf_assigned : (m.assigned v x).valueOf = Function.update m.valueOf v x := by
  funext u
  unfold valueOf assigned
  rw [look_update h]
  by_cases hu : u = v
  · subst hu
    simp [ModelEntry.setValue]
  · simp [hu]

theorem safeOf_assigned : (m.assigned v x).safeOf = m.safeOf := by
  funext u
  unfold safeOf assigned
  rw [look_update h]
  split <;> simp

theorem savedOf_assigned (u : Var) :
    (m.assigned v x).savedOf u = if u = v then some (m.safeOf v) else m.savedOf u := by
  unfold savedOf assigned
  rw [look_update h]
  split
  · rename_i hu
    rw [hu]
    rfl
  · rfl

theorem savedOf_assigned_of_ne {u : Var} (hu : u ≠ v) :
    (m.assigned v x).savedOf u = m.savedOf u := by
  rw [savedOf_assigned h, if_neg hu]

end Assigned

@[simp] theorem numVariables_assigned (m : Model) (v : Var) (x : DeltaRat) :
    (m.assigned v x).numVariables = m.numVariables := numVariables_update _ _ _

@[simp] theorem trail_assigned (m : Model) (v : Var) (x : DeltaRat) :
    (m.assigned v x).trail = m.trail := rfl

theorem setValue_eq {m : Model} (v : Var) (x : DeltaRat) :
    m.setValue v x =
      if v.id < m.numVariables then .ok (m.assigned v x) else .error (.outOfRange v.id) := by
  split
  · exact setValue_eq_ok ‹_› x
  · rw [setValue, entry_eq_error ‹_›]
    rfl

/-- The models differ in values only. -/
structure Revalued (m m' : Model) : Prop where
  room : m'.numVariables = m.numVariables
  trail : m'.trail = m.trail
  bounds : m'.boundOf = m.boundOf

theorem Revalued.refl (m : Model) : m.Revalued m := ⟨rfl, rfl, rfl⟩

theorem Revalued.assigned {m m' : Model} (h : m.Revalued m') (v : Var) (x : DeltaRat) :
    m.Revalued (m'.assigned v x) where
  room := (numVariables_assigned m' v x).trans h.room
  trail := h.trail
  bounds := (boundOf_assigned m' v x).trans h.bounds

theorem look_map {m : Model} {f : ModelEntry → ModelEntry} (hf : f {} = {}) (v : Var) :
    ({ m with byVar := m.byVar.map f } : Model).look v = f (m.look v) := by
  unfold look
  rw [Arena.get?_map]
  cases m.byVar.get? v.id with
  | none => exact hf.symm
  | some e => rfl

section Transactions

variable (m : Model)

theorem look_revert (v : Var) : m.revert.look v = (m.look v).revert := look_map rfl v

theorem look_commit (v : Var) : m.commit.look v = (m.look v).commit := look_map rfl v

@[simp] theorem numVariables_revert : m.revert.numVariables = m.numVariables := Arena.size_map _ _

@[simp] theorem numVariables_commit : m.commit.numVariables = m.numVariables := Arena.size_map _ _

@[simp] theorem trail_revert : m.revert.trail = m.trail := rfl

@[simp] theorem trail_commit : m.commit.trail = m.trail := rfl

@[simp] theorem valueOf_revert : m.revert.valueOf = m.safeOf := by
  funext v
  rw [valueOf, look_revert]
  rfl

@[simp] theorem safeOf_revert : m.revert.safeOf = m.safeOf := by
  funext v
  rw [safeOf, look_revert]
  rfl

@[simp] theorem boundOf_revert : m.revert.boundOf = m.boundOf := by
  funext side v
  rw [boundOf, look_revert, ModelEntry.bound_revert]
  rfl

@[simp] theorem valueOf_commit : m.commit.valueOf = m.valueOf := by
  funext v
  rw [valueOf, look_commit]
  rfl

@[simp] theorem safeOf_commit : m.commit.safeOf = m.valueOf := by
  funext v
  rw [safeOf, look_commit]
  rfl

@[simp] theorem boundOf_commit : m.commit.boundOf = m.boundOf := by
  funext side v
  rw [boundOf, look_commit, ModelEntry.bound_commit]
  rfl

theorem committed_revert : m.revert.Committed := fun v => by rw [savedOf, look_revert]; rfl

theorem committed_commit : m.commit.Committed := fun v => by rw [savedOf, look_commit]; rfl

end Transactions

theorem Committed.safeOf_eq {m : Model} (h : m.Committed) : m.safeOf = m.valueOf := by
  funext v
  have hv : (m.look v).saved = none := h v
  rw [safeOf, ModelEntry.safeValue, hv]
  rfl

/-- Introducing both values of a variable that has not changed since the last commit. -/
theorem introduce_spec {m : Model} {v : Var} (h : v.id < m.numVariables)
    (hs : m.savedOf v = none) (current safe : DeltaRat) :
    ∃ m', m.introduce v current safe = .ok m' ∧ m'.numVariables = m.numVariables ∧
      m'.trail = m.trail ∧ m'.valueOf = Function.update m.valueOf v current ∧
      m'.safeOf = Function.update m.safeOf v safe ∧ m'.boundOf = m.boundOf ∧
      (∀ u, u ≠ v → m'.savedOf u = m.savedOf u) ∧ (current = safe → m'.savedOf v = none) := by
  unfold savedOf at hs
  let m₁ := m.update v fun e => { e with value := safe }
  have h₁ : v.id < m₁.numVariables := by rwa [numVariables_update]
  have hvalue : m₁.valueOf = Function.update m.valueOf v safe := by
    funext u
    unfold valueOf
    rw [look_update h]
    by_cases hu : u = v
    · subst hu
      simp
    · simp [hu]
  have hsafe : m₁.safeOf = Function.update m.safeOf v safe := by
    funext u
    unfold safeOf
    rw [look_update h]
    by_cases hu : u = v
    · subst hu
      simp [ModelEntry.safeValue, hs]
    · simp [hu]
  have hbound : m₁.boundOf = m.boundOf := by
    funext side u
    unfold boundOf
    rw [look_update h]
    split
    · cases side <;> rfl
    · rfl
  have hsaved : ∀ u, m₁.savedOf u = m.savedOf u := by
    intro u
    unfold savedOf
    rw [look_update h]
    split <;> rfl
  have hok : m.introduce v current safe =
      if current ≠ safe then m₁.setValue v current else .ok m₁ := by
    rw [introduce, entry_eq_ok h, ok_bind, hs]
    rfl
  by_cases hne : current = safe
  · refine ⟨m₁, by rw [hok, if_neg (not_not.mpr hne)], numVariables_update _ _ _, rfl, ?_, hsafe,
      hbound, fun u _ => hsaved u, fun _ => (hsaved v).trans hs⟩
    rw [hvalue, hne]
  · refine ⟨m₁.assigned v current, by rw [hok, if_pos hne, setValue_eq_ok h₁], ?_, rfl, ?_, ?_, ?_,
      ?_, fun heq => absurd heq hne⟩
    · rw [numVariables_assigned, numVariables_update]
    · rw [valueOf_assigned h₁, hvalue, Function.update_idem]
    · rw [safeOf_assigned h₁, hsafe]
    · rw [boundOf_assigned, hbound]
    · intro u hu
      rw [savedOf_assigned_of_ne h₁ current hu, hsaved]

/-! ## Bounds -/

/-- The model after a change of a bound. -/
def bounded (side : Side) (v : Var) (b : Bound) (m : Model) : Model :=
  { m.update v (·.setBound side (some b)) with
    trail := m.trail.push ⟨side, v, m.boundOf side v⟩ }

section Bounded

variable {m : Model} {v : Var} (h : v.id < m.numVariables) (side : Side) (b : Bound)

include h

theorem setBound_eq_ok : m.setBound side v b = .ok (m.bounded side v b) := by
  rw [setBound, entry_eq_ok h]
  rfl

theorem look_bounded (u : Var) :
    (m.bounded side v b).look u = if u = v then (m.look u).setBound side (some b) else m.look u :=
  look_update h _ u

theorem valueOf_bounded : (m.bounded side v b).valueOf = m.valueOf := by
  funext u
  rw [valueOf, look_bounded h]
  split <;> simp [valueOf]

theorem safeOf_bounded : (m.bounded side v b).safeOf = m.safeOf := by
  funext u
  rw [safeOf, look_bounded h]
  split <;> simp [safeOf]

theorem savedOf_bounded : (m.bounded side v b).savedOf = m.savedOf := by
  funext u
  rw [savedOf, look_bounded h]
  split <;> simp [savedOf]

theorem boundOf_bounded (s : Side) (u : Var) :
    (m.bounded side v b).boundOf s u = if u = v ∧ s = side then some b else m.boundOf s u := by
  rw [boundOf, look_bounded h]
  by_cases hu : u = v
  · subst hu
    simp [ModelEntry.bound_setBound, boundOf]
  · simp [hu, boundOf]

end Bounded

@[simp] theorem numVariables_bounded (m : Model) (side : Side) (v : Var) (b : Bound) :
    (m.bounded side v b).numVariables = m.numVariables := Arena.size_modify _ _ _

@[simp] theorem numVariables_ensure (v : Var) (m : Model) :
    (m.ensure v).numVariables = max m.numVariables (v.id + 1) := Arena.size_ensure _ _ _

@[simp] theorem look_ensure (v u : Var) (m : Model) : (m.ensure v).look u = m.look u := by
  unfold look ensure
  rw [Arena.get?_ensure]
  split
  · rename_i h
    rw [Arena.get?_eq_none_iff.mpr h.1]
    rfl
  · rfl

@[simp] theorem valueOf_ensure (v : Var) (m : Model) : (m.ensure v).valueOf = m.valueOf :=
  funext fun u => by rw [valueOf, valueOf, look_ensure]

@[simp] theorem safeOf_ensure (v : Var) (m : Model) : (m.ensure v).safeOf = m.safeOf :=
  funext fun u => by rw [safeOf, safeOf, look_ensure]

@[simp] theorem savedOf_ensure (v : Var) (m : Model) : (m.ensure v).savedOf = m.savedOf :=
  funext fun u => by rw [savedOf, savedOf, look_ensure]

@[simp] theorem boundOf_ensure (v : Var) (m : Model) : (m.ensure v).boundOf = m.boundOf :=
  funext fun side => funext fun u => by rw [boundOf, boundOf, look_ensure]

@[simp] theorem trail_ensure (v : Var) (m : Model) : (m.ensure v).trail = m.trail := rfl

/-! ## Bounds in outer scopes -/

/-- Bounds with one change undone. -/
def undoBound (bounds : Side → Var → Option Bound) (c : BoundChange) : Side → Var → Option Bound :=
  fun side v => if v = c.var ∧ side = c.side then c.previous else bounds side v

/-- The bounds as they were when `n` scopes were open. -/
def boundsAt (m : Model) (n : Nat) : Side → Var → Option Bound :=
  (m.trail.undone n).foldl undoBound m.boundOf

theorem boundsAt_level (m : Model) : m.boundsAt m.trail.level = m.boundOf := by
  rw [boundsAt, Trail.undone_level]
  rfl

theorem boundsAt_congr {m m' : Model} (ht : m'.trail = m.trail) (hb : m'.boundOf = m.boundOf) :
    m'.boundsAt = m.boundsAt := by
  funext n
  rw [boundsAt, boundsAt, ht, hb]

/-- A new bound is undone when its scope is left. -/
theorem boundsAt_bounded {m : Model} {v : Var} (h : v.id < m.numVariables) (side : Side) (b : Bound)
    {n : Nat} (hn : n < m.trail.level) : (m.bounded side v b).boundsAt n = m.boundsAt n := by
  have ht : (m.bounded side v b).trail = m.trail.push ⟨side, v, m.boundOf side v⟩ := rfl
  rw [boundsAt, boundsAt, ht, Trail.undone_push hn, List.foldl_cons]
  congr 1
  funext s u
  rw [undoBound]
  split
  · rename_i hu
    rw [hu.1, hu.2]
  · rename_i hu
    rw [boundOf_bounded h, if_neg hu]

/-- The changes on the trail are of variables of the model. -/
def Tracked (m : Model) : Prop := ∀ c ∈ m.trail.toList, c.var.id < m.numVariables

/-- The outer scopes have the same bounds. -/
structure SameBelow (m m' : Model) : Prop where
  level : m'.trail.level = m.trail.level
  below : ∀ n < m.trail.level, m'.boundsAt n = m.boundsAt n
  tracked : m.Tracked → m'.Tracked

theorem SameBelow.refl (m : Model) : SameBelow m m := ⟨rfl, fun _ _ => rfl, id⟩

theorem SameBelow.trans {m₁ m₂ m₃ : Model} (h : SameBelow m₁ m₂) (k : SameBelow m₂ m₃) :
    SameBelow m₁ m₃ :=
  ⟨k.level.trans h.level, fun n hn => (k.below n (h.level ▸ hn)).trans (h.below n hn),
    k.tracked ∘ h.tracked⟩

theorem Tracked.congr {m m' : Model} (h : m.Tracked) (ht : m'.trail = m.trail)
    (hroom : m'.numVariables = m.numVariables) : m'.Tracked := by
  intro c hc
  rw [hroom]
  exact h c (ht ▸ hc)

theorem SameBelow.of_eq {m m' : Model} (ht : m'.trail = m.trail) (hb : m'.boundOf = m.boundOf)
    (hroom : m'.numVariables = m.numVariables) : SameBelow m m' :=
  ⟨congrArg Trail.level ht, fun _ _ => by rw [boundsAt_congr ht hb], fun h => h.congr ht hroom⟩

theorem sameBelow_bounded {m : Model} {v : Var} (h : v.id < m.numVariables) (side : Side)
    (b : Bound) : SameBelow m (m.bounded side v b) where
  level := rfl
  below _ hn := boundsAt_bounded h side b hn
  tracked ht c hc := by
    rw [numVariables_bounded]
    change c ∈ (m.trail.push _).toList at hc
    rw [Trail.toList_push, List.mem_append, List.mem_singleton] at hc
    rcases hc with hc | rfl
    · exact ht c hc
    · exact h

/-! ## Scopes -/

@[simp] theorem numVariables_undo (m : Model) (c : BoundChange) :
    (m.undo c).numVariables = m.numVariables := Arena.size_modify _ _ _

theorem look_undo {m : Model} {c : BoundChange} (h : c.var.id < m.numVariables) (u : Var) :
    (m.undo c).look u =
      if u = c.var then (m.look u).setBound c.side c.previous else m.look u := by
  rw [undo, look_update h]

/-- Undoing a bound change gives the bound before it, and moves no value. -/
theorem boundOf_undo {m : Model} {c : BoundChange} (h : c.var.id < m.numVariables) :
    (m.undo c).boundOf = undoBound m.boundOf c := by
  funext side u
  rw [boundOf, look_undo h, undoBound]
  by_cases hu : u = c.var
  · rw [if_pos hu, ModelEntry.bound_setBound]
    simp [hu, boundOf]
  · rw [if_neg hu, if_neg fun hc => hu hc.1, boundOf]

theorem values_undo {m : Model} {c : BoundChange} (h : c.var.id < m.numVariables) (u : Var) :
    (m.undo c).valueOf u = m.valueOf u ∧ (m.undo c).safeOf u = m.safeOf u ∧
      (m.undo c).savedOf u = m.savedOf u := by
  rw [valueOf, safeOf, savedOf, look_undo h]
  split
  · simp [valueOf, safeOf, savedOf]
  · exact ⟨rfl, rfl, rfl⟩

/-- Undoing changes from the newest on. -/
theorem undoAll_spec {cs : List BoundChange} {m : Model} (h : ∀ c ∈ cs, c.var.id < m.numVariables) :
    (cs.foldl undo m).numVariables = m.numVariables ∧ (cs.foldl undo m).trail = m.trail ∧
      (cs.foldl undo m).valueOf = m.valueOf ∧ (cs.foldl undo m).safeOf = m.safeOf ∧
      (cs.foldl undo m).savedOf = m.savedOf ∧
      (cs.foldl undo m).boundOf = cs.foldl undoBound m.boundOf := by
  induction cs generalizing m with
  | nil => exact ⟨rfl, rfl, rfl, rfl, rfl, rfl⟩
  | cons c cs ih =>
    have hc := h c List.mem_cons_self
    obtain ⟨hroom, htrail, hval, hsafe, hsaved, hbound⟩ := ih (m := m.undo c) fun d hd => by
      rw [numVariables_undo]
      exact h d (List.mem_cons_of_mem _ hd)
    have hvalues := values_undo hc
    simp only [List.foldl_cons]
    refine ⟨hroom.trans (numVariables_undo m c), htrail, hval.trans ?_, hsafe.trans ?_,
      hsaved.trans ?_, ?_⟩
    · exact funext fun u => (hvalues u).1
    · exact funext fun u => (hvalues u).2.1
    · exact funext fun u => (hvalues u).2.2
    · rw [hbound, boundOf_undo hc]

theorem boundsAt_kept {m m' : Model} {n : Nat} (hn : n ≤ m.trail.level)
    (ht : m'.trail = m.trail.kept n) (hb : m'.boundOf = m.boundsAt n) {k : Nat} (hk : k ≤ n) :
    m'.boundsAt k = m.boundsAt k := by
  rw [boundsAt, boundsAt, ht, hb, boundsAt, Trail.undone_kept hk hn, List.foldl_append]

/-- The model with the bounds of an outer scope and the values it has. -/
theorem backtrack_spec {m : Model} (h : m.Tracked) {n : Nat} (hn : n ≤ m.trail.level) :
    ∃ m', m.backtrack n = .ok m' ∧ m'.numVariables = m.numVariables ∧
      m'.trail = m.trail.kept n ∧ m'.valueOf = m.valueOf ∧ m'.safeOf = m.safeOf ∧
      m'.savedOf = m.savedOf ∧ m'.boundOf = m.boundsAt n ∧ m'.Tracked := by
  have hmem : ∀ c ∈ m.trail.undone n, c.var.id < m.numVariables := by
    intro c hc
    refine h c ?_
    rw [← Trail.toList_kept_append n m.trail]
    exact List.mem_append_right _ (List.mem_reverse.mpr hc)
  obtain ⟨hroom, htrail, hval, hsafe, hsaved, hbound⟩ :=
    undoAll_spec (m := { m with trail := m.trail.kept n }) hmem
  refine ⟨(m.trail.undone n).foldl undo { m with trail := m.trail.kept n },
    by rw [backtrack, Trail.backtrack_eq_ok hn]; rfl, hroom, htrail, hval, hsafe, hsaved,
    hbound, fun c hc => ?_⟩
  rw [hroom]
  refine h c ?_
  rw [htrail] at hc
  rw [← Trail.toList_kept_append n m.trail]
  exact List.mem_append_left _ hc

theorem boundsAt_openScope {m : Model} {n : Nat} (hn : n ≤ m.trail.level) :
    m.openScope.boundsAt n = m.boundsAt n := by
  rw [boundsAt, boundsAt]
  change (m.trail.openScope.undone n).foldl _ _ = _
  rw [Trail.undone_openScope hn]
  rfl

theorem Tracked.openScope {m : Model} (h : m.Tracked) : m.openScope.Tracked := by
  intro c hc
  change c ∈ m.trail.openScope.toList at hc
  rw [Trail.toList_openScope] at hc
  exact h c hc

end Model

end LinearArithmetic
