import LinearArithmetic.Model.Listed
import LinearArithmetic.Proofs.FlatTrail
import LinearArithmetic.Proofs.Model
import Mathlib.Data.List.Nodup

/-!
# Transactions and scopes of a model

Values go by transactions and bounds by scopes, and the two do not touch each other. What a run of
a model has to remember is small: the values of the last commit or revert, and the bounds that
there were whenever a scope was entered. In every run the model gives back just these, and so does
a model that only visits the variables which have changed.
-/

namespace LinearArithmetic

namespace Model

/-! ## What a run remembers -/

/-- What a run of a model has to remember. -/
structure Past where
  /-- the values after the last commit or revert, and those given to variables introduced since -/
  safe : Var → DeltaRat := fun _ => 0
  /-- the bounds when each open scope was entered, outermost first -/
  entered : List (Side → Var → Option Bound) := []

/-- What is remembered after an operation that takes one model to another. -/
def Past.note (p : Past) (m m' : Model) : Operation → Past
  | .introduce v _ safe => { p with safe := Function.update p.safe v safe }
  | .commit | .revert => { p with safe := m'.valueOf }
  | .openScope => { p with entered := p.entered ++ [m.boundOf] }
  | .backtrack level => { p with entered := p.entered.take level }
  | _ => p

/-- What is remembered after a sequence of operations. -/
def remember (m : Model) (p : Past) : List Operation → Past
  | [] => p
  | op :: ops =>
    match m.step op with
    | .ok m' => m'.remember (p.note m m' op) ops
    | .error _ => p

/-- The values after an operation. -/
def valuesAfter (m : Model) : Operation → Var → DeltaRat
  | .setValue v x | .introduce v x _ => Function.update m.valueOf v x
  | .revert => m.safeOf
  | _ => m.valueOf

/-- The values of the last commit after an operation. -/
def safeAfter (m : Model) : Operation → Var → DeltaRat
  | .introduce v _ safe => Function.update m.safeOf v safe
  | .commit => m.valueOf
  | _ => m.safeOf

/-- The bounds after an operation. A scope that is left takes with it what was changed in it. -/
def boundsAfter (m : Model) (p : Past) : Operation → Side → Var → Option Bound
  | .setBound side v b => fun s u => if u = v ∧ s = side then some b else m.boundOf s u
  | .backtrack level => (p.entered[level]?).getD m.boundOf
  | _ => m.boundOf

/-- The operation took the one model to the other. -/
structure Took (p : Past) (m : Model) (op : Operation) (m' : Model) : Prop where
  values : m'.valueOf = m.valuesAfter op
  safe : m'.safeOf = m.safeAfter op
  bounds : m'.boundOf = m.boundsAfter p op
  settled : op = .commit ∨ op = .revert → m'.hasUncommitted = false

/-- The model goes by what is remembered. -/
structure Recalls (m : Model) (p : Past) : Prop where
  tracked : m.Tracked
  safe : m.safeOf = p.safe
  level : m.trail.level = p.entered.length
  entered : ∀ n < m.trail.level, p.entered[n]? = some (m.boundsAt n)

theorem Recalls.boundsAt {m : Model} {p : Past} (h : m.Recalls p) {n : Nat}
    (hn : n ≤ m.trail.level) : m.boundsAt n = (p.entered[n]?).getD m.boundOf := by
  rcases Nat.lt_or_eq_of_le hn with hlt | rfl
  · rw [h.entered n hlt, Option.getD_some]
  · rw [boundsAt_level, h.level, List.getElem?_eq_none (Nat.le_refl _), Option.getD_none]

/-- Where neither the bounds nor the trail change, only the remembered values do. -/
theorem Recalls.revalued {m m' : Model} {p : Past} (h : m.Recalls p)
    (hroom : m.numVariables ≤ m'.numVariables) (htrail : m'.trail = m.trail)
    (hbounds : m'.boundOf = m.boundOf) {safe : Var → DeltaRat} (hsafe : m'.safeOf = safe) :
    m'.Recalls { p with safe } where
  tracked c hc := (h.tracked c (htrail ▸ hc)).trans_le hroom
  safe := hsafe
  level := htrail ▸ h.level
  entered n hn := by
    rw [htrail] at hn
    rw [boundsAt_congr htrail hbounds]
    exact h.entered n hn

/-! ## Steps -/

theorem allows_introduce_iff {m : Model} {v : Var} {current safe : DeltaRat} :
    m.allows (.introduce v current safe) = true ↔
      v.id < m.numVariables ∧ m.savedOf v = none := by
  rw [allows, savedOf, look]
  constructor
  · intro h
    obtain ⟨e, he, hsaved⟩ := (Option.any_eq_true _ _).mp h
    exact ⟨Arena.lt_size_of_get? he, by rw [he]; exact Option.isNone_iff_eq_none.mp hsaved⟩
  · rintro ⟨hlt, hsaved⟩
    obtain ⟨e, he⟩ := Arena.get?_isSome hlt
    rw [he] at hsaved ⊢
    exact Option.isNone_iff_eq_none.mpr hsaved

section Step

variable {m : Model} {p : Past} (h : m.Recalls p)

include h

theorem Recalls.setBound {v : Var} (hlt : v.id < m.numVariables) (side : Side) (b : Bound) :
    (m.bounded side v b).Recalls p where
  tracked := (sameBelow_bounded hlt side b).tracked h.tracked
  safe := (safeOf_bounded hlt side b).trans h.safe
  level := h.level
  entered n hn := by
    rw [boundsAt_bounded hlt side b hn]
    exact h.entered n hn

theorem Recalls.openScope :
    m.openScope.Recalls { p with entered := p.entered ++ [m.boundOf] } where
  tracked := h.tracked.openScope
  safe := h.safe
  level := by
    rw [List.length_append, ← h.level]
    exact Trail.level_openScope m.trail
  entered n hn := by
    have hle : n ≤ m.trail.level := Nat.le_of_lt_succ hn
    rw [boundsAt_openScope hle]
    rcases Nat.lt_or_eq_of_le hle with hlt | rfl
    · rw [List.getElem?_append_left (h.level ▸ hlt), h.entered n hlt]
    · rw [boundsAt_level, h.level, List.getElem?_concat_length]

theorem Recalls.backtrack {level : Nat} (hlevel : level ≤ m.trail.level) :
    ∃ m', m.backtrack level = .ok m' ∧ Took p m (.backtrack level) m' ∧
      m'.Recalls { p with entered := p.entered.take level } := by
  obtain ⟨m', hok, _, htrail, hvalues, hsafe, _, hbounds, htracked⟩ :=
    backtrack_spec h.tracked hlevel
  have hlevel' : m'.trail.level = level := by rw [htrail, Trail.level_kept hlevel]
  refine ⟨m', hok, ⟨hvalues, hsafe, hbounds.trans (h.boundsAt hlevel), nofun⟩, htracked,
    hsafe.trans h.safe, ?_, fun n hn => ?_⟩
  · rw [hlevel', List.length_take, ← h.level, Nat.min_eq_left hlevel]
  · rw [hlevel'] at hn
    rw [boundsAt_kept hlevel htrail hbounds hn.le, List.getElem?_take_of_lt hn]
    exact h.entered n (hn.trans_le hlevel)

/-- With its preconditions every operation does what it is for, and what is remembered stays
right. -/
theorem Recalls.step {op : Operation} (hop : m.allows op = true) :
    ∃ m', m.step op = .ok m' ∧ Took p m op m' ∧ m'.Recalls (p.note m m' op) := by
  cases op with
  | ensure v =>
    refine ⟨m.ensure v, rfl,
      ⟨valueOf_ensure v m, safeOf_ensure v m, boundOf_ensure v m, nofun⟩, ?_⟩
    exact h.revalued (by rw [numVariables_ensure]; exact Nat.le_max_left _ _) (trail_ensure v m)
      (boundOf_ensure v m) ((safeOf_ensure v m).trans h.safe)
  | setValue v x =>
    have hlt : v.id < m.numVariables := of_decide_eq_true hop
    have hbounds := boundOf_assigned m v x
    have hsafe := safeOf_assigned hlt x
    refine ⟨m.assigned v x, setValue_eq_ok hlt x,
      ⟨valueOf_assigned hlt x, hsafe, hbounds, nofun⟩, ?_⟩
    exact h.revalued (numVariables_assigned m v x).ge (trail_assigned m v x) hbounds
      (hsafe.trans h.safe)
  | introduce v current safe =>
    obtain ⟨hlt, hsaved⟩ := allows_introduce_iff.mp hop
    obtain ⟨m', hok, hroom, htrail, hvalues, hsafe, hbounds, _⟩ :=
      introduce_spec hlt hsaved current safe
    refine ⟨m', hok, ⟨hvalues, hsafe, hbounds, nofun⟩, ?_⟩
    exact h.revalued hroom.ge htrail hbounds (hsafe.trans (by rw [h.safe]))
  | commit =>
    refine ⟨m.commit, rfl, ⟨valueOf_commit m, safeOf_commit m, boundOf_commit m,
      fun _ => hasUncommitted_eq_false_iff.mpr (committed_commit m)⟩, ?_⟩
    exact h.revalued (numVariables_commit m).ge (trail_commit m) (boundOf_commit m)
      ((safeOf_commit m).trans (valueOf_commit m).symm)
  | revert =>
    refine ⟨m.revert, rfl, ⟨valueOf_revert m, safeOf_revert m, boundOf_revert m,
      fun _ => hasUncommitted_eq_false_iff.mpr (committed_revert m)⟩, ?_⟩
    exact h.revalued (numVariables_revert m).ge (trail_revert m) (boundOf_revert m)
      ((safeOf_revert m).trans (valueOf_revert m).symm)
  | setBound side v b =>
    have hlt : v.id < m.numVariables := of_decide_eq_true hop
    refine ⟨m.bounded side v b, setBound_eq_ok hlt side b, ⟨valueOf_bounded hlt side b,
      safeOf_bounded hlt side b, ?_, nofun⟩, h.setBound hlt side b⟩
    exact funext fun s => funext fun u => boundOf_bounded hlt side b s u
  | openScope => exact ⟨m.openScope, rfl, ⟨rfl, rfl, rfl, nofun⟩, h.openScope⟩
  | backtrack level => exact h.backtrack (of_decide_eq_true hop)

end Step

/-- What was done could be done. -/
theorem allows_of_step {m m' : Model} {op : Operation} (hok : m.step op = .ok m') :
    m.allows op = true := by
  cases op with
  | setValue v x =>
    obtain ⟨e, he, -⟩ := bind_eq_ok.mp hok
    exact decide_eq_true (Arena.lt_size_of_get he)
  | introduce v current safe =>
    obtain ⟨e, he, hok⟩ := bind_eq_ok.mp hok
    have hlt : v.id < m.numVariables := Arena.lt_size_of_get he
    rw [entry_eq_ok hlt] at he
    refine allows_introduce_iff.mpr ⟨hlt, ?_⟩
    rw [savedOf, Except.ok.inj he]
    by_contra hsaved
    rw [if_pos (Option.isSome_iff_ne_none.mpr hsaved)] at hok
    cases hok
  | setBound side v b =>
    obtain ⟨e, he, -⟩ := bind_eq_ok.mp hok
    exact decide_eq_true (Arena.lt_size_of_get he)
  | backtrack level =>
    obtain ⟨r, hr, -⟩ := bind_eq_ok.mp hok
    rw [Trail.backtrack] at hr
    split at hr
    · exact decide_eq_true ‹_›
    · cases hr
  | _ => rfl

/-! ## Listed changes -/

namespace Listed

/-- The model with a list keeps what the other one does, and lists the variables with a saved value,
each once. -/
structure Lists (l : Listed) (m : Model) : Prop where
  byVar : l.byVar = m.byVar
  trail : l.trail = m.trail.flat
  nodup : l.changed.Nodup
  mem_iff : ∀ v, v ∈ l.changed ↔ m.savedOf v ≠ none

variable {l : Listed} {m : Model}

theorem Lists.hasUncommitted (h : l.Lists m) : l.hasUncommitted = m.hasUncommitted := by
  have hnil : l.changed = [] ↔ m.Committed :=
    List.eq_nil_iff_forall_not_mem.trans
      (forall_congr' fun v => (not_congr (h.mem_iff v)).trans not_ne_iff)
  rw [Listed.hasUncommitted, Bool.eq_iff_iff, Bool.not_eq_true', List.isEmpty_eq_false_iff, ne_eq,
    hnil, ← hasUncommitted_eq_false_iff, Bool.not_eq_false]

theorem Lists.get_eq_ok (h : l.Lists m) {v : Var} (hlt : v.id < m.numVariables) :
    l.byVar.get v.id = .ok (m.look v) := by
  rw [h.byVar]
  exact entry_eq_ok hlt

/-- What does not concern saved values does not concern the list. -/
theorem Lists.update (h : l.Lists m) (v : Var) {f : ModelEntry → ModelEntry}
    (hf : ∀ e, (f e).saved = e.saved) : (l.update v f).Lists (m.update v f) where
  byVar := by rw [Listed.update, Model.update, h.byVar]
  trail := h.trail
  nodup := h.nodup
  mem_iff u := by
    rw [savedOf_update hf]
    exact h.mem_iff u

/-- A variable is listed with its first change. -/
theorem Lists.setValue (h : l.Lists m) {v : Var} (hlt : v.id < m.numVariables) (x : DeltaRat) :
    ∃ l', l.setValue v x = .ok l' ∧ l'.Lists (m.assigned v x) := by
  let changed := if (m.look v).saved.isNone then l.changed ++ [v] else l.changed
  have hfirst : (m.look v).saved.isNone = true ↔ m.savedOf v = none := Option.isNone_iff_eq_none
  have hok : l.setValue v x = .ok { l.update v (·.setValue x) with changed } := by
    rw [Listed.setValue, h.get_eq_ok hlt]
    rfl
  refine ⟨_, hok, ?_, h.trail, ?_, fun u => ?_⟩
  · change l.byVar.modify v.id _ = _
    rw [h.byVar]
    rfl
  · simp only [changed, hfirst]
    split
    · rw [← List.concat_eq_append]
      exact List.Nodup.concat (fun hv => (h.mem_iff v).mp hv ‹_›) h.nodup
    · exact h.nodup
  · rw [savedOf_assigned hlt]
    simp only [changed, hfirst]
    by_cases hu : u = v
    · subst hu
      rw [if_pos rfl]
      split
      · simp
      · simpa [h.mem_iff] using ‹_›
    · rw [if_neg hu, ← h.mem_iff]
      split <;> simp [hu]

/-- Changing what is kept for some variables. -/
theorem get?_foldl_update (f : ModelEntry → ModelEntry) {vs : List Var} (h : vs.Nodup) (l : Listed)
    (k : Nat) : (vs.foldl (fun l v => l.update v f) l).byVar.get? k =
      if ⟨k⟩ ∈ vs then (l.byVar.get? k).map f else l.byVar.get? k := by
  induction vs generalizing l with
  | nil => rfl
  | cons v vs ih =>
    obtain ⟨hv, hvs⟩ := List.nodup_cons.mp h
    rw [List.foldl_cons, ih hvs, Listed.update, Arena.get?_modify]
    by_cases hk : k = v.id
    · subst hk
      simp [hv]
    · have hne : (⟨k⟩ : Var) ≠ v := fun h => hk (congrArg Var.id h)
      simp [hk, hne]

/-- Settling the listed variables settles all. -/
theorem Lists.settle (h : l.Lists m) {f : ModelEntry → ModelEntry}
    (hfix : ∀ e, e.saved = none → f e = e) (hsettled : ∀ e, (f e).saved = none) :
    (l.settle f).Lists { m with byVar := m.byVar.map f } where
  byVar := by
    refine Arena.ext_get? fun k => ?_
    change (l.changed.foldl (fun l v => l.update v f) l).byVar.get? k = _
    rw [get?_foldl_update f h.nodup, Arena.get?_map, h.byVar]
    split
    · rfl
    · rename_i hk
      cases he : m.byVar.get? k with
      | none => rfl
      | some e =>
        have hsaved : m.savedOf ⟨k⟩ = none := not_ne_iff.mp fun hs => hk ((h.mem_iff _).mpr hs)
        rw [savedOf, look, he] at hsaved
        exact congrArg some (hfix e hsaved).symm
  trail := by
    have htrail : ∀ (vs : List Var) (l : Listed),
        (vs.foldl (fun l v => l.update v f) l).trail = l.trail := by
      intro vs
      induction vs with
      | nil => exact fun _ => rfl
      | cons v vs ih => exact fun l => ih (l.update v f)
    exact (htrail l.changed l).trans h.trail
  nodup := List.nodup_nil
  mem_iff v := by
    rw [savedOf, look, Arena.get?_map]
    change v ∈ [] ↔ _
    cases m.byVar.get? v.id with
    | none => simp
    | some e => simp [hsettled e]

theorem Lists.undo (cs : List BoundChange) (h : l.Lists m) :
    (cs.foldl (fun l c => l.update c.var (·.setBound c.side c.previous)) l).Lists
      (cs.foldl Model.undo m) := by
  induction cs generalizing l m with
  | nil => exact h
  | cons c cs ih => exact ih (h.update c.var fun e => ModelEntry.saved_setBound e _ _)

/-- A variable that is introduced with two values is listed. -/
theorem Lists.introduce (h : l.Lists m) {v : Var} (hlt : v.id < m.numVariables)
    (hsaved : m.savedOf v = none) {current safe : DeltaRat} {m' : Model}
    (hok : m.introduce v current safe = .ok m') :
    ∃ l', l.introduce v current safe = .ok l' ∧ l'.Lists m' := by
  have hnone : (m.look v).saved.isSome = false := Option.isSome_eq_false_iff.mpr
    (Option.isNone_iff_eq_none.mpr hsaved)
  have h₁ := h.update v (f := fun e => { e with value := safe }) fun _ => rfl
  have hlt₁ : v.id < (m.update v fun e => { e with value := safe }).numVariables := by
    rwa [numVariables_update]
  simp only [Model.introduce, entry_eq_ok hlt, ok_bind, hnone] at hok
  simp only [Listed.introduce, h.get_eq_ok hlt, ok_bind, hnone]
  by_cases hne : current = safe
  · simp only [hne, ne_eq, not_true_eq_false, if_false] at hok ⊢
    obtain rfl := Except.ok.inj hok
    exact ⟨_, rfl, h₁⟩
  · simp only [ne_eq, hne, not_false_eq_true, if_true] at hok ⊢
    obtain rfl := Except.ok.inj ((setValue_eq_ok hlt₁ current).symm.trans hok)
    exact h₁.setValue hlt₁ current

theorem Lists.setBound (h : l.Lists m) {v : Var} (hlt : v.id < m.numVariables) (side : Side)
    (b : Bound) : ∃ l', l.setBound side v b = .ok l' ∧ l'.Lists (m.bounded side v b) := by
  have h₁ := h.update v (f := (·.setBound side (some b))) fun e =>
    ModelEntry.saved_setBound e side (some b)
  have hset : l.setBound side v b = .ok { l.update v (·.setBound side (some b)) with
      trail := l.trail.push ⟨side, v, m.boundOf side v⟩ } := by
    rw [Listed.setBound, h.get_eq_ok hlt]
    rfl
  refine ⟨_, hset, h₁.byVar, ?_, h₁.nodup, h₁.mem_iff⟩
  change l.trail.push _ = _
  rw [h.trail]
  exact (Trail.flat_push _ _).symm

theorem Lists.backtrack (h : l.Lists m) {level : Nat} (hlevel : level ≤ m.trail.level) {m' : Model}
    (hok : m.backtrack level = .ok m') : ∃ l', l.backtrack level = .ok l' ∧ l'.Lists m' := by
  rw [Model.backtrack, Trail.backtrack_eq_ok hlevel] at hok
  obtain rfl := Except.ok.inj hok
  have h₁ : ({ l with trail := (m.trail.kept level).flat } : Listed).Lists
      { m with trail := m.trail.kept level } := ⟨h.byVar, rfl, h.nodup, h.mem_iff⟩
  refine ⟨_, ?_, h₁.undo (m.trail.undone level)⟩
  rw [Listed.backtrack, h.trail, Trail.flat_backtrack, Trail.backtrack_eq_ok hlevel]
  rfl

/-- Every step can be taken with a list of the changed variables. -/
theorem Lists.step (h : l.Lists m) {op : Operation} {m' : Model} (hok : m.step op = .ok m') :
    ∃ l', l.step op = .ok l' ∧ l'.Lists m' := by
  have hop := allows_of_step hok
  cases op with
  | ensure v =>
    obtain rfl := Except.ok.inj hok
    refine ⟨_, rfl, ?_, h.trail, h.nodup, fun u => ?_⟩
    · change l.byVar.ensure v.id {} = _
      rw [h.byVar]
      rfl
    · rw [savedOf, look_ensure]
      exact h.mem_iff u
  | setValue v x =>
    have hlt : v.id < m.numVariables := of_decide_eq_true hop
    obtain rfl := Except.ok.inj ((setValue_eq_ok hlt x).symm.trans hok)
    exact h.setValue hlt x
  | introduce v current safe =>
    obtain ⟨hlt, hsaved⟩ := allows_introduce_iff.mp hop
    exact h.introduce hlt hsaved hok
  | commit =>
    obtain rfl := Except.ok.inj hok
    refine ⟨_, rfl, h.settle (fun e he => ?_) fun _ => rfl⟩
    rw [ModelEntry.commit, ← he]
  | revert =>
    obtain rfl := Except.ok.inj hok
    refine ⟨_, rfl, h.settle (fun e he => ?_) fun _ => rfl⟩
    rw [ModelEntry.revert, ModelEntry.safeValue, he, Option.getD_none, ← he]
  | setBound side v b =>
    have hlt : v.id < m.numVariables := of_decide_eq_true hop
    obtain rfl := Except.ok.inj ((setBound_eq_ok hlt side b).symm.trans hok)
    exact h.setBound hlt side b
  | openScope =>
    obtain rfl := Except.ok.inj hok
    refine ⟨_, rfl, h.byVar, ?_, h.nodup, h.mem_iff⟩
    change l.trail.openScope = _
    rw [h.trail]
    exact (Trail.flat_openScope m.trail).symm
  | backtrack level => exact h.backtrack (of_decide_eq_true hop) hok

theorem Lists.run (h : l.Lists m) {ops : List Operation} {m' : Model}
    (hok : m.run ops = .ok m') : ∃ l', l.run ops = .ok l' ∧ l'.Lists m' := by
  induction ops generalizing l m with
  | nil =>
    obtain rfl := Except.ok.inj hok
    exact ⟨l, rfl, h⟩
  | cons op ops ih =>
    obtain ⟨m₁, hstep, hok⟩ := bind_eq_ok.mp hok
    obtain ⟨l₁, hl, h₁⟩ := h.step hstep
    obtain ⟨l', hrun, h'⟩ := ih h₁ hok
    exact ⟨l', by rw [Listed.run, List.foldlM_cons, hl]; exact hrun, h'⟩

/-- Of the models without variables. -/
theorem lists_start : ({} : Listed).Lists {} where
  byVar := rfl
  trail := rfl
  nodup := List.nodup_nil
  mem_iff v := by
    have hlook : ({} : Model).look v = {} := look_of_ge (Nat.zero_le v.id)
    rw [savedOf, hlook]
    exact iff_of_false List.not_mem_nil (not_not.mpr rfl)

end Listed

/-! ## Runs -/

/-- The model is transactional. It gives back what is remembered, every operation with its
preconditions does what it is for, and without them it has no result. -/
structure Transactional (m : Model) (p : Past) : Prop where
  reads : ∀ v, v.id < m.numVariables → m.value v = .ok (m.valueOf v) ∧
    m.safeValue v = .ok (m.safeOf v) ∧ ∀ side, m.bound side v = .ok (m.boundOf side v)
  safe : m.safeOf = p.safe
  level : m.trail.level = p.entered.length
  took : ∀ op, m.allows op = true → ∃ m', m.step op = .ok m' ∧ Took p m op m'
  faults : ∀ op, m.allows op = false → ∃ f, m.step op = .error f

theorem Recalls.transactional {m : Model} {p : Past} (h : m.Recalls p) : m.Transactional p where
  reads _ hlt := ⟨value_eq_ok hlt, safeValue_eq_ok hlt, bound_eq_ok hlt⟩
  safe := h.safe
  level := h.level
  took op hop := by
    obtain ⟨m', hok, htook, -⟩ := h.step hop
    exact ⟨m', hok, htook⟩
  faults op hop := by
    cases hok : m.step op with
    | error f => exact ⟨f, rfl⟩
    | ok m' =>
      rw [allows_of_step hok] at hop
      cases hop

theorem Recalls.run {ops : List Operation} {m : Model} {p : Past} (h : m.Recalls p)
    (hallows : m.allowsAll ops = true) :
    ∃ m', m.run ops = .ok m' ∧ m'.Recalls (m.remember p ops) := by
  induction ops generalizing m p with
  | nil => exact ⟨m, rfl, h⟩
  | cons op ops ih =>
    rw [allowsAll, Bool.and_eq_true] at hallows
    obtain ⟨m₁, hstep, -, h₁⟩ := h.step hallows.1
    rw [hstep] at hallows
    obtain ⟨m', hrun, h'⟩ := ih h₁ hallows.2
    refine ⟨m', ?_, ?_⟩
    · rw [Model.run, List.foldlM_cons, hstep]
      exact hrun
    · rw [remember, hstep]
      exact h'

theorem allowsAll_of_run {ops : List Operation} {m m' : Model} (hok : m.run ops = .ok m') :
    m.allowsAll ops = true := by
  induction ops generalizing m with
  | nil => rfl
  | cons op ops ih =>
    obtain ⟨m₁, hstep, hrun⟩ := bind_eq_ok.mp hok
    rw [allowsAll, allows_of_step hstep, hstep]
    exact ih hrun

/-- Of the model without variables. -/
theorem recalls_start : ({} : Model).Recalls {} where
  tracked := nofun
  safe := rfl
  level := rfl
  entered := nofun

/-- A sequence of operations has a result exactly if every operation is met with its preconditions.
Then the model is transactional, and a model with a list of changed variables has the same values,
bounds and uncommitted changes. -/
theorem transactional_of_run (ops : List Operation) :
    ({} : Model).allowsAll ops = true ↔
      ∃ m, ({} : Model).run ops = .ok m ∧ m.Transactional (({} : Model).remember {} ops) ∧
        ∃ l, ({} : Listed).run ops = .ok l ∧ l.Lists m ∧ l.hasUncommitted = m.hasUncommitted := by
  constructor
  · intro hallows
    obtain ⟨m, hrun, h⟩ := recalls_start.run hallows
    obtain ⟨l, hl, hlists⟩ := Listed.lists_start.run hrun
    exact ⟨m, hrun, h.transactional, l, hl, hlists, hlists.hasUncommitted⟩
  · rintro ⟨m, hrun, -⟩
    exact allowsAll_of_run hrun

/-- `v0` changes twice after the commit, `v1` is introduced in between, and the bound of `v0`
changes twice in the scope that is left. -/
example :
    let (v0, v1) := ((⟨0⟩, ⟨1⟩) : Var × Var)
    (({} : Model).run
      [.ensure v1, .setValue v0 (.ofRat 3), .commit, .setValue v0 (.ofRat 4),
        .introduce v1 (.ofRat 1) (.ofRat 2), .setValue v0 (.ofRat 5),
        .setBound .lower v0 ⟨.ofRat 1, ⟨0⟩⟩, .openScope, .setBound .lower v0 ⟨.ofRat 4, ⟨1⟩⟩,
        .setBound .lower v0 ⟨.ofRat 6, ⟨2⟩⟩, .revert, .backtrack 0]).map
      (fun m => (m.valueOf v0, m.valueOf v1, m.boundOf .lower v0, m.hasUncommitted)) =
    .ok (.ofRat 3, .ofRat 2, some ⟨.ofRat 1, ⟨0⟩⟩, false) := by
  decide +kernel

end Model

end LinearArithmetic
