import LinearArithmetic.Database.ProofLog
import LinearArithmetic.Proofs.Regularity

/-!
# The derivations of a run

Marking a constraint as following from others is a derivation, which is in force until the scope it
was made in is left. Which derivations are in force can be told from the operations alone, and the
stored proofs are exactly those. If antecedents are known to hold when they are given, every
derivation in force rests on earlier ones that are in force too.
-/

namespace LinearArithmetic

/-- The constraints that a change makes known to hold. -/
def ConstraintChange.proven : ConstraintChange → List ConstraintId
  | proof c => [c]
  | _ => []

namespace Database

/-- A constraint that was marked, and the constraints that it was to follow from. -/
abbrev Derivation := ConstraintId × List ConstraintId

/-- The derivations in force after an operation. -/
def Operation.derive (ds : Trail Derivation) : Operation → Trail Derivation
  | mark c as => ds.push (c, as)
  | markAsserted c _ => ds.push (c, [])
  | openScope => ds.openScope
  | backtrack level => ds.kept level
  | _ => ds

/-- The derivations that a sequence of operations leaves in force. -/
def derivations (ops : List Operation) : Trail Derivation := ops.foldl Operation.derive {}

/-- Each derivation of a list, newest first, derives something new from what was derived before. -/
inductive Founded : List Derivation → Prop
  | nil : Founded []
  | cons {c : ConstraintId} {as : List ConstraintId} {ds : List Derivation}
      (new : c ∉ ds.map Prod.fst) (old : ∀ a ∈ as, a ∈ ds.map Prod.fst) (rest : Founded ds) :
      Founded ((c, as) :: ds)

/-! ## Looking up what is assigned to constraints -/

section Lookup

variable {α : Type}

theorem lookup_cons_eq (c d : ConstraintId) (x : α) (xs : List (ConstraintId × α)) :
    List.lookup d ((c, x) :: xs) = if d = c then some x else xs.lookup d := by
  rw [List.lookup_cons]
  by_cases hd : d = c
  · rw [if_pos hd, beq_iff_eq.mpr hd]
  · rw [if_neg hd, beq_eq_false_iff_ne.mpr hd]

theorem lookup_ne_none_iff {xs : List (ConstraintId × α)} {c : ConstraintId} :
    xs.lookup c ≠ none ↔ c ∈ xs.map Prod.fst := by
  induction xs with
  | nil => simp
  | cons x xs ih =>
    rw [lookup_cons_eq, List.map_cons, List.mem_cons]
    split
    · rename_i hc
      exact ⟨fun _ => .inl hc, fun _ => Option.some_ne_none _⟩
    · rename_i hc
      rw [ih, or_iff_right hc]

/-- Undoing changes drops what was assigned because of them. -/
theorem foldl_forget {undone : List ConstraintChange} {xs ys : List (ConstraintId × α)}
    (hundone : undone.flatMap ConstraintChange.proven = xs.map Prod.fst)
    (hnodup : ((xs ++ ys).map Prod.fst).Nodup) :
    undone.foldl forget (fun c => (xs ++ ys).lookup c) = fun c => ys.lookup c := by
  induction undone generalizing xs with
  | nil =>
    obtain rfl := List.map_eq_nil_iff.mp hundone.symm
    rfl
  | cons x undone ih =>
    rw [List.foldl_cons]
    cases x with
    | proof c =>
      obtain ⟨⟨d, v⟩, xs', rfl, rfl, hxs⟩ := List.map_eq_cons_iff.mp hundone.symm
      obtain ⟨hnew, hnodup⟩ := List.nodup_cons.mp hnodup
      rw [← ih hxs.symm hnodup]
      congr 1
      funext e
      simp only [forget, List.cons_append, lookup_cons_eq]
      split
      · rename_i hed
        rw [hed]
        exact (not_not.mp (mt lookup_ne_none_iff.mp hnew)).symm
      · rfl
    | preregistered c => exact ih hundone hnodup
    | split c => exact ih hundone hnodup

end Lookup

/-! ## What derivations rest on -/

theorem Founded.nodup {ds : List Derivation} (h : Founded ds) : (ds.map Prod.fst).Nodup := by
  induction h with
  | nil => exact List.nodup_nil
  | cons new old rest ih => exact List.nodup_cons.mpr ⟨new, ih⟩

theorem Founded.of_append {ds es : List Derivation} (h : Founded (ds ++ es)) : Founded es := by
  induction ds with
  | nil => exact h
  | cons d ds ih =>
    cases h with
    | cons new old rest => exact ih rest

theorem Founded.lookup_eq_some_iff {ds : List Derivation} (h : Founded ds) {c : ConstraintId}
    {as : List ConstraintId} : ds.lookup c = some as ↔ (c, as) ∈ ds := by
  induction h with
  | nil => simp
  | @cons d bs ds new old rest ih =>
    rw [lookup_cons_eq, List.mem_cons, Prod.mk.injEq]
    by_cases hc : c = d
    · have hnot : (c, as) ∉ ds := fun hmem => new (hc ▸ List.mem_map_of_mem hmem)
      rw [if_pos hc, Option.some.injEq, or_iff_left hnot, and_iff_right hc, eq_comm]
    · rw [if_neg hc, ih, or_iff_right fun heq => hc heq.1]

/-- Antecedents have been derived. -/
theorem Founded.derived {ds : List Derivation} (h : Founded ds) {c a : ConstraintId}
    {as : List ConstraintId} (hc : (c, as) ∈ ds) (ha : a ∈ as) : a ∈ ds.map Prod.fst := by
  induction h with
  | nil => cases hc
  | cons new old rest ih =>
    rcases List.mem_cons.mp hc with heq | hmem
    · obtain ⟨rfl, rfl⟩ := Prod.mk.inj heq
      exact List.mem_cons_of_mem _ (old a ha)
    · exact List.mem_cons_of_mem _ (ih hmem)

/-! ## Operations that derive nothing -/

variable {db db' : Database}

/-- Nothing comes to be known to hold, and nothing known is forgotten. -/
structure Quiet (db db' : Database) : Prop where
  changes : db'.changes.flatMap ConstraintChange.proven =
    db.changes.flatMap ConstraintChange.proven
  proofs : ∀ c, (db'.marksOf c).proof = (db.marksOf c).proof

theorem Quiet.refl (db : Database) : Quiet db db := ⟨rfl, fun _ => rfl⟩

theorem Quiet.trans {db₁ db₂ db₃ : Database} (h : Quiet db₁ db₂) (k : Quiet db₂ db₃) :
    Quiet db₁ db₃ :=
  ⟨k.changes.trans h.changes, fun c => (k.proofs c).trans (h.proofs c)⟩

theorem quiet_of_eq (hchanges : db'.changes = db.changes) (hmarks : db'.marksOf = db.marksOf) :
    Quiet db db' := ⟨by rw [hchanges], fun c => by rw [hmarks]⟩

theorem Indexed.quiet_obtain (h : db.Indexed) {s : Statement} {c : ConstraintId}
    (hok : db.obtain s = .ok (db', c)) : Quiet db db' := by
  cases hneg : s.negation? with
  | none =>
    rw [Database.obtain, hneg] at hok
    split at hok
    · cases hok
      exact .refl db
    · cases hok
  | some t =>
    rcases h.obtain_spec hneg with ⟨d, _, hok'⟩ | ⟨_, db₁, d, e, hok', hp⟩
    · obtain ⟨rfl, rfl⟩ := Prod.mk.inj (Except.ok.inj (hok.symm.trans hok'))
      exact .refl db'
    · obtain ⟨rfl, rfl⟩ := Prod.mk.inj (Except.ok.inj (hok.symm.trans hok'))
      exact quiet_of_eq hp.changes (hp.grown hneg).marksOf

theorem Indexed.quiet_addAtom (h : db.Indexed) {a : Term} {s : Statement} {c : ConstraintId}
    (hok : db.addAtom a s = .ok (db', c)) : Quiet db db' := by
  obtain ⟨⟨db₁, d⟩, hok₁, hok⟩ := bind_eq_ok.mp hok
  obtain ⟨k, _, hok⟩ := bind_eq_ok.mp hok
  obtain ⟨rfl, rfl⟩ := Prod.mk.inj (Except.ok.inj hok)
  refine (h.quiet_obtain hok₁).trans (quiet_of_eq ?_ ?_)
  · rw [changes_attach, changes_attach]
  · rw [marksOf_attach, marksOf_attach]

/-- A flag of a stored constraint. -/
theorem quiet_flag {c : ConstraintId} {k : Constraint} (hc : db.stored c = some k)
    {f : Constraint → Constraint} (hf : (f k).proof = k.proof) {x : ConstraintChange}
    (hx : x.proven = []) :
    Quiet db { db.update c f with changes := db.changes.push x } where
  changes := by
    change (db.changes.push x).flatMap ConstraintChange.proven = _
    rw [Trail.flatMap_push, hx]
    rfl
  proofs d := by
    change ((db.update c f).marksOf d).proof = _
    rw [marksOf_update hc]
    by_cases hd : d = c
    · rw [hd, Function.update_self, marksOf_of_stored hc]
      exact hf
    · rw [Function.update_of_ne hd]

theorem quiet_setSplit {c : ConstraintId} (hok : db.setSplit c = .ok db') : Quiet db db' := by
  obtain ⟨k, hget, hok⟩ := bind_eq_ok.mp hok
  split at hok
  · cases hok
    exact .refl db
  · cases hok
    exact quiet_flag (stored_of_get_eq_ok hget) rfl rfl

theorem quiet_split {c : ConstraintId} {t : Trichotomy} (hok : db.split c = .ok (db', t)) :
    Quiet db db' := by
  obtain ⟨k, db₁, _, hok₁, hok₂⟩ := setSplit_of_split hok
  exact (quiet_setSplit hok₁).trans (quiet_setSplit hok₂)

theorem Indexed.quiet_preregister (h : db.Indexed) {c : ConstraintId}
    (hok : db.preregister c = .ok db') : Quiet db db' := by
  obtain ⟨k, l, hc, hl, _, _, rfl⟩ := h.setPreregistered_of_preregister hok
  exact (quiet_flag hc rfl rfl).trans (quiet_flag hl rfl rfl)

/-! ## The stored proofs -/

/-- The proofs that are stored are the derivations in force, scope by scope. -/
structure Tracks (db : Database) (ds : Trail Derivation) : Prop where
  scopes : db.changes.flatMap ConstraintChange.proven = ds.flatMap fun d => [d.1]
  proofs : ∀ c, (db.marksOf c).proof = ds.newestFirst.lookup c
  founded : Founded ds.newestFirst

variable {ds : Trail Derivation}

theorem Tracks.level (h : db.Tracks ds) : ds.level = db.changes.level := by
  have hlevel := congrArg Trail.level h.scopes
  rw [Trail.level_flatMap, Trail.level_flatMap] at hlevel
  exact hlevel.symm

/-- The changes of the scopes that are left proved what was derived in them. -/
theorem Tracks.undone (h : db.Tracks ds) (n : Nat) :
    (db.changes.undone n).flatMap ConstraintChange.proven = (ds.undone n).map Prod.fst := by
  rw [← Trail.undone_flatMap, h.scopes, Trail.undone_flatMap, List.map_eq_flatMap]

theorem stored_of_proof {c : ConstraintId} {as : List ConstraintId}
    (h : (db.marksOf c).proof = some as) : ∃ k, db.stored c = some k ∧ k.proof = some as := by
  cases hc : db.stored c with
  | none =>
    rw [marksOf_eq_of_unstored hc] at h
    cases h
  | some k =>
    rw [marksOf_of_stored hc] at h
    exact ⟨k, rfl, h⟩

theorem hasProof_iff {c : ConstraintId} :
    db.hasProof c = .ok true ↔ (db.marksOf c).proof ≠ none := by
  cases hc : db.stored c with
  | none =>
    have hget : db.get c = .error (.outOfRange c.index) := by
      rw [Database.get, Arena.get, show db.constraints.get? c.index = none from hc]
    rw [marksOf_eq_of_unstored hc, Database.hasProof, hget]
    exact ⟨fun h => (by cases h), fun h => absurd rfl h⟩
  | some k =>
    rw [hasProof_eq_ok hc, marksOf_of_stored hc, Except.ok.injEq, Option.isSome_iff_ne_none]
    rfl

theorem Tracks.hasProof_iff (h : db.Tracks ds) {c : ConstraintId} :
    db.hasProof c = .ok true ↔ c ∈ ds.newestFirst.map Prod.fst := by
  rw [Database.hasProof_iff, h.proofs, lookup_ne_none_iff]

theorem Tracks.quiet (h : db.Tracks ds) (hq : Quiet db db') : db'.Tracks ds :=
  ⟨hq.changes.trans h.scopes, fun c => (hq.proofs c).trans (h.proofs c), h.founded⟩

theorem Tracks.marked (h : db.Tracks ds) {c : ConstraintId} {as : List ConstraintId}
    (hm : Marked c as db db') (has : ∀ a ∈ as, db.hasProof a = .ok true) :
    db'.Tracks (ds.push (c, as)) where
  scopes := by
    rw [hm.changes, Trail.flatMap_push, Trail.flatMap_push, h.scopes]
    rfl
  proofs d := by
    obtain ⟨a, hmarks⟩ := hm.marks
    change _ = List.lookup d ((c, as) :: ds.newestFirst)
    rw [hmarks, lookup_cons_eq]
    by_cases hd : d = c
    · rw [hd, Function.update_self, if_pos rfl]
    · rw [Function.update_of_ne hd, if_neg hd, h.proofs]
  founded := by
    obtain ⟨k, l, hc, hp, _⟩ := hm.unknown
    have hnew : ds.newestFirst.lookup c = none := by
      rw [← h.proofs, marksOf_of_stored hc]
      exact hp
    exact .cons (fun hmem => lookup_ne_none_iff.mpr hmem hnew)
      (fun a ha => h.hasProof_iff.mp (has a ha)) h.founded

theorem Tracks.openScope (h : db.Tracks ds) : db.openScope.Tracks ds.openScope where
  scopes := congrArg Trail.openScope h.scopes
  proofs c := by
    rw [Trail.newestFirst_openScope]
    exact h.proofs c
  founded := by
    rw [Trail.newestFirst_openScope]
    exact h.founded

theorem proof_undoMark (m : ConstraintId → Marks) (x : ConstraintChange) :
    (fun c => (undoMark m x c).proof) = forget (fun c => (m c).proof) x := by
  funext c
  cases x with
  | proof d =>
    simp only [undoMark, forget, Function.update_apply]
    split <;> rfl
  | preregistered d =>
    simp only [undoMark, forget, Function.update_apply]
    split
    · rename_i hc
      rw [hc]
    · rfl
  | split d =>
    simp only [undoMark, forget, Function.update_apply]
    split
    · rename_i hc
      rw [hc]
    · rfl

theorem proof_foldl_undoMark (xs : List ConstraintChange) (m : ConstraintId → Marks) :
    (fun c => (xs.foldl undoMark m c).proof) = xs.foldl forget fun c => (m c).proof := by
  induction xs generalizing m with
  | nil => rfl
  | cons x xs ih => rw [List.foldl_cons, ih, proof_undoMark, List.foldl_cons]

theorem Tracks.backtrack (h : db.Tracks ds) {n : Nat} (hok : db.backtrack n = .ok db') :
    db'.Tracks (ds.kept n) := by
  obtain ⟨db₁, hok₁, _, hchanges, hmarks⟩ := backtrack_spec (level_of_backtrack hok)
  obtain rfl := Except.ok.inj (hok.symm.trans hok₁)
  have hfounded := h.founded
  rw [← Trail.undone_append_newestFirst n ds] at hfounded
  refine ⟨?_, fun c => ?_, hfounded.of_append⟩
  · rw [hchanges, ← Trail.kept_flatMap, h.scopes, Trail.kept_flatMap]
  · have hproofs : (fun c => (db.marksOf c).proof) = fun c =>
        (ds.undone n ++ (ds.kept n).newestFirst).lookup c := by
      funext c
      rw [h.proofs, Trail.undone_append_newestFirst]
    rw [hmarks]
    exact congrFun ((proof_foldl_undoMark _ _).trans
      (hproofs ▸ foldl_forget (h.undone n) hfounded.nodup)) c

/-! ## Sequences of operations -/

theorem hasProof_of_admits {c : ConstraintId} {as : List ConstraintId}
    (h : db.admits (.mark c as) = true) {a : ConstraintId} (ha : a ∈ as) :
    db.hasProof a = .ok true := by
  have hall := List.all_eq_true.mp h a ha
  split at hall
  · assumption
  · cases hall

theorem Tracks.step (h : db.Tracks ds) (horderly : db.Orderly) {op : Operation}
    (hop : db.admits op = true) (hok : db.step op = .ok db') : db'.Tracks (op.derive ds) := by
  cases op with
  | obtain s =>
    obtain ⟨⟨db₁, c⟩, hok₁, hok⟩ := bind_eq_ok.mp hok
    cases hok
    exact h.quiet (horderly.quiet_obtain hok₁)
  | addLiteral t classified =>
    obtain ⟨r, hok₁, hok⟩ := bind_eq_ok.mp hok
    cases r with
    | ok r =>
      cases hok
      obtain ⟨s, d, hadd⟩ := addAtom_of_addLiteral hok₁
      exact h.quiet (horderly.quiet_addAtom hadd)
    | error e =>
      cases hok
      exact h
  | addAtom a s =>
    obtain ⟨⟨db₁, c⟩, hok₁, hok⟩ := bind_eq_ok.mp hok
    cases hok
    exact h.quiet (horderly.quiet_addAtom hok₁)
  | mark c as =>
    exact h.marked (horderly.marked_of_mark hok) fun a ha => hasProof_of_admits hop ha
  | markAsserted c t =>
    exact h.marked (horderly.marked_of_markAsserted hok) (List.forall_mem_nil _)
  | split c =>
    obtain ⟨⟨db₁, t⟩, hok₁, hok⟩ := bind_eq_ok.mp hok
    cases hok
    exact h.quiet (quiet_split hok₁)
  | preregister c => exact h.quiet (horderly.quiet_preregister hok)
  | collect =>
    obtain ⟨⟨db₁, n⟩, hok₁, hok⟩ := bind_eq_ok.mp hok
    cases hok
    have hp := (horderly.pruned hok₁).2.1
    exact h.quiet (quiet_of_eq hp.changes hp.marksOf)
  | openScope =>
    cases hok
    exact h.openScope
  | backtrack n => exact h.backtrack hok

theorem tracks_start (b : Bool) : ({ debugChecks := b } : Database).Tracks {} :=
  ⟨rfl, fun _ => rfl, .nil⟩

end Database

end LinearArithmetic
