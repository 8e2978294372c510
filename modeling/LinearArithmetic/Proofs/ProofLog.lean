import LinearArithmetic.Proofs.Derivations
import LinearArithmetic.Proofs.Explanation

/-!
# Reading the log of proofs

The log holds the derivations in force, one after the other, and the proof of a constraint is the
position at which its derivation ends. So what is read from there are the antecedents that the
constraint was marked with, also where positions have been used before in scopes that were left.
-/

namespace LinearArithmetic

open Database

/-- The entries of a derivation, newest first. -/
def ProofLog.entriesOf (d : Derivation) : List (Option ConstraintId) :=
  (d.2.map some).reverse ++ [none]

/-- The positions at which derivations end, newest first. -/
def ProofLog.places : List Derivation → List (ConstraintId × ProofId)
  | [] => []
  | (c, as) :: ds => (c, ⟨(ds.flatMap entriesOf).length + as.length⟩) :: places ds

namespace ProofLog

/-! ## Positions -/

theorem keys_places (ds : List Derivation) :
    (places ds).map Prod.fst = ds.map Prod.fst := by
  induction ds with
  | nil => rfl
  | cons d ds ih => rw [places, List.map_cons, ih, List.map_cons]

/-- Later derivations do not move the earlier ones. -/
theorem places_append (ds es : List Derivation) :
    ∃ ps, places (ds ++ es) = ps ++ places es ∧ ps.map Prod.fst = ds.map Prod.fst := by
  induction ds with
  | nil => exact ⟨[], rfl, rfl⟩
  | cons d ds ih =>
    obtain ⟨ps, hps, hkeys⟩ := ih
    refine ⟨(d.1, ⟨((ds ++ es).flatMap entriesOf).length + d.2.length⟩) :: ps, ?_, ?_⟩
    · rw [List.cons_append, places, hps, List.cons_append]
    · rw [List.map_cons, hkeys, List.map_cons]

theorem lookup_places {ds : List Derivation} {c : ConstraintId} {as : List ConstraintId}
    (h : ds.lookup c = some as) :
    ∃ newer older, ds = newer ++ (c, as) :: older ∧
      (places ds).lookup c = some ⟨(older.flatMap entriesOf).length + as.length⟩ := by
  induction ds with
  | nil => cases h
  | cons d ds ih =>
    obtain ⟨e, bs⟩ := d
    rw [lookup_cons_eq] at h
    by_cases hc : c = e
    · rw [if_pos hc, Option.some.injEq] at h
      subst hc h
      exact ⟨[], ds, rfl, by rw [places, lookup_cons_eq, if_pos rfl]⟩
    · rw [if_neg hc] at h
      obtain ⟨newer, older, rfl, hplace⟩ := ih h
      exact ⟨(e, bs) :: newer, older, rfl, by rw [places, lookup_cons_eq, if_neg hc, hplace]⟩

/-! ## Reading and recording -/

theorem upToMarker_map_some (cs : List ConstraintId) (entries : List (Option ConstraintId)) :
    upToMarker (cs.map some ++ none :: entries) = cs := by
  induction cs with
  | nil => rfl
  | cons c cs ih => rw [List.map_cons, List.cons_append, upToMarker, ih]

/-- At the end of a derivation its antecedents are read, whatever comes after it. -/
theorem antecedents_eq_ok {log : ProofLog} {ds : Trail Derivation}
    (hlog : log.entries = ds.flatMap entriesOf) {newer older : List Derivation} {c : ConstraintId}
    {as : List ConstraintId} (hds : ds.newestFirst = newer ++ (c, as) :: older) :
    log.antecedents ⟨(older.flatMap entriesOf).length + as.length⟩ = .ok as.reverse := by
  let run := entriesOf (c, as) ++ older.flatMap entriesOf
  have hlist : log.entries.toList = run.reverse ++ (newer.flatMap entriesOf).reverse := by
    rw [Trail.toList, hlog, Trail.newestFirst_flatMap, hds, List.flatMap_append, List.flatMap_cons,
      List.reverse_append]
  have hlength : (older.flatMap entriesOf).length + as.length + 1 = run.reverse.length := by
    simp only [run, entriesOf, List.length_reverse, List.length_append, List.length_map,
      List.length_singleton]
    omega
  have hlt : (older.flatMap entriesOf).length + as.length < log.entries.toList.length := by
    rw [hlist, List.length_append]
    omega
  rw [antecedents, if_pos hlt, hlist, hlength, List.take_left, List.reverse_reverse]
  have hrun : run = as.reverse.map some ++ none :: older.flatMap entriesOf := by
    simp only [run, entriesOf, List.map_reverse, List.append_assoc, List.singleton_append]
  rw [hrun, upToMarker_map_some]

/-- Recording a proof appends the entries of its derivation. -/
theorem entries_record {log : ProofLog} {ds : Trail Derivation}
    (hlog : log.entries = ds.flatMap entriesOf) (c : ConstraintId) (as : List ConstraintId) :
    (log.record as).1.entries = (ds.push (c, as)).flatMap entriesOf := by
  rw [Trail.flatMap_push, entriesOf, List.foldr_append, List.foldr_reverse, List.foldl_map, ← hlog]
  rfl

/-- A proof goes by the position at which its derivation ends. -/
theorem index_record {log : ProofLog} {ds : Trail Derivation}
    (hlog : log.entries = ds.flatMap entriesOf) (c : ConstraintId) (as : List ConstraintId) :
    (log.record as).2 = ⟨(ds.newestFirst.flatMap entriesOf).length + as.length⟩ := by
  have hlength : (log.record as).1.entries.toList.length =
      (ds.newestFirst.flatMap entriesOf).length + as.length + 1 := by
    rw [entries_record hlog c as, Trail.toList, List.length_reverse, Trail.newestFirst_flatMap]
    change (((c, as) :: ds.newestFirst).flatMap entriesOf).length = _
    simp only [List.flatMap_cons, entriesOf, List.length_append, List.length_reverse,
      List.length_map, List.length_singleton]
    omega
  change ProofId.mk ((log.record as).1.entries.toList.length - 1) = _
  rw [hlength]
  rfl

end ProofLog

namespace Database.Logged

open ProofLog

/-! ## Runs with a log -/

/-- The log holds the derivations in force, and proofs go by the positions of these. -/
structure Tracks (l : Logged) (ds : Trail Derivation) : Prop where
  db : l.db.Tracks ds
  entries : l.log.entries = ds.flatMap entriesOf
  proofs : ∀ c, l.proofs c = (places ds.newestFirst).lookup c

variable {l : Logged} {ds : Trail Derivation}

theorem Tracks.record (h : l.Tracks ds) {db' : Database} {c : ConstraintId}
    {as : List ConstraintId} (hdb : db'.Tracks (ds.push (c, as))) :
    ({ l.record c as with db := db' } : Logged).Tracks (ds.push (c, as)) where
  db := hdb
  entries := entries_record h.entries c as
  proofs d := by
    change (if d = c then some (l.log.record as).2 else l.proofs d) = _
    rw [index_record h.entries c as, h.proofs]
    exact (lookup_cons_eq c d _ _).symm

theorem Tracks.backtrack (h : l.Tracks ds) {db' : Database} {n : Nat}
    (hdb : db'.Tracks (ds.kept n)) :
    (⟨db', ⟨l.log.entries.kept n⟩, (l.db.changes.undone n).foldl forget l.proofs⟩ : Logged).Tracks
      (ds.kept n) where
  db := hdb
  entries := by rw [h.entries, Trail.kept_flatMap]
  proofs c := by
    -- the positions of the derivations that stay do not depend on those that are dropped
    obtain ⟨ps, hps, hkeys⟩ := places_append (ds.undone n) (ds.kept n).newestFirst
    have hproofs : l.proofs = fun c => (ps ++ places (ds.kept n).newestFirst).lookup c := by
      funext c
      rw [h.proofs, ← hps, Trail.undone_append_newestFirst]
    have hnodup : ((ps ++ places (ds.kept n).newestFirst).map Prod.fst).Nodup := by
      rw [← hps, keys_places, Trail.undone_append_newestFirst]
      exact h.db.founded.nodup
    exact congrFun (hproofs ▸ foldl_forget ((h.db.undone n).trans hkeys.symm) hnodup) c

/-- The database can take every step together with its log. -/
theorem Tracks.step (h : l.Tracks ds) (horderly : l.db.Orderly) {op : Operation}
    (hop : l.db.admits op = true) {db' : Database} (hok : l.db.step op = .ok db') :
    ∃ l', l.step op = .ok l' ∧ l'.db = db' ∧ l'.Tracks (op.derive ds) := by
  have hdb := h.db.step horderly hop hok
  cases op with
  | mark c as =>
    exact ⟨{ l.record c as with db := db' }, by rw [Logged.step, hok]; rfl, rfl, h.record hdb⟩
  | markAsserted c t =>
    exact ⟨{ l.record c [] with db := db' }, by rw [Logged.step, hok]; rfl, rfl, h.record hdb⟩
  | openScope =>
    refine ⟨{ l with db := db', log := l.log.openScope }, by rw [Logged.step, hok]; rfl, rfl, hdb,
      congrArg Trail.openScope h.entries, ?_⟩
    exact h.proofs
  | backtrack n =>
    have hn := level_of_backtrack hok
    have hlog : n ≤ l.log.entries.level := by
      rw [h.entries, Trail.level_flatMap, h.db.level]
      exact hn
    refine ⟨_, ?_, rfl, h.backtrack hdb⟩
    rw [Logged.step, hok, ok_bind]
    simp only [Trail.backtrack_eq_ok hn, ok_bind, ProofLog.backtrack, Trail.backtrack_eq_ok hlog]
    rfl
  | _ => exact ⟨{ l with db := db' }, by rw [Logged.step, hok]; rfl, rfl, hdb, h.entries, h.proofs⟩

theorem Tracks.run {ops : List Operation} {l : Logged} {ds : Trail Derivation} (h : l.Tracks ds)
    (horderly : l.db.Orderly) (hops : l.db.admitsAll ops = true) {db' : Database}
    (hok : l.db.run ops = .ok db') :
    ∃ l', l.run ops = .ok l' ∧ l'.db = db' ∧ l'.Tracks (ops.foldl Operation.derive ds) := by
  induction ops generalizing l ds with
  | nil =>
    cases hok
    exact ⟨l, rfl, rfl, h⟩
  | cons op ops ih =>
    obtain ⟨db₁, hok₁, hok⟩ := bind_eq_ok.mp hok
    obtain ⟨hop, hrest⟩ := Bool.and_eq_true_iff.mp hops
    rw [hok₁] at hrest
    obtain ⟨l₁, hstep, rfl, h₁⟩ := h.step horderly hop hok₁
    obtain ⟨l', hrun, hdb, h'⟩ := ih h₁ (horderly.step hok₁) hrest hok
    exact ⟨l', by rw [Logged.run, List.foldlM_cons, hstep]; exact hrun, hdb, h'⟩

/-! ## Explanations -/

/-- The log gives back the antecedents of a constraint, newest first. -/
theorem Tracks.read (h : l.Tracks ds) {c : ConstraintId} {as : List ConstraintId}
    (hc : (l.db.marksOf c).proof = some as) :
    ∃ p, l.proofs c = some p ∧ l.log.antecedents p = .ok as.reverse := by
  obtain ⟨newer, older, hds, hplace⟩ := lookup_places ((h.db.proofs c).symm.trans hc)
  exact ⟨_, (h.proofs c).trans hplace, antecedents_eq_ok h.entries hds⟩

theorem Tracks.proofs_eq_none (h : l.Tracks ds) {c : ConstraintId}
    (hc : (l.db.marksOf c).proof = none) : l.proofs c = none := by
  rw [h.db.proofs] at hc
  rw [h.proofs]
  by_contra hne
  rw [← ne_eq, lookup_ne_none_iff, keys_places, ← lookup_ne_none_iff] at hne
  exact hne hc

/-- A walk that reads the log goes through the same constraints as one through stored proofs. -/
theorem Tracks.walk_eq (h : l.Tracks ds) (n : Nat) (todo visited leaves : List ConstraintId) :
    l.walk n todo visited leaves = l.db.walk n todo visited leaves := by
  induction n generalizing todo visited leaves with
  | zero => cases todo <;> rfl
  | succ n ih =>
    cases todo with
    | nil => rfl
    | cons c todo =>
      rw [Logged.walk]
      by_cases hvisited : visited.contains c = true
      · rw [if_pos hvisited, Database.walk, if_pos hvisited]
        exact ih todo visited leaves
      · rw [if_neg hvisited]
        cases hget : l.db.get c with
        | error f =>
          rw [Database.walk, if_neg hvisited, hget]
          rfl
        | ok k =>
          have hk := stored_of_get_eq_ok hget
          have hmarks := congrArg Marks.proof (marksOf_of_stored hk)
          rw [ok_bind]
          cases hproof : k.proof with
          | none =>
            rw [Database.walk, if_neg hvisited, hget, h.proofs_eq_none (hmarks.trans hproof),
              ok_bind, hproof]
          | some as =>
            obtain ⟨p, hp, hread⟩ := h.read (hmarks.trans hproof)
            have hgrown : as.reverse.foldl (fun stack a => a :: stack) todo = as ++ todo := by
              rw [List.foldl_reverse, List.foldr_cons_eq_append]
              exact congrArg (· ++ todo) (List.map_id' as)
            have hlength : (as ++ todo).length = todo.length ↔ as = [] := by
              rw [List.length_append, ← List.length_eq_zero_iff]
              omega
            have hnew : c ∉ visited := fun hmem => hvisited (List.contains_iff_mem.mpr hmem)
            rw [walk_of_proof hk hproof hnew, hp]
            simp only [hread, ok_bind, hgrown, hlength, ih]

theorem Tracks.explanation_eq (h : l.Tracks ds) (cs : List ConstraintId) :
    l.explanation cs = l.db.explanation cs := h.walk_eq _ _ _ _

end Database.Logged

end LinearArithmetic
