import LinearArithmetic.Proofs.ProofLog
import Mathlib.Algebra.BigOperators.Fin
import Mathlib.Logic.Relation

/-!
# Explanations are exact

An explanation holds exactly the self-explaining constraints that antecedents lead to. The walk for
it visits what can be reached and nothing else, whatever the antecedents are. That what it finds
entails what was to be explained rests on the order of the derivations: antecedents come first, so
every chain of them ends at a constraint that explains itself.
-/

namespace LinearArithmetic.Database

/-- The second constraint is an antecedent of the first one. -/
def Cites (ds : List Derivation) (c a : ConstraintId) : Prop := ∃ as, (c, as) ∈ ds ∧ a ∈ as

/-- A constraint of the list is the given one, or rests on it through its antecedents. -/
def Reaches (ds : List Derivation) (cs : List ConstraintId) (e : ConstraintId) : Prop :=
  ∃ c ∈ cs, Relation.ReflTransGen (Cites ds) c e

section Reaches

variable {ds : List Derivation} {cs : List ConstraintId}

theorem reaches_of_mem {c : ConstraintId} (hc : c ∈ cs) : Reaches ds cs c := ⟨c, hc, .refl⟩

theorem Reaches.tail {c a : ConstraintId} (h : Reaches ds cs c) (ha : Cites ds c a) :
    Reaches ds cs a :=
  let ⟨d, hd, hdc⟩ := h
  ⟨d, hd, hdc.tail ha⟩

theorem Cites.append_left {c a : ConstraintId} (h : Cites ds c a) (es : List Derivation) :
    Cites (es ++ ds) c a := h.imp fun _ => And.imp_left (List.mem_append_right es)

/-- What derived constraints rest on has been derived. -/
theorem Reaches.derived (h : Founded ds) (hcs : ∀ c ∈ cs, c ∈ ds.map Prod.fst) {e : ConstraintId}
    (he : Reaches ds cs e) : e ∈ ds.map Prod.fst := by
  obtain ⟨c, hc, hce⟩ := he
  induction hce with
  | refl => exact hcs c hc
  | tail _ hcite _ =>
    obtain ⟨as, has, ha⟩ := hcite
    exact h.derived has ha

/-- If every derivation from antecedents keeps to a property, a derived constraint has it as soon as
all the self-explaining ones that it rests on do. -/
theorem Founded.holds (h : Founded ds) {P : ConstraintId → Prop}
    (hstep : ∀ d ∈ ds, d.2 ≠ [] → (∀ a ∈ d.2, P a) → P d.1) {c : ConstraintId}
    (hc : c ∈ ds.map Prod.fst)
    (hleaf : ∀ e, (e, []) ∈ ds → Relation.ReflTransGen (Cites ds) c e → P e) : P c := by
  -- along the order of the derivations: those before the newest one do not cite it
  induction h generalizing c with
  | nil => cases hc
  | @cons b as ds new old rest ih =>
    have hrest : ∀ a ∈ ds.map Prod.fst,
        (∀ e, (e, []) ∈ (b, as) :: ds → Relation.ReflTransGen (Cites ((b, as) :: ds)) a e → P e) →
          P a := by
      intro a ha hleaf'
      refine ih (fun d hd => hstep d (List.mem_cons_of_mem _ hd)) ha fun e he hae => ?_
      exact hleaf' e (List.mem_cons_of_mem _ he)
        (Relation.ReflTransGen.mono (fun _ _ hcite => Cites.append_left hcite [(b, as)]) _ _ hae)
    rcases List.mem_cons.mp hc with rfl | hc
    · by_cases has : as = []
      · subst has
        exact hleaf c List.mem_cons_self .refl
      · refine hstep (c, as) List.mem_cons_self has fun a ha => ?_
        exact hrest a (old a ha) fun e he hae =>
          hleaf e he (hae.head ⟨as, List.mem_cons_self, ha⟩)
    · exact hrest c hc hleaf

end Reaches

/-! ## The steps of a walk -/

section Steps

variable (db : Database)

/-- The keys of the constraints that a walk has not met. -/
def unvisited (visited : List ConstraintId) : Finset Nat :=
  (Finset.range db.constraints.size).filter fun i => ⟨i⟩ ∉ visited

/-- The number of antecedents of the constraint under a key. -/
def fanout (i : Nat) : Nat := ((db.marksOf ⟨i⟩).proof.getD []).length

/-- The antecedents that a walk can still come to. -/
def remaining (visited : List ConstraintId) : Nat := ∑ i ∈ db.unvisited visited, db.fanout i

variable {db}

theorem remaining_nil : db.remaining [] = db.numAntecedents := by
  have hall : db.unvisited [] = Finset.range db.constraints.size :=
    Finset.filter_true_of_mem fun _ _ => List.not_mem_nil
  have hfanout : ∀ i : Fin db.constraints.items.length,
      db.fanout i = (db.constraints.items[i].proof.getD []).length := by
    intro i
    have hi : db.stored ⟨i⟩ = some db.constraints.items[i] := List.getElem?_eq_getElem i.isLt
    rw [fanout, marksOf_of_stored hi]
    rfl
  rw [remaining, hall, Arena.size, Finset.sum_range, numAntecedents, List.length_flatMap,
    ← Fin.sum_univ_fun_getElem]
  exact Finset.sum_congr rfl fun i _ => hfanout i

/-- Meeting a constraint uses up its antecedents. -/
theorem remaining_cons {c : ConstraintId} {k : Constraint} (hc : db.stored c = some k)
    {as : List ConstraintId} (hp : k.proof = some as) {visited : List ConstraintId}
    (hnew : c ∉ visited) : db.remaining (c :: visited) + as.length = db.remaining visited := by
  have hmem : c.index ∈ db.unvisited visited :=
    Finset.mem_filter.mpr ⟨Finset.mem_range.mpr (lt_of_stored hc), hnew⟩
  have herase : db.unvisited (c :: visited) = (db.unvisited visited).erase c.index := by
    ext i
    have hkey : (⟨i⟩ : ConstraintId) = c ↔ i = c.index :=
      ⟨congrArg ConstraintId.index, ConstraintId.eq_of_index_eq⟩
    simp only [unvisited, Finset.mem_filter, Finset.mem_erase, List.mem_cons, not_or, hkey]
    tauto
  have hfanout : db.fanout c.index = as.length := by
    rw [fanout, marksOf_of_stored hc, Constraint.marks, hp]
    rfl
  rw [remaining, herase, ← hfanout, Finset.sum_erase_add _ _ hmem, remaining]

end Steps

/-! ## What a walk visits -/

/-- While a walk goes on: everything it has met or has still to meet is reached from the constraints
to be explained, the antecedents of what it has met are met or still to come, and it has collected
what explains itself. -/
structure Walking (ds : List Derivation) (cs todo visited leaves : List ConstraintId) : Prop where
  reached : ∀ c, c ∈ todo ∨ c ∈ visited → Reaches ds cs c
  starts : ∀ c ∈ cs, c ∈ todo ∨ c ∈ visited
  closed : ∀ c ∈ visited, ∀ a, Cites ds c a → a ∈ todo ∨ a ∈ visited
  nodup : leaves.Nodup
  mem_leaves : ∀ e, e ∈ leaves ↔ e ∈ visited ∧ (e, []) ∈ ds

section Walking

variable {ds : List Derivation} {cs todo visited leaves : List ConstraintId} {c : ConstraintId}

theorem walking_start (ds : List Derivation) (cs : List ConstraintId) :
    Walking ds cs cs [] [] where
  reached c hc := reaches_of_mem (hc.resolve_right List.not_mem_nil)
  starts c hc := .inl hc
  closed c hc := absurd hc List.not_mem_nil
  nodup := List.nodup_nil
  mem_leaves e := by simp

/-- A constraint that was met before is skipped. -/
theorem Walking.skip (h : Walking ds cs (c :: todo) visited leaves) (hc : c ∈ visited) :
    Walking ds cs todo visited leaves := by
  have hrest : ∀ d, d ∈ c :: todo ∨ d ∈ visited → d ∈ todo ∨ d ∈ visited := by
    rintro d (hd | hd)
    · rcases List.mem_cons.mp hd with rfl | hd
      · exact .inr hc
      · exact .inl hd
    · exact .inr hd
  exact ⟨fun d hd => h.reached d (hd.imp_left (List.mem_cons_of_mem c)),
    fun d hd => hrest d (h.starts d hd), fun d hd a ha => hrest a (h.closed d hd a ha), h.nodup,
    h.mem_leaves⟩

/-- A constraint that is met for the first time: its antecedents are to be met. -/
theorem Walking.visit (hds : Founded ds) (h : Walking ds cs (c :: todo) visited leaves)
    (hnew : c ∉ visited) {as : List ConstraintId} (hc : (c, as) ∈ ds) :
    Walking ds cs (as ++ todo) (c :: visited) (if as = [] then leaves ++ [c] else leaves) := by
  have hunique : ∀ bs, (c, bs) ∈ ds → bs = as := by
    intro bs hbs
    have hlookup := hds.lookup_eq_some_iff.mpr hbs
    rw [hds.lookup_eq_some_iff.mpr hc] at hlookup
    exact (Option.some.inj hlookup).symm
  have hfirst := h.reached c (.inl List.mem_cons_self)
  have hrest : ∀ d, d ∈ c :: todo ∨ d ∈ visited → d ∈ as ++ todo ∨ d ∈ c :: visited := by
    rintro d (hd | hd)
    · rcases List.mem_cons.mp hd with rfl | hd
      · exact .inr List.mem_cons_self
      · exact .inl (List.mem_append_right as hd)
    · exact .inr (List.mem_cons_of_mem c hd)
  refine ⟨fun d hd => ?_, fun d hd => hrest d (h.starts d hd), fun d hd a ha => ?_, ?_,
    fun e => ?_⟩
  · rcases hd with hd | hd
    · rcases List.mem_append.mp hd with hd | hd
      · exact hfirst.tail ⟨as, hc, hd⟩
      · exact h.reached d (.inl (List.mem_cons_of_mem c hd))
    · rcases List.mem_cons.mp hd with rfl | hd
      · exact hfirst
      · exact h.reached d (.inr hd)
  · rcases List.mem_cons.mp hd with rfl | hd
    · obtain ⟨bs, hbs, ha⟩ := ha
      exact .inl (List.mem_append_left todo (hunique bs hbs ▸ ha))
    · exact hrest a (h.closed d hd a ha)
  · split
    · have hc : c ∉ leaves := fun hmem => hnew ((h.mem_leaves c).mp hmem).1
      exact List.nodup_append.mpr ⟨h.nodup, List.nodup_singleton c, by
        rintro d hd e he rfl
        rw [List.mem_singleton.mp he] at hd
        exact hc hd⟩
    · exact h.nodup
  · -- a constraint met now is collected exactly if its only derivation has no antecedents
    have hleaf : (c, []) ∈ ds ↔ as = [] :=
      ⟨fun hmem => (hunique [] hmem).symm, fun has => has ▸ hc⟩
    split
    · rename_i has
      rw [List.mem_append, List.mem_singleton, h.mem_leaves, List.mem_cons, or_and_right, or_comm]
      refine or_congr_left ⟨?_, And.left⟩
      rintro rfl
      exact ⟨rfl, hleaf.mpr has⟩
    · rename_i has
      rw [h.mem_leaves, List.mem_cons, or_and_right, or_iff_right]
      rintro ⟨rfl, hmem⟩
      exact has (hleaf.mp hmem)

/-- A walk at its end has met what can be reached. -/
theorem Walking.mem_iff (h : Walking ds cs [] visited leaves) (e : ConstraintId) :
    e ∈ leaves ↔ (e, []) ∈ ds ∧ Reaches ds cs e := by
  have hvisited : e ∈ visited ↔ Reaches ds cs e := by
    refine ⟨fun he => h.reached e (.inr he), ?_⟩
    rintro ⟨c, hc, hce⟩
    induction hce with
    | refl => exact (h.starts c hc).resolve_left List.not_mem_nil
    | tail _ hcite ih => exact (h.closed _ ih _ hcite).resolve_left List.not_mem_nil
  rw [h.mem_leaves, hvisited, and_comm]

end Walking

variable {db : Database} {ds : List Derivation} {cs : List ConstraintId}

/-- A walk has enough steps to get to its end. -/
theorem walk_spec (hproofs : ∀ c, (db.marksOf c).proof = ds.lookup c) (hds : Founded ds)
    (hcs : ∀ c ∈ cs, c ∈ ds.map Prod.fst) {n : Nat} {todo visited leaves : List ConstraintId}
    (hn : todo.length + db.remaining visited ≤ n) (h : Walking ds cs todo visited leaves) :
    ∃ visited' leaves', db.walk n todo visited leaves = .ok leaves' ∧
      Walking ds cs [] visited' leaves' := by
  induction n generalizing todo visited leaves with
  | zero =>
    -- no steps are left only where nothing is left to be met
    obtain rfl : todo = [] := List.length_eq_zero_iff.mp (by omega)
    exact ⟨visited, leaves, rfl, h⟩
  | succ n ih =>
    cases todo with
    | nil => exact ⟨visited, leaves, rfl, h⟩
    | cons c todo =>
      rw [List.length_cons] at hn
      by_cases hc : c ∈ visited
      · rw [walk, if_pos (List.contains_iff_mem.mpr hc)]
        exact ih (by omega) (h.skip hc)
      · have hderived := (h.reached c (.inl List.mem_cons_self)).derived hds hcs
        obtain ⟨⟨_, as⟩, has, rfl⟩ := List.mem_map.mp hderived
        obtain ⟨k, hk, hp⟩ := stored_of_proof ((hproofs _).trans (hds.lookup_eq_some_iff.mpr has))
        have hrest := remaining_cons hk hp hc
        rw [walk_of_proof hk hp hc]
        refine ih ?_ (h.visit hds hc has)
        rw [List.length_append]
        omega

/-- An explanation is found, and it holds exactly what explains itself and is reached. -/
theorem explanation_spec (hproofs : ∀ c, (db.marksOf c).proof = ds.lookup c) (hds : Founded ds)
    (hcs : ∀ c ∈ cs, c ∈ ds.map Prod.fst) :
    ∃ leaves, db.explanation cs = .ok leaves ∧ leaves.Nodup ∧
      ∀ e, e ∈ leaves ↔ (e, []) ∈ ds ∧ Reaches ds cs e := by
  obtain ⟨visited, leaves, hok, h⟩ := walk_spec hproofs hds hcs
    (by rw [remaining_nil]) (walking_start ds cs)
  exact ⟨leaves, hok, h.nodup, h.mem_iff⟩

/-! ## Explanations after a run -/

/-- The statement of the constraint is true of the values of the variables. -/
def TrueUnder (db : Database) (ρ : Var → ℚ) (c : ConstraintId) : Prop :=
  ∃ k, db.stored c = some k ∧ k.statement.TrueAt (ρ k.statement.var)

/-- In all given models, a constraint that was derived from others is true if they are. Of one that
explains itself nothing is said. -/
def Sound (db : Database) (models : Set (Var → ℚ)) (d : Derivation) : Prop :=
  d.2 ≠ [] → ∀ ρ ∈ models, (∀ a ∈ d.2, db.TrueUnder ρ a) → db.TrueUnder ρ d.1

/-- The second list explains the first one by the derivations. -/
structure Explains (db : Database) (ds : List Derivation) (cs leaves : List ConstraintId) :
    Prop where
  nodup : leaves.Nodup
  mem_iff : ∀ e, e ∈ leaves ↔ (e, []) ∈ ds ∧ Reaches ds cs e
  proven : ∀ e ∈ leaves, db.hasProof e = .ok true
  entails : ∀ models : Set (Var → ℚ), (∀ d ∈ ds, db.Sound models d) → ∀ ρ ∈ models,
    (∀ e ∈ leaves, db.TrueUnder ρ e) → ∀ c ∈ cs, db.TrueUnder ρ c

theorem Tracks.explanation {db : Database} {ds : Trail Derivation} (h : db.Tracks ds)
    {cs : List ConstraintId} (hcs : ∀ c ∈ cs, db.hasProof c = .ok true) :
    ∃ leaves, db.explanation cs = .ok leaves ∧ db.Explains ds.newestFirst cs leaves := by
  have hderived : ∀ c ∈ cs, c ∈ ds.newestFirst.map Prod.fst := fun c hc =>
    h.hasProof_iff.mp (hcs c hc)
  obtain ⟨leaves, hok, hnodup, hmem⟩ := explanation_spec h.proofs h.founded hderived
  refine ⟨leaves, hok, hnodup, hmem, fun e he => ?_, fun models hsound ρ hρ htrue c hc => ?_⟩
  · exact h.hasProof_iff.mpr (((hmem e).mp he).2.derived h.founded hderived)
  · refine h.founded.holds (fun d hd has => hsound d hd has ρ hρ) (hderived c hc) fun e he hce => ?_
    exact htrue e ((hmem e).mpr ⟨he, c, hc, hce⟩)

/-- After every sequence of operations whose antecedents are known to hold when they are given,
constraints that are known to hold are explained by exactly the self-explaining ones that their
antecedents lead to, whether the antecedents are read from the constraints or from the log. -/
theorem explanation_exact {b : Bool} {ops : List Operation} {db : Database}
    (hrun : ({ debugChecks := b } : Database).run ops = .ok db)
    (hops : ({ debugChecks := b } : Database).admitsAll ops = true) {cs : List ConstraintId}
    (hcs : ∀ c ∈ cs, db.hasProof c = .ok true) :
    ∃ l leaves, ({ db := { debugChecks := b } } : Logged).run ops = .ok l ∧ l.db = db ∧
      l.explanation cs = .ok leaves ∧ db.explanation cs = .ok leaves ∧
      db.Explains (derivations ops).newestFirst cs leaves := by
  have hstart : ({ db := { debugChecks := b } } : Logged).Tracks {} :=
    ⟨tracks_start b, rfl, fun _ => rfl⟩
  obtain ⟨l, hlog, rfl, h⟩ := hstart.run (orderly_start b) hops hrun
  obtain ⟨leaves, hok, hexplains⟩ := h.db.explanation hcs
  exact ⟨l, leaves, hlog, rfl, (h.explanation_eq cs).trans hok, hok, hexplains⟩

/-- Two bounds are derived in a scope that is left, and again after that, in another order and from
other bounds. Positions in the log are used twice. -/
def rederived : List Operation :=
  let x : Var := ⟨0⟩
  let y : Var := ⟨1⟩
  let four : Term := .rel .ge (.var "x") (.const 4)
  let one : Term := .rel .ge (.var "y") (.const 1)
  [.addAtom four ⟨x, .lower, .ofRat 4⟩, .obtain ⟨x, .lower, .ofRat 3⟩,
    .obtain ⟨x, .lower, .ofRat 2⟩, .addAtom one ⟨y, .lower, .ofRat 1⟩,
    .obtain ⟨y, .disequality, .ofRat 0⟩, .preregister ⟨2⟩, .preregister ⟨4⟩, .preregister ⟨6⟩,
    .markAsserted ⟨0⟩ four, .openScope, .mark ⟨2⟩ [⟨0⟩], .mark ⟨4⟩ [⟨2⟩, ⟨0⟩], .backtrack 0,
    .collect, .markAsserted ⟨6⟩ one, .openScope, .mark ⟨4⟩ [⟨0⟩], .openScope,
    .mark ⟨2⟩ [⟨4⟩, ⟨6⟩, ⟨0⟩]]

theorem explanation_exact_rederived : ∃ db l,
    ({ debugChecks := true } : Database).run rederived = .ok db ∧
      ({ db := { debugChecks := true } } : Logged).run rederived = .ok l ∧
      l.explanation [⟨2⟩, ⟨4⟩, ⟨2⟩] = .ok [⟨0⟩, ⟨6⟩] ∧
      db.Explains (derivations rederived).newestFirst [⟨2⟩, ⟨4⟩, ⟨2⟩] [⟨0⟩, ⟨6⟩] := by
  have h : (({ debugChecks := true } : Database).run rederived >>= fun db => do
      return (← db.hasProof ⟨2⟩, ← db.hasProof ⟨4⟩, ← db.explanation [⟨2⟩, ⟨4⟩, ⟨2⟩])) =
      .ok (true, true, [⟨0⟩, ⟨6⟩]) := by
    decide +kernel
  obtain ⟨db, hrun, h⟩ := bind_eq_ok.mp h
  obtain ⟨first, hfirst, h⟩ := bind_eq_ok.mp h
  obtain ⟨second, hsecond, h⟩ := bind_eq_ok.mp h
  obtain ⟨leaves, hleaves, h⟩ := bind_eq_ok.mp h
  cases h
  have hcs : ∀ c ∈ [⟨2⟩, ⟨4⟩, ⟨2⟩], db.hasProof c = .ok true := by
    intro c hc
    simp only [List.mem_cons, List.not_mem_nil, or_false] at hc
    rcases hc with rfl | rfl | rfl
    · exact hfirst
    · exact hsecond
    · exact hfirst
  obtain ⟨l, leaves', hlog, rfl, hread, hok, hexplains⟩ :=
    explanation_exact hrun (by decide +kernel) hcs
  obtain rfl := Except.ok.inj (hok.symm.trans hleaves)
  exact ⟨l.db, l, hrun, hlog, hread, hexplains⟩

end LinearArithmetic.Database
