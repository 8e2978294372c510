import LinearArithmetic.Database.Scope
import LinearArithmetic.Proofs.Database
import Mathlib.Data.List.Nodup

/-!
# Garbage collection of constraints

A collection removes pairs that nothing refers to, both halves at once, and with them their
literals. Every other constraint stays as it was.
-/

namespace LinearArithmetic.Database

theorem lookup_eq_some_iff_mem {l : List (Term × ConstraintId)} (hl : (l.map Prod.fst).Nodup)
    {t : Term} {c : ConstraintId} : l.lookup t = some c ↔ (t, c) ∈ l := by
  induction l with
  | nil => simp
  | cons e rest ih =>
    obtain ⟨u, d⟩ := e
    rw [List.map_cons, List.nodup_cons] at hl
    rw [List.lookup_cons, List.mem_cons]
    by_cases hut : t = u
    · subst hut
      rw [beq_self_eq_true]
      constructor
      · intro h
        exact .inl (by rw [Option.some.inj h])
      · rintro (h | h)
        · rw [(Prod.mk.inj h).2]
        · exact absurd (List.mem_map.mpr ⟨(t, c), h, rfl⟩) hl.1
    · rw [beq_eq_false_iff_ne.mpr hut]
      refine (ih hl.2).trans ⟨.inr, fun h => h.resolve_left fun h => hut (Prod.mk.inj h).1⟩

/-- A constraint that has been removed. -/
def killed (k : Constraint) : Constraint := { k with live := false, literal := none }

theorem remove_spec {db : Database} {c : ConstraintId} {k : Constraint}
    (hc : db.stored c = some k) :
    ∃ db', db.remove c = .ok db' ∧
      (∀ e, db'.stored e = if e = c then some (killed k) else db.stored e) ∧
      (∀ s, db'.find? s = if s = k.statement then none else db.find? s) ∧
      (db.Tidy → db'.Tidy) ∧ db'.literals = db.literals ∧ db'.changes = db.changes := by
  refine ⟨(db.update c killed).setIndex k.statement none, by rw [remove, get_eq_ok hc]; rfl,
    fun e => ?_, fun s => ?_, fun h => ?_, rfl, rfl⟩
  · rw [stored_setIndex, stored_update]
    by_cases hec : e = c
    · rw [if_pos hec, if_pos hec, hec, hc]
      rfl
    · rw [if_neg hec, if_neg hec]
  · rw [find?_setIndex, find?_update]
  · exact @tidy_setIndex (db.update c killed) h _ _

/-- The second database is the first one with a live pair removed. -/
structure WithoutPair (db db' : Database) (c : ConstraintId) (k l : Constraint) : Prop where
  first : db.stored c = some k
  live : k.live = true
  second : db.stored k.negation = some l
  stored : ∀ e, db'.stored e =
    if e = c then some (killed k) else if e = k.negation then some (killed l) else db.stored e
  find : ∀ s, db'.find? s =
    if s = l.statement then none else if s = k.statement then none else db.find? s

section WithoutPair

variable {db db' : Database} {c : ConstraintId} {k l : Constraint} (w : WithoutPair db db' c k l)
  (h : db.Indexed)

include w h

/-- The index still finds exactly the live constraints. -/
theorem WithoutPair.find_iff (s : Statement) (e : ConstraintId) :
    db'.find? s = some e ↔ ∃ m, db'.stored e = some m ∧ m.live = true ∧ m.statement = s := by
  rw [w.find, w.stored]
  constructor
  · intro hs
    split at hs
    · cases hs
    · rename_i hsl
      split at hs
      · cases hs
      · rename_i hsk
        obtain ⟨m, hm, hml, hms⟩ := (h.find_iff _ _).mp hs
        refine ⟨m, ?_, hml, hms⟩
        rw [if_neg, if_neg, hm]
        · rintro rfl
          rw [w.second] at hm
          exact hsl (by rw [← hms, ← Option.some.inj hm])
        · rintro rfl
          rw [w.first] at hm
          exact hsk (by rw [← hms, ← Option.some.inj hm])
  · rintro ⟨m, hm, hml, rfl⟩
    split at hm
    · rw [← Option.some.inj hm] at hml
      cases hml
    · rename_i hec
      split at hm
      · rw [← Option.some.inj hm] at hml
        cases hml
      · rename_i hed
        obtain ⟨l', hl', _, _, hlive⟩ := h.negation c k w.first
        rw [w.second] at hl'
        obtain rfl := Option.some.inj hl'
        rw [if_neg, if_neg]
        · exact h.find?_eq_some hm hml
        · exact fun hs => hec (h.eq_of_statement_eq hm w.first hml w.live hs)
        · exact fun hs => hed (h.eq_of_statement_eq hm w.second hml (hlive.trans w.live) hs)

/-- Pairs stay pairs, also the one that was removed. -/
theorem WithoutPair.negation {e : ConstraintId} {m : Constraint} (he : db'.stored e = some m) :
    ∃ m', db'.stored m.negation = some m' ∧ m'.negation = e ∧
      m.statement.negation? = some m'.statement ∧ m'.live = m.live := by
  obtain ⟨l', hl', hback, hneg, _⟩ := h.negation c k w.first
  rw [w.second] at hl'
  obtain rfl := Option.some.inj hl'
  have hne : k.negation ≠ c := h.negation_ne w.first
  rw [w.stored] at he
  split at he
  · rename_i hec
    rw [← Option.some.inj he]
    refine ⟨killed l, ?_, hback.trans hec.symm, hneg, rfl⟩
    change db'.stored k.negation = _
    rw [w.stored, if_neg hne, if_pos rfl]
  · rename_i hec
    split at he
    · rename_i hed
      rw [← Option.some.inj he]
      refine ⟨killed k, ?_, hed.symm, Statement.negation?_negation? hneg, rfl⟩
      change db'.stored l.negation = _
      rw [w.stored, hback, if_pos rfl]
    · rename_i hed
      obtain ⟨m', hm', hn, hs, hl⟩ := h.negation e m he
      refine ⟨m', ?_, hn, hs, hl⟩
      rw [w.stored, if_neg, if_neg, hm']
      · intro heq
        rw [heq, w.second] at hm'
        exact hec (by rw [← hn, ← Option.some.inj hm', hback])
      · intro heq
        rw [heq, w.first] at hm'
        exact hed (by rw [← hn, ← Option.some.inj hm'])

end WithoutPair

/-- Removing both halves of a live pair. -/
theorem Indexed.removePair {db : Database} (h : db.Indexed) {c : ConstraintId} {k l : Constraint}
    (hc : db.stored c = some k) (hk : k.live = true) (hd : db.stored k.negation = some l) :
    ∃ db', (do
        let negation := (← db.get c).negation
        (← db.remove c).remove negation) = .ok db' ∧ db'.Indexed ∧
      (∀ e, db'.stored e = if e = c then some (killed k)
        else if e = k.negation then some (killed l) else db.stored e) ∧
      db'.literals = db.literals ∧ db'.changes = db.changes := by
  have hne : k.negation ≠ c := h.negation_ne hc
  obtain ⟨db₁, hok₁, hst₁, hf₁, ht₁, hlit₁, hch₁⟩ := remove_spec hc
  have hd₁ : db₁.stored k.negation = some l := by rw [hst₁, if_neg hne, hd]
  obtain ⟨db₂, hok₂, hst₂, hf₂, ht₂, hlit₂, hch₂⟩ := remove_spec hd₁
  have w : WithoutPair db db₂ c k l := by
    refine ⟨hc, hk, hd, fun e => ?_, fun s => by rw [hf₂, hf₁]⟩
    rw [hst₂, hst₁]
    by_cases hec : e = c
    · rw [if_neg fun he : e = k.negation => hne (he.symm.trans hec), if_pos hec, if_pos hec]
    · rw [if_neg hec, if_neg hec]
  refine ⟨db₂, ?_, ⟨w.find_iff h, fun _ _ => w.negation h, ht₂ (ht₁ h.tidy)⟩, w.stored,
    hlit₂.trans hlit₁, hch₂.trans hch₁⟩
  rw [get_eq_ok hc, ok_bind, hok₁, ok_bind, hok₂]

/-- The first half of a pair that nothing refers to. -/
def Removable (db : Database) (c : ConstraintId) : Prop :=
  ∃ k l, db.stored c = some k ∧ k.live = true ∧ c.index < k.negation.index ∧
    k.isCollectable = true ∧ db.stored k.negation = some l ∧ l.isCollectable = true

theorem Indexed.collectable_spec {db : Database} (h : db.Indexed) :
    ∃ cs, db.collectable = .ok cs ∧ cs.Nodup ∧ ∀ c, c ∈ cs ↔ db.Removable c := by
  let p : ConstraintId → Bool := fun c =>
    (db.stored c).any fun k => k.live && decide (c.index < k.negation.index) && k.isCollectable &&
      (db.stored k.negation).any (·.isCollectable)
  refine ⟨(db.constraints.keys.map ConstraintId.mk).filter p, Checked.filterM_eq_ok fun c hc => ?_,
    (List.Nodup.map (fun _ _ hab => congrArg ConstraintId.index hab)
      List.nodup_range).filter _, fun c => ⟨fun hc => ?_, fun hc => ?_⟩⟩
  · obtain ⟨i, hi, rfl⟩ := List.mem_map.mp hc
    obtain ⟨k, hk⟩ := Arena.get?_isSome (List.mem_range.mp hi)
    have hk' : db.stored ⟨i⟩ = some k := hk
    obtain ⟨l, hl, _⟩ := h.negation _ k hk'
    simp only [p, hk', get_eq_ok hk', ok_bind, Option.any_some, hl, get_eq_ok hl]
    cases k.live && decide (i < k.negation.index) && k.isCollectable <;> rfl
  · have hp := (List.mem_filter.mp hc).2
    obtain ⟨k, hk, hkp⟩ := (Option.any_eq_true _ _).mp hp
    simp only [Bool.and_eq_true, decide_eq_true_eq] at hkp
    obtain ⟨⟨⟨hl, hlt⟩, hcol⟩, hneg⟩ := hkp
    obtain ⟨l, hl', hlcol⟩ := (Option.any_eq_true _ _).mp hneg
    exact ⟨k, l, hk, hl, hlt, hcol, hl', hlcol⟩
  · obtain ⟨k, l, hk, hlive, hlt, hcol, hl, hlcol⟩ := hc
    refine List.mem_filter.mpr ⟨List.mem_map.mpr ⟨c.index, ?_, rfl⟩, ?_⟩
    · exact List.mem_range.mpr (Arena.lt_size_of_get? hk)
    · simp only [p, hk, Option.any_some, hlive, hlt, hcol, hl, hlcol, decide_true, Bool.and_self]

/-- A database from which some unmarked pairs have been removed. -/
structure Pruned (db db' : Database) : Prop where
  stored : ∀ c k, db.stored c = some k → db'.stored c = some k ∨
    k.isCollectable = true ∧ db'.stored c = some (killed k)
  origin : ∀ c k', db'.stored c = some k' → ∃ k, db.stored c = some k
  changes : db'.changes = db.changes

theorem Pruned.refl (db : Database) : Pruned db db :=
  ⟨fun _ _ h => .inl h, fun _ k h => ⟨k, h⟩, rfl⟩

/-- A constraint with a proof is not removed. -/
theorem Pruned.stored_of_hasProof {db db' : Database} (h : Pruned db db') {c : ConstraintId}
    {k : Constraint} (hk : db.stored c = some k) (hp : k.hasProof = true) :
    db'.stored c = some k := by
  rcases h.stored c k hk with hsame | ⟨hcollectable, -⟩
  · exact hsame
  · unfold Constraint.isCollectable at hcollectable
    rw [hp, Bool.not_true, Bool.and_false] at hcollectable
    cases hcollectable

/-- A constraint that is still there is as it was before. -/
theorem Pruned.survivor {db db' : Database} (h : Pruned db db') {c : ConstraintId} {k : Constraint}
    (hk : db'.stored c = some k) (hlive : k.live = true) : db.stored c = some k := by
  obtain ⟨k₀, hk₀⟩ := h.origin c k hk
  rcases h.stored c k₀ hk₀ with hsame | ⟨_, hkilled⟩
  · exact hk₀.trans (hsame.symm.trans hk)
  · rw [hk] at hkilled
    rw [Option.some.inj hkilled] at hlive
    cases hlive

/-- Removing another pair. -/
theorem Pruned.remove {db b b' : Database} (h : Pruned db b) {c : ConstraintId} {k l : Constraint}
    (hk : db.stored c = some k) (hcol : k.isCollectable = true)
    (hl : db.stored k.negation = some l) (hlcol : l.isCollectable = true)
    (hst : ∀ e, b'.stored e = if e = c then some (killed k)
      else if e = k.negation then some (killed l) else b.stored e)
    (hch : b'.changes = b.changes) : Pruned db b' where
  stored e m hm := by
    rw [hst]
    split
    · rename_i hec
      rw [hec, hk] at hm
      rw [← Option.some.inj hm]
      exact .inr ⟨hcol, rfl⟩
    · split
      · rename_i hed
        rw [hed, hl] at hm
        rw [← Option.some.inj hm]
        exact .inr ⟨hlcol, rfl⟩
      · exact h.stored e m hm
  origin e m' hm' := by
    rw [hst] at hm'
    split at hm'
    · rename_i hec
      exact ⟨k, hec ▸ hk⟩
    · split at hm'
      · rename_i hed
        exact ⟨l, hed ▸ hl⟩
      · exact h.origin e m' hm'
  changes := hch.trans h.changes

/-- The pairs of two different first halves have nothing in common. -/
theorem Indexed.pairs_apart {db : Database} (h : db.Indexed) {c e : ConstraintId}
    {k m : Constraint} (hk : db.stored c = some k) (hm : db.stored e = some m)
    (hlt : c.index < k.negation.index) (hlt' : e.index < m.negation.index) (hec : e ≠ c) :
    e ≠ k.negation ∧ m.negation ≠ c ∧ m.negation ≠ k.negation := by
  obtain ⟨k₁, hk₁, hkn, _⟩ := h.negation c k hk
  obtain ⟨m₁, hm₁, hmn, _⟩ := h.negation e m hm
  have hed : e ≠ k.negation := by
    rintro rfl
    rw [hm] at hk₁
    rw [Option.some.inj hk₁, hkn] at hlt'
    omega
  refine ⟨hed, fun heq => ?_, fun heq => ?_⟩
  · rw [heq, hk] at hm₁
    rw [← Option.some.inj hm₁] at hmn
    exact hed hmn.symm
  · rw [heq, hk₁] at hm₁
    rw [← Option.some.inj hm₁] at hmn
    exact hec (hmn.symm.trans hkn)

/-- A state on the way to a database without some pairs; those still to come are untouched. -/
structure Removing (db : Database) (cs rest : List ConstraintId) (b : Database) : Prop where
  nodup : rest.Nodup
  listed : ∀ c ∈ rest, c ∈ cs
  indexed : b.Indexed
  pruned : Pruned db b
  literals : b.literals = db.literals
  waiting : ∀ c ∈ rest, ∀ k, db.stored c = some k →
    b.stored c = db.stored c ∧ b.stored k.negation = db.stored k.negation
  gone : ∀ c ∈ cs, c ∉ rest → ∀ k, b.stored c = some k → k.live = false

theorem Removing.step {db b : Database} {cs rest : List ConstraintId} {c : ConstraintId}
    (r : Removing db cs (c :: rest) b) (h : db.Indexed) (hcs : ∀ c ∈ cs, db.Removable c) :
    ∃ b', (do
        let negation := (← b.get c).negation
        (← b.remove c).remove negation) = .ok b' ∧ Removing db cs rest b' := by
  obtain ⟨hcrest, hnodup⟩ := List.nodup_cons.mp r.nodup
  obtain ⟨k, l, hk, hlive, hlt, hcol, hl, hlcol⟩ := hcs c (r.listed c List.mem_cons_self)
  obtain ⟨hbc, hbn⟩ := r.waiting c List.mem_cons_self k hk
  rw [hk] at hbc
  rw [hl] at hbn
  obtain ⟨b', hok, hb', hst, hlit, hch⟩ := r.indexed.removePair hbc hlive hbn
  refine ⟨b', hok, hnodup, fun e he => r.listed e (List.mem_cons_of_mem _ he), hb',
    r.pruned.remove hk hcol hl hlcol hst hch, hlit.trans r.literals, fun e he m hm => ?_,
    fun e he hrest m hm => ?_⟩
  · obtain ⟨m', _, hm', _, hlt', _⟩ := hcs e (r.listed e (List.mem_cons_of_mem _ he))
    obtain rfl := Option.some.inj (hm.symm.trans hm')
    have hec : e ≠ c := ne_of_mem_of_not_mem he hcrest
    obtain ⟨hed, hnc, hnd⟩ := h.pairs_apart hk hm hlt hlt' hec
    rw [hst, if_neg hec, if_neg hed, hst, if_neg hnc, if_neg hnd]
    exact r.waiting e (List.mem_cons_of_mem _ he) m hm
  · rw [hst] at hm
    split at hm
    · rw [← Option.some.inj hm]
      rfl
    · rename_i hec
      split at hm
      · rw [← Option.some.inj hm]
        rfl
      · exact r.gone e he (List.not_mem_cons_of_ne_of_not_mem hec hrest) m hm

/-- Removing a list of pairs. -/
theorem Indexed.removePairs {db : Database} (h : db.Indexed) {cs : List ConstraintId}
    (hnodup : cs.Nodup) (hcs : ∀ c ∈ cs, db.Removable c) :
    ∃ db', cs.foldlM (fun db c => do
        let negation := (← Database.get db c).negation
        (← Database.remove db c).remove negation) db = .ok db' ∧ Removing db cs [] db' :=
  Checked.exists_foldlM (Removing db cs) (fun _ _ _ r => r.step h hcs) cs db
    ⟨hnodup, fun _ hc => hc, h, .refl db, rfl, fun _ _ _ _ => ⟨rfl, rfl⟩,
      fun _ hc hnot => absurd hc hnot⟩

/-- The outcome of a collection. -/
structure Collected (db db' : Database) : Prop where
  valid : db'.Valid
  pruned : Pruned db db'
  lookup_iff : ∀ t c, db'.lookup t = some c ↔
    db.lookup t = some c ∧ ∃ k, db'.stored c = some k ∧ k.live = true
  clean : ∀ c, ¬ db'.Removable c

/-- Collecting garbage leaves no variable with more constraints. -/
theorem Collected.hasConstraints {db db' : Database} (h : Collected db db') (hv : db.Indexed)
    {v : Var} (hc : db'.hasConstraints v = true) : db.hasConstraints v = true := by
  obtain ⟨c, k, hk, hlive, rfl⟩ := h.valid.hasConstraints_iff.mp hc
  exact hv.hasConstraints_iff.mpr ⟨c, k, h.pruned.survivor hk hlive, hlive, rfl⟩

/-- After a collection there is nothing left to collect. -/
theorem Collected.collect_self {db db' : Database} (h : Collected db db') :
    db'.collect = .ok (db', 0) := by
  obtain ⟨cs, hcs, -, hmem⟩ := h.valid.toIndexed.collectable_spec
  have hnil : cs = [] := List.eq_nil_iff_forall_not_mem.mpr fun c hc =>
    h.clean c ((hmem c).mp hc)
  have hlive : ∀ e ∈ db'.literals, (do return (← db'.get e.2).live : Checked Bool) = .ok true := by
    intro e he
    obtain ⟨_, k, hk, hlive⟩ :=
      (h.lookup_iff e.1 e.2).mp ((lookup_eq_some_iff_mem h.valid.keys).mpr he)
    rw [get_eq_ok hk, ok_bind, hlive]
    rfl
  have hkept : db'.literals.filterM (fun e => do return (← db'.get e.2).live) =
      .ok db'.literals := by
    rw [Checked.filterM_eq_ok hlive, List.filter_true]
  subst hnil
  rw [Database.collect, hcs, ok_bind, List.foldlM_nil, pure_eq_ok, ok_bind, hkept]
  rfl

/-- Collecting garbage where every literal leads to a constraint. -/
theorem Indexed.collect {db : Database} (h : db.Indexed)
    (hlit : ∀ e ∈ db.literals, ∃ k, db.stored e.2 = some k) :
    ∃ db' n, db.collect = .ok (db', n) ∧ db'.Indexed ∧ Pruned db db' ∧
      db'.literals = db.literals.filter (fun e => (db'.stored e.2).any (·.live)) ∧
      ∀ c, ¬ db'.Removable c := by
  obtain ⟨cs, hcs, hnodup, hrem⟩ := h.collectable_spec
  obtain ⟨b, hok, hr⟩ := h.removePairs hnodup fun c hc => (hrem c).mp hc
  have hb := hr.indexed
  have hp := hr.pruned
  let live : Term × ConstraintId → Bool := fun e => (b.stored e.2).any (·.live)
  have hlive : ∀ e ∈ db.literals, ∃ k, b.stored e.2 = some k := fun e he => by
    obtain ⟨k, hk⟩ := hlit e he
    rcases hp.stored e.2 k hk with hk' | ⟨_, hk'⟩ <;> exact ⟨_, hk'⟩
  have hclean : ∀ c, ¬ b.Removable c := by
    -- both halves of a pair that can be removed now were there before
    rintro c ⟨k, l, hk, hlive, hlt, hcol, hl, hlcol⟩
    obtain ⟨l', hl', _, _, hllive⟩ := hb.negation c k hk
    obtain rfl : l = l' := Option.some.inj (Eq.trans (Eq.symm hl) hl')
    have hc : c ∈ cs := (hrem c).mpr ⟨k, l, hp.survivor hk hlive, hlive, hlt, hcol,
      hp.survivor hl' (hllive.trans hlive), hlcol⟩
    rw [hr.gone c hc List.not_mem_nil k hk] at hlive
    cases hlive
  refine ⟨{ b with literals := db.literals.filter live }, 2 * cs.length, ?_,
    ⟨hb.find_iff, hb.negation, hb.tidy⟩, ⟨hp.stored, hp.origin, hp.changes⟩, rfl, hclean⟩
  rw [Database.collect, hcs, ok_bind, hok, ok_bind, hr.literals, Checked.filterM_eq_ok (p := live)
    fun e he => by
      obtain ⟨k, hk⟩ := hlive e he
      simp only [get_eq_ok hk, ok_bind, pure_eq_ok, live, hk, Option.any_some]]
  rfl

/-- Collecting garbage. -/
theorem Valid.collect {db : Database} (h : db.Valid) :
    ∃ db' n, db.collect = .ok (db', n) ∧ Collected db db' := by
  obtain ⟨db', n, hok, hindexed, hp, hlit, hclean⟩ := h.toIndexed.collect fun e he => by
    obtain ⟨_, k, hk, _⟩ := h.known e.1 e.2 ((lookup_eq_some_iff_mem h.keys).mpr he)
    exact ⟨k, hk⟩
  have hkeys : (db'.literals.map Prod.fst).Nodup := by
    rw [hlit]
    exact h.keys.sublist (List.filter_sublist.map _)
  have hlookup : ∀ t c, db'.lookup t = some c ↔
      db.lookup t = some c ∧ ∃ k, db'.stored c = some k ∧ k.live = true := by
    intro t c
    refine (lookup_eq_some_iff_mem hkeys).trans ?_
    rw [hlit]
    refine List.mem_filter.trans (and_congr (lookup_eq_some_iff_mem h.keys).symm ?_)
    exact Option.any_eq_true _ _
  refine ⟨db', n, hok, ⟨⟨hindexed, fun c k' hk' => ?_, hkeys, fun t c ht => ?_,
    fun c k' hk' hl => ?_⟩, hp, hlookup, hclean⟩⟩
  · obtain ⟨k, hk⟩ := hp.origin c k' hk'
    have hrep := h.representable c k hk
    rcases hp.stored c k hk with hk'' | ⟨_, hk''⟩ <;>
      rw [Option.some.inj (hk'.symm.trans hk'')] <;> exact hrep
  · obtain ⟨hdb, k', hk', hl⟩ := (hlookup t c).mp ht
    obtain ⟨htl, k, hk, _, hneg⟩ := h.known t c hdb
    have hkk := Option.some.inj (hk.symm.trans (hp.survivor hk' hl))
    subst hkk
    obtain ⟨l', hl', _, _, hll⟩ := hindexed.negation c k hk'
    exact ⟨htl, k, hk', hl, (hlookup _ _).mpr ⟨hneg, l', hl', hll.trans hl⟩⟩
  · obtain ⟨t, ht, htl⟩ := h.named c k' (hp.survivor hk' hl) hl
    exact ⟨t, ht, (hlookup _ _).mpr ⟨htl, k', hk', hl⟩⟩

end LinearArithmetic.Database
