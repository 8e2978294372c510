import LinearArithmetic.Proofs.Recorded

/-!
# Recording in the innermost scope

A proof, a bound or a disequality that goes back to processed facts can be added to what the
theory knows now. The ledgers of the outer scopes stay as they are.
-/

namespace LinearArithmetic

namespace Ledger

variable {L : Ledger} {db : Database}

/-! ## Proofs -/

/-- The ledger with the marks of one constraint replaced. -/
def marking (c : ConstraintId) (m : Marks) (L : Ledger) : Ledger :=
  { L with marks := Function.update L.marks c m }

/-- The marks give the constraint a proof that goes back to processed facts. -/
def Justified (db : Database) (L : Ledger) (c : ConstraintId) (k : Constraint) (m : Marks) : Prop :=
  (m.proof = some [] ∧ ∃ t, m.asserted.or k.literal = some t ∧ db.lookup t = some c ∧
      ∃ f ∈ L.facts, f.literal = t) ∨
    ∃ a l, m.proof = some [a] ∧ (L.marks a).proof = some [] ∧ db.stored a = some l ∧
      l.statement.Implies k.statement ∧ L.InEffect l.statement

@[simp] theorem marks_marking_self (L : Ledger) (c : ConstraintId) (m : Marks) :
    (L.marking c m).marks c = m := Function.update_self _ _ _

theorem marks_marking_of_ne {c d : ConstraintId} (hd : d ≠ c) (m : Marks) :
    (L.marking c m).marks d = L.marks d := Function.update_of_ne hd _ _

theorem extends_marking {c : ConstraintId} (hnew : ¬ L.Proven c) (m : Marks) :
    Extends L (L.marking c m) where
  proofs d hd := by
    have hne : d ≠ c := fun h => hnew (h ▸ hd)
    rw [marks_marking_of_ne hne]
    exact ⟨rfl, rfl⟩
  bounds := (Extends.refl L).bounds
  disequalities := (Extends.refl L).disequalities
  facts := (Extends.refl L).facts

theorem proven_marking {c d : ConstraintId} {m : Marks} (h : (L.marking c m).Proven d) :
    d = c ∨ L.Proven d := by
  by_cases hd : d = c
  · exact .inl hd
  · rw [Proven, marks_marking_of_ne hd] at h
    exact .inr h

theorem self_marking {c d : ConstraintId} (hnew : ¬ L.Proven c) (m : Marks)
    (hd : (L.marks d).proof = some []) : ((L.marking c m).marks d).proof = some [] := by
  have hproven : L.Proven d := by
    rw [Proven, hd]
    simp
  exact ((extends_marking hnew m).proofs d hproven).1.trans hd

theorem Justified.proof_ne_none {c : ConstraintId} {k : Constraint} {m : Marks}
    (h : Justified db L c k m) : m.proof ≠ none := by
  rcases h with ⟨hp, _⟩ | ⟨a, l, hp, _⟩ <;> rw [hp] <;> simp

theorem Sound.marking (h : L.Sound db) (hv : db.Indexed) {c : ConstraintId} {k : Constraint}
    (hc : db.stored c = some k) (hlive : k.live = true) (hnew : ¬ L.Proven c)
    (hneg : ¬ L.Proven k.negation) {m : Marks} (hm : Justified db L c k m) :
    (L.marking c m).Sound db where
  stored d hd := by
    rcases proven_marking hd with rfl | hd
    · exact ⟨k, hc, hlive⟩
    · exact h.stored d hd
  consistent d l hl hd hdn := by
    rcases proven_marking hd with rfl | hd
    · rw [hc] at hl
      obtain rfl := Option.some.inj hl
      exact hneg ((proven_marking hdn).resolve_left (hv.negation_ne hc))
    · rcases proven_marking hdn with hdn | hdn
      · obtain ⟨k', hk', hback, _⟩ := hv.negation d l hl
        rw [hdn, hc] at hk'
        obtain rfl := Option.some.inj hk'
        exact hneg (hback ▸ hd)
      · exact h.consistent d l hl hd hdn
  blank d hd := by
    have hdc : d ≠ c := by
      rintro rfl
      rw [Proven, marks_marking_self] at hd
      exact hd hm.proof_ne_none
    rw [Proven, marks_marking_of_ne hdc] at hd
    rw [marks_marking_of_ne hdc]
    exact h.blank d hd
  self d l hl hp := by
    by_cases hdc : d = c
    · subst hdc
      rw [hc] at hl
      obtain rfl := Option.some.inj hl
      rw [marks_marking_self] at hp ⊢
      rcases hm with ⟨_, ht⟩ | ⟨a, _, hpa, _⟩
      · exact ht
      · rw [hp] at hpa
        cases hpa
    · rw [marks_marking_of_ne hdc] at hp ⊢
      exact h.self d l hl hp
  implied d l a as hl hp := by
    by_cases hdc : d = c
    · subst hdc
      rw [hc] at hl
      obtain rfl := Option.some.inj hl
      rw [marks_marking_self] at hp
      rcases hm with ⟨hpm, _⟩ | ⟨a', l, hpa, ha, hla, himp, heff⟩
      · rw [hp] at hpm
        cases hpm
      · rw [hp] at hpa
        obtain ⟨rfl, rfl⟩ := List.cons.inj (Option.some.inj hpa)
        exact ⟨rfl, self_marking hnew m ha, l, hla, himp, heff⟩
    · rw [marks_marking_of_ne hdc] at hp
      obtain ⟨has, ha, hrest⟩ := h.implied d l a as hl hp
      exact ⟨has, self_marking hnew m ha, hrest⟩
  reasons side v b hb := (h.reasons side v b hb).imp_left (self_marking hnew m)
  ordered := h.ordered
  disequalities d hd := (h.disequalities d hd).imp_left (self_marking hnew m)

/-- The ledger with other marks, which agree on proofs. -/
def flagging (m : ConstraintId → Marks) (L : Ledger) : Ledger := { L with marks := m }

theorem extends_flagging {m : ConstraintId → Marks} (hm : Database.SameProofs L.marks m) :
    Extends L (L.flagging m) where
  proofs c _ := hm c
  bounds := (Extends.refl L).bounds
  disequalities := (Extends.refl L).disequalities
  facts := (Extends.refl L).facts

theorem Sound.flagging (h : L.Sound db) {m : ConstraintId → Marks}
    (hm : Database.SameProofs L.marks m) : (L.flagging m).Sound db := by
  have hproof : ∀ c, ((L.flagging m).marks c).proof = (L.marks c).proof := fun c => (hm c).1
  have hproven : ∀ c, (L.flagging m).Proven c ↔ L.Proven c := by
    intro c
    rw [Proven, Proven, hproof]
  exact {
    stored := fun c hc => h.stored c ((hproven c).mp hc)
    consistent := fun c k hk hc hn =>
      h.consistent c k hk ((hproven c).mp hc) ((hproven _).mp hn)
    blank := fun c hc => (hm c).2.trans (h.blank c fun hp => hc ((hproven c).mpr hp))
    self := fun c k hk hp => by
      rw [show ((L.flagging m).marks c).asserted = (L.marks c).asserted from (hm c).2]
      exact h.self c k hk ((hproof c).symm.trans hp)
    implied := fun c k a as hk hp => by
      obtain ⟨has, ha, hrest⟩ := h.implied c k a as hk ((hproof c).symm.trans hp)
      exact ⟨has, (hproof a).trans ha, hrest⟩
    reasons := fun side v b hb => (h.reasons side v b hb).imp_left (hproof _).trans
    ordered := h.ordered
    disequalities := fun d hd => (h.disequalities d hd).imp_left (hproof d).trans }

/-! ## Bounds and disequalities -/

/-- The ledger with other bounds. -/
def bounding (bounds : Side → Var → Option Bound) (L : Ledger) : Ledger := { L with bounds }

theorem extends_bounding {bounds : Side → Var → Option Bound}
    (hmore : ∀ side v b, L.bounds side v = some b →
      ∃ b', bounds side v = some b' ∧ side.Inside b.value b'.value) :
    Extends L (L.bounding bounds) where
  proofs _ _ := ⟨rfl, rfl⟩
  bounds := hmore
  disequalities := (Extends.refl L).disequalities
  facts := (Extends.refl L).facts

theorem Sound.bounding (h : L.Sound db) {bounds : Side → Var → Option Bound}
    (hmore : ∀ side v b, L.bounds side v = some b →
      ∃ b', bounds side v = some b' ∧ side.Inside b.value b'.value)
    (hreasons : ∀ side v b, bounds side v = some b → L.bounds side v = some b ∨
      (L.marks b.reason).proof = some [] ∧ ∃ k, db.stored b.reason = some k ∧
        k.statement.var = v ∧ k.statement.value = b.value ∧
          (k.statement.kind = side.kind ∨ k.statement.kind = .equality))
    (hordered : ∀ v l u, bounds .lower v = some l → bounds .upper v = some u →
      l.value ≤ u.value) : (L.bounding bounds).Sound db where
  stored := h.stored
  consistent := h.consistent
  blank := h.blank
  self := h.self
  implied c k a as hk hp := by
    obtain ⟨has, ha, l, hl, himp, heff⟩ := h.implied c k a as hk hp
    exact ⟨has, ha, l, hl, himp, heff.extends (extends_bounding hmore) hordered⟩
  reasons side v b hb := (hreasons side v b hb).elim (h.reasons side v b) id
  ordered := hordered
  disequalities := h.disequalities

/-- The ledger with one more disequality. -/
def excluding (d : ConstraintId) (L : Ledger) : Ledger :=
  { L with disequalities := L.disequalities ++ [d] }

theorem extends_excluding (d : ConstraintId) : Extends L (L.excluding d) where
  proofs _ _ := ⟨rfl, rfl⟩
  bounds := (Extends.refl L).bounds
  disequalities _ := List.mem_append_left _
  facts := (Extends.refl L).facts

theorem Sound.excluding (h : L.Sound db) {d : ConstraintId} {k : Constraint}
    (hd : (L.marks d).proof = some []) (hk : db.stored d = some k)
    (hkind : k.statement.kind = .disequality) : (L.excluding d).Sound db where
  stored := h.stored
  consistent := h.consistent
  blank := h.blank
  self := h.self
  implied := h.implied
  reasons := h.reasons
  ordered := h.ordered
  disequalities c hc := by
    rcases List.mem_append.mp hc with hc | hc
    · exact h.disequalities c hc
    · rw [List.mem_singleton.mp hc]
      exact ⟨hd, k, hk, hkind⟩

/-- The number of a bound is within both bounds. -/
theorem Sound.inside_of_bound (h : L.Sound db) {side : Side} {v : Var} {b : Bound}
    (hb : L.bounds side v = some b) {t : Side} {b' : Bound} (hb' : L.bounds t v = some b') :
    t.Inside b'.value b.value := by
  by_cases hts : t = side
  · rw [hts, hb] at hb'
    rw [Option.some.inj hb']
    exact Side.inside_refl _ _
  · cases t with
    | lower =>
      cases side with
      | lower => exact absurd rfl hts
      | upper => exact h.ordered v b' b hb' hb
    | upper =>
      cases side with
      | lower => exact h.ordered v b b' hb hb'
      | upper => exact absurd rfl hts

/-- No statement in effect rules out a number that the bounds allow. -/
theorem Sound.self_of_allowed (h : L.Sound db) {d : ConstraintId} {k : Constraint}
    (hk : db.stored d = some k) (hd : L.Proven d) {x : DeltaRat} (hno : ¬ k.statement.Holds x)
    (hin : ∀ side b, L.bounds side k.statement.var = some b → side.Inside b.value x) :
    (L.marks d).proof = some [] := by
  obtain ⟨as, has⟩ := Option.ne_none_iff_exists'.mp hd
  cases as with
  | nil => exact has
  | cons a as =>
    obtain ⟨_, _, l, _, himp, heff⟩ := h.implied d k a as hk has
    refine absurd (himp.2 x (heff.holds ?_)) hno
    rw [← himp.1]
    exact hin

/-- A bound that is tight enough puts a statement into effect. -/
theorem inEffect_of_bound {L : Ledger} {st : Statement} {side : Side}
    (hkind : st.kind = side.kind) {b : Bound} (hb : L.bounds side st.var = some b)
    (hin : side.Inside st.value b.value) : L.InEffect st := by
  obtain ⟨v, kind, x⟩ := st
  obtain rfl : kind = side.kind := hkind
  cases side with
  | lower => exact ⟨b, hb, hin⟩
  | upper => exact ⟨b, hb, hin⟩

end Ledger

namespace Theory

/-! ## Records that do not matter -/

/-- The order of a state is about its variables, its simplex procedure and what is eliminated. -/
theorem Framed.congr {s s' : Theory} (h : s.Framed) (hinfos : s'.infos = s.infos)
    (hsimplex : s'.simplex = s.simplex) (helim : s'.eliminated = s.eliminated) : s'.Framed where
  toArranged := h.toArranged.congr hinfos (by rw [hsimplex]) (by rw [hsimplex]) helim
  values := by rw [hsimplex]; exact h.values
  safe := by rw [hsimplex]; exact h.safe
  dormant v hv := by rw [hsimplex]; exact h.dormant v ((dormant_congr hinfos helim).mp hv)

theorem content?_congr {s s' : Theory} (hinfos : s'.infos = s.infos) :
    s'.content? = s.content? := by
  funext v
  rw [content?, content?, hinfos]

theorem Named.congr {s s' : Theory} (h : s.Named) (hinfos : s'.infos = s.infos)
    (hleaves : s'.leaves = s.leaves) (hslacks : s'.slacks = s.slacks) : s'.Named where
  leaves t v := by
    rw [varOf?, hleaves, content?_congr hinfos]
    exact h.leaves t v
  slacks r v := by
    rw [hslacks, content?_congr hinfos]
    exact h.slacks r v
  leaf t v hv := h.leaf t v (content?_congr hinfos ▸ hv)
  listed e he := by
    rw [hleaves] at he
    rw [hinfos]
    exact h.listed e he
  normal t r v hv := h.normal t r v (content?_congr hinfos ▸ hv)

/-- What literals mean stays as long as what the variables stand for does. -/
theorem Linked.congr {s s' : Theory} (h : s.Linked) (ha : s.Arranged)
    (hinfos : s'.infos = s.infos) (hconst : s'.constantAtoms = s.constantAtoms)
    (hdb : Database.Agrees s.database s'.database) : s'.Linked := by
  refine h.transfer ha (hdb.valid h.valid) (fun t c k hc hk => ?_)
    (fun v p hp => content?_congr hinfos ▸ hp) hconst
  rw [hdb.lookup] at hc
  obtain ⟨k₀, hk₀, hb⟩ := hdb.symm.stored hk
  exact ⟨hc, k₀, hk₀, Constraint.statement_of_bare hb⟩

/-- The states differ in what waits to be processed and in their schedule only. -/
structure Alike (s s' : Theory) : Prop where
  options : s'.options = s.options
  infos : s'.infos = s.infos
  leaves : s'.leaves = s.leaves
  slacks : s'.slacks = s.slacks
  constantAtoms : s'.constantAtoms = s.constantAtoms
  database : s'.database = s.database
  simplex : s'.simplex = s.simplex
  processed : s'.processed = s.processed
  disequalities : s'.disequalities = s.disequalities
  propagations : s'.propagations = s.propagations
  eliminated : s'.eliminated = s.eliminated

section Alike

variable {s s' : Theory} (h : Alike s s')

include h

theorem Alike.sameLedgers : SameLedgers s s' :=
  ⟨by rw [h.database], by rw [h.database], by rw [h.simplex], by rw [h.simplex], h.disequalities,
    h.processed⟩

theorem Alike.dormant_iff (u : Var) : s'.Dormant u ↔ s.Dormant u :=
  dormant_congr h.infos h.eliminated

theorem Alike.sane (hs : s.Sane) (hlin : ∀ f ∈ s'.pending, f.literal.Linear) : s'.Sane where
  framed := hs.framed.congr h.infos h.simplex h.eliminated
  named := hs.named.congr h.infos h.leaves h.slacks
  linked := hs.linked.congr hs.framed.toArranged h.infos h.constantAtoms
    (h.database.symm ▸ .refl s.database)
  balanced := hs.balanced.congr h.infos (by rw [h.simplex]) h.eliminated
  trimmed := hs.trimmed.congr h.infos h.eliminated fun _ => by rw [h.database]
  recorded := h.sameLedgers.recorded hs.recorded
    (fun _ _ => h.database.symm ▸ Ledger.keeps_of_agrees (.refl _) _) (by rw [h.simplex])
    (fun _ v _ _ hd => (h.dormant_iff v).mp hd)
    (fun _ _ k _ hd => (h.dormant_iff k.statement.var).mp hd) hlin

theorem Alike.proceeds : Proceeds s s' where
  options := h.options
  level := h.sameLedgers.level
  below n _ := h.sameLedgers.ledgerAt n
  more := h.sameLedgers.now.symm ▸ .refl _
  stored c k hc := ⟨k, by rw [h.database]; exact hc, rfl⟩
  lookup t c hc := by rw [h.database]; exact hc
  contents v p hp := by rw [content?_congr h.infos]; exact hp
  constants a b hb := by rw [h.constantAtoms]; exact hb
  awake u hu := (h.dormant_iff u).mp hu
  owes L hL := ⟨h.propagations ▸ hL.nodup, fun t => by
    simp only [h.propagations, hL.mem_iff, Implied, h.database],
    fun c hc => h.sameLedgers.now.symm ▸ hL.proven c hc⟩
  inherits := h.database.symm ▸ .refl _
  safe u _ := by rw [h.simplex]
  lemmas := by rw [h.simplex]
  queued hq := by rw [h.simplex]; exact hq

theorem Alike.complete {L : Ledger} (hL : L.Complete s) : L.Complete s' where
  settled f hf := by
    have hset := hL.settled f hf
    rw [Ledger.Settles, constantTruth?, h.constantAtoms, h.database]
    exact hset
  effective := by rw [h.database]; exact hL.effective

end Alike

/-! ## Steps that record something -/

/-- The database gets marks. -/
theorem Sane.withDatabase {s : Theory} (hs : s.Sane) {db : Database}
    (h : Database.Advances s.database db) (ls : List Term)
    (hmore : Ledger.Extends s.now { s.now with marks := db.marksOf })
    (hsound : Ledger.Sound s.database { s.now with marks := db.marksOf })
    (howes : ∀ L, s.Owes L → ({ s with database := db, propagations := ls } : Theory).Owes L) :
    ({ s with database := db, propagations := ls } : Theory).Sane ∧
      Proceeds s { s with database := db, propagations := ls } := by
  have hproceeds : Proceeds s { s with database := db, propagations := ls } := by
    refine ⟨⟨rfl, rfl, fun n hn => ?_, hmore, fun c k hc => h.agrees.stored hc,
      fun t c hc => ?_, fun _ _ hp => hp, fun _ _ hb => hb, fun _ hu => hu, howes,
      h.agrees.inherits⟩,
      fun _ _ => rfl, rfl, id⟩
    · rw [ledgerAt, ledgerAt]
      rw [h.below n (hs.recorded.levelled.database ▸ hn)]
    · rw [h.agrees.lookup]
      exact hc
  refine ⟨⟨hs.framed.congr rfl rfl rfl, hs.named.congr rfl rfl rfl,
    hs.linked.congr hs.framed.toArranged rfl rfl h.agrees, hs.balanced.congr rfl rfl rfl,
    hs.trimmed.congr rfl rfl h.agrees.hasConstraints,
    hs.recorded.continues hproceeds.toContinues ⟨?_, hs.recorded.levelled.model,
      hs.recorded.levelled.disequalities⟩ hs.recorded.tracked
      (hsound.keeps (Ledger.keeps_of_agrees h.agrees _)) hs.recorded.bounded (fun d hd k hk => ?_)
      hs.recorded.linear⟩, hproceeds⟩
  · exact h.level.trans hs.recorded.levelled.database
  · obtain ⟨k₀, hk₀, hb⟩ := h.agrees.symm.stored hk
    rw [← Constraint.statement_of_bare hb]
    exact hs.recorded.excluded d hd k₀ hk₀

/-- One constraint gets a proof. -/
theorem Sane.marking {s : Theory} (hs : s.Sane) {db : Database}
    (h : Database.Advances s.database db) {c : ConstraintId} {m : Marks}
    (hm : db.marksOf = Function.update s.database.marksOf c m) {k : Constraint}
    (hc : s.database.stored c = some k) (hlive : k.live = true) (hnew : ¬ s.now.Proven c)
    (hneg : ¬ s.now.Proven k.negation) (hj : s.now.Justified s.database c k m) (ls : List Term)
    (howes : ∀ L, s.Owes L → ({ s with database := db, propagations := ls } : Theory).Owes L) :
    ({ s with database := db, propagations := ls } : Theory).Sane ∧
      Proceeds s { s with database := db, propagations := ls } := by
  have hnow : { s.now with marks := db.marksOf } = s.now.marking c m := by
    rw [hm]
    rfl
  refine hs.withDatabase h ls ?_ ?_ howes <;> rw [hnow]
  · exact Ledger.extends_marking hnew m
  · exact hs.recorded.sound_now.marking hs.linked.valid.toIndexed hc hlive hnew hneg hj

/-- Constraints get flags that are not about proofs. -/
theorem Sane.flagging {s : Theory} (hs : s.Sane) {db : Database}
    (h : Database.Flags s.database db) :
    ({ s with database := db } : Theory).Sane ∧ Proceeds s { s with database := db } :=
  hs.withDatabase h.advances s.propagations (Ledger.extends_flagging h.proofs)
    (hs.recorded.sound_now.flagging h.proofs) fun _ hL => hL.congr hs.recorded.sound_now
      (Ledger.keeps_of_agrees h.advances.agrees _) (fun c a as => by rw [(h.proofs c).1])
      (fun c hc => (Ledger.extends_flagging h.proofs).proven hc) rfl

/-- Asserting bounds of a variable that is awake keeps the rows in order. -/
theorem Framed.asserts {s : Theory} (h : s.Framed) {v : Var} {x : Simplex}
    (hx : Simplex.Asserts v s.simplex x) (hv : ¬ s.Dormant v) :
    ({ s with simplex := x } : Theory).Framed where
  toArranged := h.toArranged.congr rfl hx.tableau hx.room rfl
  values := hx.solves h.values
  safe := by
    show x.tableau.Solves x.model.safeOf
    rw [hx.tableau, hx.safe]
    exact h.safe
  dormant u hu := by
    have hd : s.Dormant u := hu
    have hrow := Tableau.row?_of_not_mentions (h.not_mentions_of_dormant hd)
    rw [hx.saved u (by rintro rfl; exact hv hd) hrow]
    exact h.dormant u hd

/-- A variable that is awake gets bounds. -/
theorem Sane.bounding {s : Theory} (hs : s.Sane) {v : Var} {x : Simplex}
    (h : Simplex.Asserts v s.simplex x) (hv : ¬ s.Dormant v)
    (hmore : ∀ side u b, s.simplex.model.boundOf side u = some b →
      ∃ b', x.model.boundOf side u = some b' ∧ side.Inside b.value b'.value)
    (hother : ∀ side u, u ≠ v → x.model.boundOf side u = s.simplex.model.boundOf side u)
    (hreasons : ∀ side b, x.model.boundOf side v = some b →
      s.simplex.model.boundOf side v = some b ∨
      (s.database.marksOf b.reason).proof = some [] ∧ ∃ k, s.database.stored b.reason = some k ∧
        k.statement.var = v ∧ k.statement.value = b.value ∧
          (k.statement.kind = side.kind ∨ k.statement.kind = .equality))
    (hordered : ∀ l u, x.model.boundOf .lower v = some l → x.model.boundOf .upper v = some u →
      l.value ≤ u.value) :
    ({ s with simplex := x } : Theory).Sane ∧ Proceeds s { s with simplex := x } := by
  have hord : ∀ u l u', x.model.boundOf .lower u = some l → x.model.boundOf .upper u = some u' →
      l.value ≤ u'.value := by
    intro u l u' hl hu'
    by_cases huv : u = v
    · subst huv
      exact hordered l u' hl hu'
    · rw [hother _ u huv] at hl hu'
      exact hs.recorded.sound_now.ordered u l u' hl hu'
  have hproceeds : Proceeds s { s with simplex := x } := by
    refine ⟨⟨rfl, rfl, fun n hn => ?_, Ledger.extends_bounding hmore, fun c k hc => ⟨k, hc, rfl⟩,
      fun _ _ hc => hc, fun _ _ hp => hp, fun _ _ hb => hb, fun _ hu => hu,
      fun _ hL => ⟨hL.nodup, hL.mem_iff, hL.proven⟩, .refl _⟩, fun u _ => ?_, h.lemmas, h.queued⟩
    · rw [ledgerAt, ledgerAt]
      rw [h.below.below n (hs.recorded.levelled.model ▸ hn)]
    · rw [h.safe]
  refine ⟨⟨hs.framed.asserts h hv, hs.named.congr rfl rfl rfl,
    hs.linked.congr hs.framed.toArranged rfl rfl (.refl _), hs.balanced.congr rfl h.tableau rfl,
    hs.trimmed.congr rfl rfl fun _ => rfl,
    hs.recorded.continues hproceeds.toContinues ⟨hs.recorded.levelled.database, ?_,
      hs.recorded.levelled.disequalities⟩ (h.below.tracked hs.recorded.tracked)
      (hs.recorded.sound_now.bounding hmore (fun side u b hb => ?_) hord) (fun side u b hb => ?_)
      hs.recorded.excluded hs.recorded.linear⟩, hproceeds⟩
  · exact h.below.level.trans hs.recorded.levelled.model
  · by_cases huv : u = v
    · subst huv
      exact hreasons side b hb
    · exact .inl ((hother side u huv).symm.trans hb)
  · by_cases huv : u = v
    · rw [huv]
      exact hv
    · exact hs.recorded.bounded side u b ((hother side u huv).symm.trans hb)

/-- A disequality with a proof is asserted. -/
theorem Sane.excluding {s : Theory} (hs : s.Sane) {d : ConstraintId} {k : Constraint}
    (hd : (s.database.marksOf d).proof = some []) (hk : s.database.stored d = some k)
    (hkind : k.statement.kind = .disequality) (hv : ¬ s.Dormant k.statement.var) :
    ({ s with disequalities := s.disequalities.push d } : Theory).Sane ∧
      Proceeds s { s with disequalities := s.disequalities.push d } := by
  have hnow : ({ s with disequalities := s.disequalities.push d } : Theory).now =
      s.now.excluding d := by
    rw [now, Trail.toList_push]
    rfl
  have hproceeds : Proceeds s { s with disequalities := s.disequalities.push d } := by
    refine ⟨⟨rfl, rfl, fun n hn => ?_, hnow ▸ Ledger.extends_excluding d,
      fun c k hc => ⟨k, hc, rfl⟩, fun _ _ hc => hc, fun _ _ hp => hp, fun _ _ hb => hb,
      fun _ hu => hu, fun _ hL => ⟨hL.nodup, hL.mem_iff, hL.proven⟩, .refl _⟩, fun _ _ => rfl, rfl,
      id⟩
    rw [ledgerAt, ledgerAt, Trail.kept_push (hs.recorded.levelled.disequalities ▸ hn)]
  refine ⟨⟨hs.framed.congr rfl rfl rfl, hs.named.congr rfl rfl rfl,
    hs.linked.congr hs.framed.toArranged rfl rfl (.refl _), hs.balanced.congr rfl rfl rfl,
    hs.trimmed.congr rfl rfl fun _ => rfl,
    hs.recorded.continues hproceeds.toContinues ⟨hs.recorded.levelled.database,
      hs.recorded.levelled.model, hs.recorded.levelled.disequalities⟩ hs.recorded.tracked ?_
      hs.recorded.bounded
      (fun c hc l hl => ?_) hs.recorded.linear⟩, hproceeds⟩
  · rw [hnow]
    exact hs.recorded.sound_now.excluding hd hk hkind
  · rw [Trail.toList_push] at hc
    rcases List.mem_append.mp hc with hc | hc
    · exact hs.recorded.excluded c hc l hl
    · rw [List.mem_singleton.mp hc] at hl
      have hl' : s.database.stored d = some l := hl
      rw [hk] at hl'
      rw [← Option.some.inj hl']
      exact hv

end Theory

end LinearArithmetic
