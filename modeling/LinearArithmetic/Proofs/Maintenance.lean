import LinearArithmetic.Proofs.Recording
import LinearArithmetic.Proofs.Reset

/-!
# Operations between checks

Registering, asserting, presolving, eliminating and resetting process no fact. They leave the
ledgers of all open scopes as they are, up to flags, and keep values within their bounds.
-/

namespace LinearArithmetic

namespace Ledger

/-- The ledgers differ in flags only. -/
structure Matches (L L' : Ledger) : Prop where
  proofs : Database.SameProofs L.marks L'.marks
  bounds : L'.bounds = L.bounds
  disequalities : L'.disequalities = L.disequalities
  facts : L'.facts = L.facts

theorem Matches.refl (L : Ledger) : Matches L L := ⟨.refl _, rfl, rfl, rfl⟩

theorem Matches.of_eq {L L' : Ledger} (h : L' = L) : Matches L L' := h ▸ .refl L

theorem Matches.trans {L₁ L₂ L₃ : Ledger} (h : Matches L₁ L₂) (k : Matches L₂ L₃) :
    Matches L₁ L₃ :=
  ⟨h.proofs.trans k.proofs, k.bounds.trans h.bounds, k.disequalities.trans h.disequalities,
    k.facts.trans h.facts⟩

theorem Matches.complete {s : Theory} {L L' : Ledger} (h : Matches L L') (hc : L.Complete s) :
    L'.Complete s where
  settled f hf := by
    rw [h.facts] at hf
    refine (hc.settled f hf).imp id fun ⟨c, hlook, hp⟩ => ⟨c, hlook, ?_⟩
    rw [Proven, (h.proofs c).1]
    exact hp
  effective c k hk hp := by
    have hf := hc.effective c k hk ((h.proofs c).1.symm.trans hp)
    rw [Fulfils, InEffect, Pinned] at hf ⊢
    rw [h.bounds, h.disequalities]
    exact hf

theorem Matches.keeps {L L' : Ledger} (h : Matches L L') {db db' : Database}
    (hk : L.Keeps db db') : L'.Keeps db db' := by
  have hproven : ∀ c, L'.Proven c → L.Proven c := by
    intro c hc
    rw [Proven, (h.proofs c).1] at hc
    exact hc
  exact ⟨fun c k hc => hk.stored c k (hproven c hc), fun t c hc => hk.lookup t c (hproven c hc)⟩

end Ledger

namespace Theory

/-- Every variable is within its bounds. -/
def Inside (s : Theory) : Prop := ∀ u, s.simplex.model.Within u

/-- The second state has the same ledgers, up to flags of the innermost scope, and its values fit as
those of the first do. -/
structure Maintains (s s' : Theory) : Prop where
  sane : s'.Sane
  options : s'.options = s.options
  level : s'.level = s.level
  ledgers : ∀ n ≤ s.level, Ledger.Matches (s.ledgerAt n) (s'.ledgerAt n)
  below : ∀ n < s.level, s'.ledgerAt n = s.ledgerAt n
  keeps : ∀ n ≤ s.level, (s.ledgerAt n).Keeps s.database s'.database
  inherits : Database.Inherits s.database s'.database
  constants : ∀ a b, s.constantAtoms.lookup a = some b → s'.constantAtoms.lookup a = some b
  processed : s'.processed = s.processed
  committed : s.simplex.model.Committed → s'.simplex.model.Committed
  inside : s.Inside → s'.Inside
  contents : ∀ v p, s.content? v = some p → s'.content? v = some p
  current : s.Inside → ∀ v, s.IsLeaf v → s'.currentOf v = s.currentOf v

/-- What was complete stays so. -/
theorem Maintains.complete {s s' : Theory} (h : Maintains s s') (hs : s.Sane) {n : Nat}
    (hn : n ≤ s.level) (hc : (s.ledgerAt n).Complete s) : (s'.ledgerAt n).Complete s' := by
  refine Ledger.Matches.complete (h.ledgers n hn) ?_
  exact hc.keeps (h.keeps n hn) (hs.recorded.sound n hn) h.constants

/-- The innermost scope stays as it is. -/
theorem Maintains.ledger_now {s s' : Theory} (h : Maintains s s') (hs : s.Sane) :
    Ledger.Matches s.now s'.now := by
  have hledger := h.ledgers s.level (Nat.le_refl _)
  rwa [hs.recorded.levelled.ledgerAt_level, ← h.level,
    h.sane.recorded.levelled.ledgerAt_level] at hledger

/-- Asserted disequalities are kept with the innermost scope. -/
theorem Sane.stored_of_keeps {s : Theory} (hs : s.Sane) {db : Database}
    (hkeeps : (s.ledgerAt s.level).Keeps s.database db) {d : ConstraintId}
    (hd : d ∈ s.disequalities.toList) {k : Constraint} (hk : s.database.stored d = some k) :
    ∃ k', db.stored d = some k' ∧ k'.bare = k.bare := by
  rw [hs.recorded.levelled.ledgerAt_level] at hkeeps
  exact hkeeps.stored d k (proven_of_self (hs.recorded.sound_now.disequalities d hd).1) hk

theorem Maintains.trans {s₁ s₂ s₃ : Theory} (h : Maintains s₁ s₂) (k : Maintains s₂ s₃) :
    Maintains s₁ s₃ where
  sane := k.sane
  options := k.options.trans h.options
  level := k.level.trans h.level
  ledgers n hn := (h.ledgers n hn).trans (k.ledgers n (h.level.symm ▸ hn))
  below n hn := (k.below n (h.level.symm ▸ hn)).trans (h.below n hn)
  keeps n hn := by
    have hk := k.keeps n (h.level.symm ▸ hn)
    have hback : Ledger.Matches (s₂.ledgerAt n) (s₁.ledgerAt n) := by
      obtain ⟨hp, hb, hd, hf⟩ := h.ledgers n hn
      exact ⟨fun d => ⟨(hp d).1.symm, (hp d).2.symm⟩, hb.symm, hd.symm, hf.symm⟩
    have hk' := hback.keeps hk
    refine ⟨fun c l hc hl => ?_, fun t c hc ht => ?_⟩
    · obtain ⟨l', hl', hb⟩ := (h.keeps n hn).stored c l hc hl
      obtain ⟨l'', hl'', hb'⟩ := hk'.stored c l' hc hl'
      exact ⟨l'', hl'', hb'.trans hb⟩
    · exact hk'.lookup t c hc ((h.keeps n hn).lookup t c hc ht)
  inherits := h.inherits.trans k.inherits
  constants a b hb := k.constants a b (h.constants a b hb)
  processed := k.processed.trans h.processed
  committed hc := k.committed (h.committed hc)
  inside hi := k.inside (h.inside hi)
  contents v p hp := k.contents v p (h.contents v p hp)
  current hi v hv :=
    (k.current (h.inside hi) v (hv.of_contents h.contents)).trans (h.current hi v hv)

theorem Sane.maintains_refl {s : Theory} (hs : s.Sane) : Maintains s s :=
  ⟨hs, rfl, rfl, fun _ _ => .refl _, fun _ _ => rfl,
    fun _ _ => Ledger.keeps_of_agrees (.refl _) _, .refl _, fun _ _ => id, rfl, id, id,
    fun _ _ => id, fun _ _ _ => rfl⟩

/-- A state is inside its bounds if only values of variables without bounds have changed. -/
theorem inside_of_values {s s' : Theory} (hr : s.Recorded)
    (hb : s'.simplex.model.boundOf = s.simplex.model.boundOf)
    (hv : ∀ u, ¬ s.Dormant u → s'.simplex.model.valueOf u = s.simplex.model.valueOf u)
    (h : s.Inside) : s'.Inside := by
  intro u side b hbound
  rw [hb] at hbound
  rw [hv u (hr.bounded side u b hbound)]
  exact h u side b hbound

/-- The values of variables that are awake stay as they are, and marked basic variables stay marked
and basic. -/
structure Steady (s s' : Theory) : Prop where
  values : ∀ u, ¬ s.Dormant u → s'.simplex.model.valueOf u = s.simplex.model.valueOf u
  watches : ∀ u, ¬ s.Dormant u → s.simplex.Watches u → s'.simplex.Watches u

theorem Steady.of_simplex {s s' : Theory} (h : s'.simplex = s.simplex) : Steady s s' where
  values _ _ := by rw [h]
  watches _ _ hw := by
    rw [h]
    exact hw

/-- New variables and constraints disturb neither the values nor the marks. -/
theorem Registers.steady {s s₁ s' : Theory} (h : Registers s s₁)
    (hsimplex : s'.simplex = s₁.simplex) : Steady s s' where
  values u hu := by
    rw [hsimplex]
    exact (h.grows.values u hu).1
  watches u hu hw := by
    rw [hsimplex]
    exact h.grows.watches u hu hw

theorem Registers.maintains {s s' : Theory} (h : Registers s s') (hs : s.Sane) :
    Maintains s s' where
  sane := h.sane hs
  options := h.options
  level := h.sameLedgers.level
  ledgers n _ := .of_eq (h.sameLedgers.ledgerAt n)
  below n _ := h.sameLedgers.ledgerAt n
  keeps _ _ := Ledger.keeps_of_grown h.database _
  inherits := h.database.inherits
  constants := h.constants
  processed := h.processed
  committed := h.grows.committed
  inside := inside_of_values hs.recorded h.bounds fun u hu => (h.grows.values u hu).1
  contents := h.contents
  current _ _ hv := (h.grows.upholds (definitions_of_contents h.contents)).currentOf_eq
    hs.framed.toArranged hs.balanced h.grows.framed (h.grows.balanced hs.balanced) hv.active

theorem Alike.maintains {s s' : Theory} (h : Alike s s') (hs : s.Sane)
    (hlin : ∀ f ∈ s'.pending, f.literal.Linear) : Maintains s s' where
  sane := h.sane hs hlin
  options := h.options
  level := h.sameLedgers.level
  ledgers n _ := .of_eq (h.sameLedgers.ledgerAt n)
  below n _ := h.sameLedgers.ledgerAt n
  keeps _ _ := h.database.symm ▸ Ledger.keeps_of_agrees (.refl _) _
  inherits := h.database.symm ▸ .refl _
  constants := h.proceeds.constants
  processed := h.processed
  committed hc := by rw [h.simplex]; exact hc
  inside hi := by rw [Inside, h.simplex]; exact hi
  contents := h.proceeds.contents
  current _ v _ := congrFun (currentOf_congr (by rw [h.simplex]) h.eliminated) v

/-! ## Registering -/

/-- Flags are set in the innermost scope. -/
theorem Sane.maintains_flags {s : Theory} (hs : s.Sane) {db : Database}
    (h : Database.Flags s.database db) : Maintains s { s with database := db } := by
  obtain ⟨hsane, hp⟩ := hs.flagging h
  refine ⟨hsane, rfl, rfl, fun n hn => ?_, hp.below,
    fun _ _ => Ledger.keeps_of_agrees h.advances.agrees _, h.advances.agrees.inherits,
    fun _ _ hb => hb, rfl, id, id, fun _ _ => id, fun _ _ _ => rfl⟩
  rcases Nat.lt_or_eq_of_le hn with hlt | rfl
  · exact .of_eq (hp.below n hlt)
  · rw [hs.recorded.levelled.ledgerAt_level]
    have hat : ({ s with database := db } : Theory).ledgerAt s.level =
        ({ s with database := db } : Theory).now := hsane.recorded.levelled.ledgerAt_level
    rw [hat]
    exact ⟨h.proofs, rfl, rfl, rfl⟩

/-- Registering a term succeeds or is refused. -/
theorem Sane.register_spec {s : Theory} (hs : s.Sane) (t : Term) :
    (∃ why, s.register t = .error (.refusal why)) ∨
      ∃ s', s.register t = .ok s' ∧ Maintains s s' ∧ (s'.pending = s.pending ∧
        s'.propagations = s.propagations) ∧ Steady s s' := by
  rw [register]
  by_cases hlit : t.isLiteral = true
  · rw [if_pos hlit]
    rcases registerLiteral_spec hs.framed hs.named hs.linked t with
      ⟨why, hrefused, _⟩ | ⟨s₁, c?, hok, hreg, _, hregistered⟩
    · exact .inl ⟨why, by rw [hrefused]; rfl⟩
    · have hm := hreg.maintains hs
      cases c? with
      | none =>
        exact .inr ⟨s₁, by rw [hok]; rfl, hm, ⟨hreg.pending, hreg.propagations⟩,
          hreg.steady rfl⟩
      | some c =>
        obtain ⟨_, k, hc, _⟩ := hm.sane.linked.valid.known t c hregistered
        obtain ⟨n, hn, _⟩ := hm.sane.linked.valid.negation c k hc
        by_cases hpre : (k.preregistered || n.preregistered) = true
        · refine .inr ⟨s₁, ?_, hm, ⟨hreg.pending, hreg.propagations⟩, hreg.steady rfl⟩
          simp only [hok, Except.mapError, bind, Except.bind, Database.get_eq_ok hc,
            Database.get_eq_ok hn, if_pos hpre]
          rfl
        · have hpre' := hpre
          rw [Bool.or_eq_true, not_or, Bool.not_eq_true, Bool.not_eq_true] at hpre'
          obtain ⟨db, hdb, hflags⟩ :=
            hm.sane.linked.valid.preregister_spec hc hn hpre'.1 hpre'.2
          refine .inr ⟨{ s₁ with database := db }, ?_,
            hm.trans (hm.sane.maintains_flags hflags), ⟨hreg.pending, hreg.propagations⟩,
            hreg.steady rfl⟩
          simp only [hok, Except.mapError, bind, Except.bind, Database.get_eq_ok hc,
            Database.get_eq_ok hn, if_neg hpre, hdb]
          rfl
  · rw [if_neg hlit]
    cases hsum : t.linearSum with
    | error why => exact .inl ⟨why, rfl⟩
    | ok sum =>
      obtain ⟨s', vs, hok, hint, _⟩ := hs.framed.requestVars hs.named (l := sum.leaves)
        fun e he => (Term.linearSum_eq_ok hsum).1 e (List.mem_filter.mp he).1
      have hreg := hint.registers hs.framed.toArranged hs.linked
      refine .inr ⟨s', ?_, hreg.maintains hs, ⟨hreg.pending, hreg.propagations⟩,
        hreg.steady rfl⟩
      simp only [Except.mapError, bind, Except.bind, hok]
      rfl

/-- Asserting a literal queues it, unless it is refused. -/
theorem Sane.assertLiteral_spec {s : Theory} (hs : s.Sane) (t : Term) :
    (∃ why, s.assertLiteral t = .error (.refusal why)) ∨
      ∃ s', s.assertLiteral t = .ok s' ∧ Maintains s s' ∧
        (s'.pending = s.pending ++ [⟨t, s.level⟩] ∧ s'.propagations = s.propagations) ∧
        Steady s s' := by
  rw [assertLiteral]
  by_cases hlit : t.isLiteral = true
  · rcases registerLiteral_spec hs.framed hs.named hs.linked t with
      ⟨why, hrefused, _⟩ | ⟨s₁, c?, hok, hreg, hlin, _⟩
    · exact .inl ⟨why, by rw [hrefused, hlit]; rfl⟩
    · have hm := hreg.maintains hs
      have halike : Alike s₁ { s₁ with pending := s₁.pending ++ [⟨t, s₁.level⟩] } :=
        ⟨rfl, rfl, rfl, rfl, rfl, rfl, rfl, rfl, rfl, rfl, rfl⟩
      refine .inr ⟨_, by rw [hok, hlit]; rfl, hm.trans (halike.maintains hm.sane fun f hf => ?_),
        ⟨?_, hreg.propagations⟩, hreg.steady rfl⟩
      · rcases List.mem_append.mp hf with hf | hf
        · exact hm.sane.recorded.linear f (List.mem_append_right _ hf)
        · rw [List.mem_singleton.mp hf]
          exact hlin
      · rw [← hm.level, ← hreg.pending]
  · rw [Bool.not_eq_true] at hlit
    exact .inl ⟨.notAnAtom t, by rw [hlit]; rfl⟩

/-- Sending what waits to be sent changes nothing else. -/
theorem Sane.maintains_propagate {s : Theory} (hs : s.Sane) : Maintains s s.propagate.1 := by
  have hframed : s.propagate.1.Framed :=
    ⟨hs.framed.toArranged.congr rfl rfl rfl rfl, hs.framed.values, hs.framed.safe,
      hs.framed.dormant⟩
  have hsame : SameLedgers s s.propagate.1 := ⟨rfl, rfl, rfl, rfl, rfl, rfl⟩
  refine ⟨⟨hframed, hs.named.congr rfl rfl rfl,
    hs.linked.congr hs.framed.toArranged rfl rfl (.refl _), hs.balanced.congr rfl rfl rfl,
    hs.trimmed.congr rfl rfl fun _ => rfl,
    hsame.recorded hs.recorded (fun _ _ => Ledger.keeps_of_agrees (.refl _) _) (Nat.le_refl _)
      (fun _ _ _ _ hd => hd) (fun _ _ _ _ hd => hd) fun f hf =>
        hs.recorded.linear f (List.mem_append_right _ hf)⟩, rfl, rfl,
    fun n _ => .of_eq (hsame.ledgerAt n), fun n _ => hsame.ledgerAt n,
    fun _ _ => Ledger.keeps_of_agrees (.refl _) _, .refl _, fun _ _ hb => hb, rfl, id, id,
    fun _ _ => id, fun _ _ _ => rfl⟩

/-! ## Moving rows about -/

/-- The variable has a bound or an asserted disequality. -/
def InUse (s : Theory) (u : Var) : Prop :=
  (∃ side b, s.simplex.model.boundOf side u = some b) ∨
    ∃ d ∈ s.disequalities.toList, ∃ k, s.database.stored d = some k ∧ k.statement.var = u

theorem Recorded.awake_of_inUse {s : Theory} (h : s.Recorded) {u : Var} (hu : s.InUse u) :
    ¬ s.Dormant u := by
  rcases hu with ⟨side, b, hb⟩ | ⟨d, hd, k, hk, rfl⟩
  · exact h.bounded side u b hb
  · exact h.excluded d hd k hk

theorem Recorded.hasConstraints_of_inUse {s : Theory} (h : s.Recorded) (hv : s.database.Indexed)
    {u : Var} (hu : s.InUse u) : s.database.hasConstraints u = true := by
  rw [hv.hasConstraints_iff]
  rcases hu with ⟨side, b, hb⟩ | ⟨d, hd, k, hk, rfl⟩
  · obtain ⟨hp, k, hk, hvar, _⟩ := h.sound_now.reasons side u b hb
    exact ⟨b.reason, k, hk, h.live hk hp, hvar⟩
  · obtain ⟨hp, _⟩ := h.sound_now.disequalities d hd
    exact ⟨d, k, hk, h.live hk hp, rfl⟩

theorem Sane.hasConstraints_of_inUse {s : Theory} (hs : s.Sane) {u : Var} (hu : s.InUse u) :
    s.database.hasConstraints u = true :=
  hs.recorded.hasConstraints_of_inUse hs.linked.valid.toIndexed hu

/-- Rows can come and go as long as the variables in use stay awake. -/
theorem Rearranged.maintains {s s' : Theory} (h : Rearranged s s') (hs : s.Sane)
    (hf : s'.Framed) (hb : s'.Balanced) (ht : s'.Trimmed)
    (hawake : ∀ u, s.InUse u → ¬ s'.Dormant u)
    (hc : s.simplex.model.Committed → s'.simplex.model.Committed) (hi : s.Inside → s'.Inside)
    (hcurrent : s.Inside → ∀ v, s.IsLeaf v → s'.currentOf v = s.currentOf v) :
    Maintains s s' where
  sane :=
    { framed := hf
      named := h.named hs.named
      linked := h.widened.linked hs.framed.toArranged hs.linked
      balanced := hb
      trimmed := ht
      recorded := h.sameLedgers.recorded hs.recorded
        (fun _ _ => h.database.symm ▸ Ledger.keeps_of_agrees (.refl _) _)
        (by rw [hs.framed.room, hf.room, h.size])
        (fun side v b hv hd => absurd hd (hawake v (.inl ⟨side, b, hv⟩)))
        (fun d hd k hk hdorm => by
          rw [h.database] at hk
          exact absurd hdorm (hawake _ (.inr ⟨d, hd, k, hk, rfl⟩)))
        fun f hfact => hs.recorded.linear f (List.mem_append_right _ (h.pending ▸ hfact)) }
  options := h.options
  level := h.sameLedgers.level
  ledgers n _ := .of_eq (h.sameLedgers.ledgerAt n)
  below n _ := h.sameLedgers.ledgerAt n
  keeps _ _ := h.database.symm ▸ Ledger.keeps_of_agrees (.refl _) _
  inherits := h.database.symm ▸ .refl _
  constants a b ha := by rw [h.constantAtoms]; exact ha
  processed := h.processed
  committed := hc
  inside := hi
  contents v p hp := by rw [h.content?]; exact hp
  current := hcurrent

theorem Sane.presolve_spec {s : Theory} (hs : s.Sane) (hc : s.simplex.model.Committed) :
    ∃ s' n, s.presolve = .ok (s', n) ∧ Maintains s s' ∧ (s'.pending = s.pending ∧
      s'.propagations = s.propagations) ∧
      (∀ u, ¬ s.Dormant u → s'.simplex.model.valueOf u = s.simplex.model.valueOf u) ∧
      (n = 0 → Steady s s') := by
  obtain ⟨s', n, hok, hp, hidle⟩ := hs.framed.presolve hc
  refine ⟨s', n, hok, hp.rearranged.maintains hs hp.framed (hp.balanced hs.balanced)
    (hs.trimmed.step hp.rearranged.database (fun _ => hp.rearranged.isLeaf) hp.eliminated
      fun u hu => (hp.fresh u hu).imp_right .inr)
    (fun u hu hd => ?_) (fun _ => hp.committed)
    (inside_of_values hs.recorded hp.rearranged.bounds hp.values)
    (fun _ v hv => hp.current hs.balanced v hv.active),
    ⟨hp.rearranged.pending, hp.rearranged.propagations⟩, hp.values,
    fun hn => ⟨hp.values, hidle hn⟩⟩
  rcases hp.dormant u hd with hd | hcon
  · exact hs.recorded.awake_of_inUse hu hd
  · rw [hs.hasConstraints_of_inUse hu] at hcon
    cases hcon

theorem Sane.eliminate_spec {s : Theory} (hs : s.Sane) (hc : s.simplex.model.Committed) {v : Var}
    (hv : s.database.hasConstraints v = false) :
    ∃ s' b, s.eliminate v = .ok (s', b) ∧ Maintains s s' ∧ (s'.pending = s.pending ∧
      s'.propagations = s.propagations) ∧ s'.simplex.model = s.simplex.model ∧
      (b = false → s' = s) := by
  obtain ⟨s', b, hok, hsh, hidle⟩ := hs.framed.toArranged.eliminate hv
  refine ⟨s', b, hok, hsh.rearranged.maintains hs (hsh.framed hs.framed hc)
    (hsh.balanced hs.balanced)
    (hs.trimmed.step hsh.rearranged.database (fun _ => hsh.rearranged.isLeaf) hsh.eliminated
      fun _ hu => .inl (hsh.active_iff.mp hu))
    (fun u hu hd => ?_) (fun h => by rw [hsh.model]; exact h)
    (fun h => by rw [Inside, hsh.model]; exact h)
    (fun _ v _ => congrFun (hsh.currentOf_eq hs.framed) v),
    ⟨hsh.rearranged.pending, hsh.rearranged.propagations⟩, hsh.model, hidle⟩
  rcases hsh.dormant u hd with hd | hcon
  · exact hs.recorded.awake_of_inUse hu hd
  · rw [hs.hasConstraints_of_inUse hu] at hcon
    cases hcon

/-! ## Rebuilding the tableau -/

/-- Garbage collection keeps every ledger; slack variables must be in use to keep their rows. -/
theorem Sane.maintains_collect {s : Theory} (hs : s.Sane)
    (hactive : ∀ u, s.Active u → s.IsLeaf u ∨ s.InUse u) {db : Database}
    (h : Database.Collected s.database db) : Maintains s { s with database := db } := by
  have hsame : SameLedgers s { s with database := db } :=
    ⟨h.pruned.marksOf, h.pruned.changes, rfl, rfl, rfl, rfl⟩
  have hkeeps : ∀ n ≤ s.level, (s.ledgerAt n).Keeps s.database db := fun n hn =>
    Ledger.keeps_of_collected h hs.linked.valid fun _ hc => hs.recorded.proven_now hn hc
  have hlinked : ({ s with database := db } : Theory).Linked := by
    refine hs.linked.transfer hs.framed.toArranged h.valid (fun t c k hc hk => ?_)
      (fun _ _ => id) rfl
    obtain ⟨hlook, k', hk', hlive⟩ := (h.lookup_iff t c).mp hc
    have hk₁ : db.stored c = some k := hk
    rw [hk'] at hk₁
    obtain rfl := Option.some.inj hk₁
    exact ⟨hlook, k', h.pruned.survivor hk' hlive, rfl⟩
  have hrecorded : ({ s with database := db } : Theory).Recorded :=
    hsame.recorded hs.recorded hkeeps (Nat.le_refl _) (fun _ _ _ _ hd => hd)
      (fun _ _ _ _ hd => hd) fun f hf => hs.recorded.linear f (List.mem_append_right _ hf)
  have hinUse : ∀ u, s.InUse u → ({ s with database := db } : Theory).InUse u := by
    rintro u (hb | ⟨d, hd, k, hk, rfl⟩)
    · exact .inl hb
    · obtain ⟨k', hk', hbare⟩ := hs.stored_of_keeps (hkeeps s.level (Nat.le_refl _)) hd hk
      exact .inr ⟨d, hd, k', hk', by rw [Constraint.statement_of_bare hbare]⟩
  have htrimmed : ({ s with database := db } : Theory).Trimmed := by
    refine ⟨fun v hv => ?_, fun v hv => (hactive v hv).imp_right fun hu =>
      hrecorded.hasConstraints_of_inUse h.valid.toIndexed (hinUse v hu)⟩
    rw [← Bool.not_eq_true]
    intro hc
    have hcon := h.hasConstraints hs.linked.valid.toIndexed hc
    rw [hs.trimmed.eliminated v hv] at hcon
    cases hcon
  exact ⟨⟨hs.framed.congr rfl rfl rfl, hs.named.congr rfl rfl rfl, hlinked,
    hs.balanced.congr rfl rfl rfl, htrimmed, hrecorded⟩, rfl, rfl,
    fun n _ => .of_eq (hsame.ledgerAt n), fun n _ => hsame.ledgerAt n, hkeeps,
    h.pruned.inherits, fun _ _ hb => hb, rfl, id, id, fun _ _ => id, fun _ _ _ => rfl⟩

/-- The variable and the number that a constraint is about. -/
def aboutOf (s : Theory) (c : ConstraintId) : Var × DeltaRat :=
  ((s.database.stored c).map fun k => (k.statement.var, k.statement.value)).getD (⟨0⟩, 0)

theorem aboutOf_of_stored {s : Theory} {c : ConstraintId} {k : Constraint}
    (hk : s.database.stored c = some k) : s.aboutOf c = (k.statement.var, k.statement.value) := by
  rw [aboutOf, hk]
  rfl

theorem Sane.exists_about {s : Theory} (hs : s.Sane) {d : ConstraintId}
    (hd : d ∈ s.disequalities.toList) :
    ∃ k, s.database.stored d = some k ∧ s.aboutOf d = (k.statement.var, k.statement.value) := by
  obtain ⟨_, k, hk, _⟩ := hs.recorded.sound_now.disequalities d hd
  exact ⟨k, hk, aboutOf_of_stored hk⟩

/-- An asserted disequality stays about the same variable and number. -/
theorem Maintains.aboutOf_eq {s s' : Theory} (h : Maintains s s') (hs : s.Sane) {d : ConstraintId}
    (hd : d ∈ s.disequalities.toList) : s'.aboutOf d = s.aboutOf d := by
  obtain ⟨k, hk, habout⟩ := hs.exists_about hd
  obtain ⟨k', hk', hbare⟩ := hs.stored_of_keeps (h.keeps s.level (Nat.le_refl _)) hd hk
  rw [habout, aboutOf_of_stored hk', Constraint.statement_of_bare hbare]

/-- The variables with asserted disequalities. -/
theorem Sane.excludedVars_eq_ok {s : Theory} (hs : s.Sane) :
    s.excludedVars = .ok (s.disequalities.toList.map fun d => (s.aboutOf d).1) := by
  refine Checked.mapM_eq_ok fun d hd => ?_
  obtain ⟨k, hk, habout⟩ := hs.exists_about hd
  simp only [Database.get_eq_ok hk, ok_bind, pure_eq_ok, habout]

theorem Maintains.excludedVars {s s' : Theory} (h : Maintains s s') (hs : s.Sane) :
    s'.excludedVars = s.excludedVars := by
  have hdis : s'.disequalities.toList = s.disequalities.toList := (h.ledger_now hs).disequalities
  rw [hs.excludedVars_eq_ok, h.sane.excludedVars_eq_ok, hdis]
  exact congrArg Except.ok (List.map_congr_left fun d hd => by rw [h.aboutOf_eq hs hd])

/-- The slack variables whose rows a reset keeps are those in use. -/
theorem Sane.needed_spec {s : Theory} (hs : s.Sane) :
    ∃ vs, s.excludedVars = .ok vs ∧
      ∀ v, v ∈ s.needed vs ↔ s.isSlack v = true ∧ s.InUse v := by
  refine ⟨_, hs.excludedVars_eq_ok, fun v => ?_⟩
  have hexcluded : v ∈ s.disequalities.toList.map (fun d => (s.aboutOf d).1) ↔
      ∃ d ∈ s.disequalities.toList, ∃ k, s.database.stored d = some k ∧ k.statement.var = v := by
    rw [List.mem_map]
    refine exists_congr fun d => and_congr_right fun hd => ?_
    obtain ⟨k, hk, habout⟩ := hs.exists_about hd
    simp only [habout, hk, Option.some.injEq, exists_eq_left']
  rw [mem_needed_iff, hexcluded]
  refine and_iff_right_of_imp fun ⟨hslack, _⟩ => ?_
  obtain ⟨r, hr⟩ := Option.isSome_iff_exists.mp hslack
  exact lt_of_definition? hr

section Rebuilt

variable {s s' : Theory} {vs : List Var} (h : Rebuilt vs s s') (hs : s.Sane)
  (hvs : ∀ v, v ∈ vs ↔ s.isSlack v = true ∧ s.InUse v)

include h hs hvs

/-- Slack variables in use are among those whose rows are needed. -/
theorem Rebuilt.awake {u : Var} (hu : s.InUse u) : ¬ s'.Dormant u := by
  intro hd
  rcases h.dormant u hd with ⟨hleaf, hnot⟩ | hcon
  · obtain ⟨c, k, hk, hlive, hvar⟩ :=
      hs.linked.valid.hasConstraints_iff.mp (hs.hasConstraints_of_inUse hu)
    have hlt : u.id < s.infos.size := hvar ▸ hs.linked.inRange hk hlive
    obtain ⟨r, hr⟩ := (isLeaf_or_definition hlt).resolve_left hleaf
    exact hnot ((hvs u).mpr ⟨by rw [isSlack, hr]; rfl, hu⟩)
  · rw [hs.hasConstraints_of_inUse hu] at hcon
    cases hcon

/-- A variable that violates a bound has one, and so it is awake. -/
theorem Rebuilt.queued : s'.simplex.Queued := by
  intro u hu
  refine h.watches u (fun hd => hu fun side b hb => ?_) hu
  have hb' : s.simplex.model.boundOf side u = some b := by
    rw [← h.rearranged.bounds]
    exact hb
  exact absurd hd (h.awake hs hvs (.inl ⟨side, b, hb'⟩))

omit hs in
theorem Rebuilt.isLeaf_or_inUse {u : Var} (hu : s'.Active u) : s.IsLeaf u ∨ s.InUse u :=
  (h.active u hu).imp_right fun hv => ((hvs u).mp hv).2

/-- Values within their bounds are kept. -/
theorem Rebuilt.kept (hi : s.Inside) :
    s'.simplex.model.valueOf = s.currentOf ∧ s'.currentOf = s.currentOf := by
  refine h.currentOf_eq hs.framed hs.balanced (fun v hv => ?_) fun u side b hb => ?_
  · exact not_not.mp fun hna => hs.recorded.awake_of_inUse ((hvs v).mp hv).2 (.inl hna)
  · rw [currentOf_of_not_dormant (hs.recorded.bounded side u b hb)]
    exact hi u side b hb

theorem Rebuilt.maintains : Maintains s { s' with database := s.database } := by
  have hre := h.rearranged
  refine hre.maintains hs (h.framed.congr rfl rfl rfl) (h.balanced.congr rfl rfl rfl)
    ⟨fun v hv => ?_, fun v hv => ?_⟩ (fun u hu => h.awake hs hvs hu) (fun _ => h.committed)
    (fun hi u side b hb => ?_) fun hi v _ => congrFun (h.kept hs hvs hi).2 v
  · obtain ⟨e, he, rfl⟩ := List.mem_map.mp hv
    have hact := h.active e.1 (h.framed.eliminated e he).1
    exact (h.dormant e.1 (.inr hv)).resolve_left fun hout => hact.elim hout.1 hout.2
  · exact (h.isLeaf_or_inUse hvs hv).imp hre.isLeaf hs.hasConstraints_of_inUse
  · rw [hre.bounds] at hb
    change side.Inside b.value (s'.simplex.model.valueOf u)
    rw [(h.kept hs hvs hi).1, currentOf_of_not_dormant (hs.recorded.bounded side u b hb)]
    exact hi u side b hb

end Rebuilt

/-- A reset succeeds, since no constraint mentions a variable that is eliminated. -/
theorem Sane.resetTableau_spec {s : Theory} (hs : s.Sane) (hc : s.simplex.model.Committed) :
    ∃ s', s.resetTableau = .ok s' ∧ Maintains s s' ∧ (s'.pending = s.pending ∧
      s'.propagations = s.propagations) ∧ s'.simplex.Queued := by
  obtain ⟨vs, hex, hvs⟩ := hs.needed_spec
  obtain ⟨db, n, hcollect, hcollected⟩ := hs.linked.valid.collect
  have hfree : ∀ f, ¬ ∃ v, s.isEliminated v = true ∧ s.database.hasConstraints v = true ∧
      f = Fault.constrained v := by
    rintro f ⟨v, hv, hcon, _⟩
    rw [hs.trimmed.eliminated v (isEliminated_iff.mp hv)] at hcon
    cases hcon
  obtain ⟨s', hok, h, rfl⟩ := (hs.framed.resetTableau hc hs.recorded.sound_now.ordered hex
    hcollect).exists_ok hfree
  have hre := h.rearranged
  have hm := h.maintains hs hvs
  have hinUse : ∀ u, s.InUse u → ({ s' with database := s.database } : Theory).InUse u := by
    rintro u (⟨side, b, hb⟩ | ⟨d, hd, k, hk⟩)
    · exact .inl ⟨side, b, by rw [hre.bounds]; exact hb⟩
    · exact .inr ⟨d, by rw [hre.disequalities]; exact hd, k, hk⟩
  have hm' := hm.sane.maintains_collect
    (fun u hu => (h.isLeaf_or_inUse hvs hu).imp hre.isLeaf (hinUse u)) hcollected
  exact ⟨s', hok, hm.trans hm', ⟨hre.pending, hre.propagations⟩, h.queued hs hvs⟩

/-- The schedule of resets matters to nothing else. -/
theorem Sane.maintains_schedule {s : Theory} (hs : s.Sane) (schedule : ResetSchedule) :
    Maintains s { s with schedule } := by
  have halike : Alike s { s with schedule } :=
    ⟨rfl, rfl, rfl, rfl, rfl, rfl, rfl, rfl, rfl, rfl, rfl⟩
  exact halike.maintains hs fun f hf => hs.recorded.linear f (List.mem_append_right _ hf)

/-- The counters of restarts have room for another one. -/
def CountsRestart (s : Theory) : Prop :=
  s.schedule.sinceReset + 1 < s.schedule.period ∨
    s.schedule.period + s.options.resetPeriodIncrement < counterLimit

/-- A restart can fail at a counter that overflows, and nowhere else. -/
theorem Sane.restart_spec {s : Theory} (hs : s.Sane) (hc : s.simplex.model.Committed) :
    Checked.Meets (fun _ => ¬ s.CountsRestart)
      (fun s' => Maintains s s' ∧ (s'.pending = s.pending ∧ s'.propagations = s.propagations) ∧
        (s'.simplex.Queued ∨ s'.simplex = s.simplex)) s.restart := by
  rw [restart]
  by_cases hsince : s.schedule.sinceReset + 1 < s.schedule.period
  · rw [if_pos hsince]
    exact ⟨hs.maintains_schedule _, ⟨rfl, rfl⟩, .inr rfl⟩
  rw [if_neg hsince]
  by_cases hlimit : counterLimit ≤ s.schedule.period + s.options.resetPeriodIncrement
  · rw [if_pos hlimit]
    exact fun hcounts => hcounts.elim hsince fun hlt => Nat.not_lt.mpr hlimit hlt
  rw [if_neg hlimit]
  dsimp only
  split
  · have hm := hs.maintains_schedule { s.schedule with
      restarts := s.schedule.restarts + 1, sinceReset := 0
      period := s.schedule.period + s.options.resetPeriodIncrement }
    obtain ⟨s', hok, hm', hqueues, hqueued⟩ := hm.sane.resetTableau_spec hc
    exact .of_exists ⟨s', hok, hm.trans hm', hqueues, .inl hqueued⟩
  · exact ⟨hs.maintains_schedule _, ⟨rfl, rfl⟩, .inr rfl⟩

end Theory

end LinearArithmetic
