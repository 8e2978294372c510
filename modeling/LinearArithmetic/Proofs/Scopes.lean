import LinearArithmetic.Proofs.Recording

/-!
# Opening and leaving scopes

Opening a scope leaves everything as it is. Leaving scopes brings back the ledger of the scope
that is returned to, and the facts asserted outside of the scopes that are left wait again.
-/

namespace LinearArithmetic.Theory

/-- The order of a state does not depend on bounds. -/
theorem Framed.congr_model {s s' : Theory} (h : s.Framed) (hinfos : s'.infos = s.infos)
    (htab : s'.simplex.tableau = s.simplex.tableau)
    (hroom : s'.simplex.model.numVariables = s.simplex.model.numVariables)
    (hvalue : s'.simplex.model.valueOf = s.simplex.model.valueOf)
    (hsafe : s'.simplex.model.safeOf = s.simplex.model.safeOf)
    (hsaved : s'.simplex.model.savedOf = s.simplex.model.savedOf)
    (helim : s'.eliminated = s.eliminated) : s'.Framed where
  toArranged := h.toArranged.congr hinfos htab hroom helim
  values := by rw [htab, hvalue]; exact h.values
  safe := by rw [htab, hsafe]; exact h.safe
  dormant v hv := by rw [hsaved]; exact h.dormant v ((dormant_congr hinfos helim).mp hv)

/-! ## Opening a scope -/

theorem now_push (s : Theory) : s.push.now = s.now := by
  rw [now, now]
  rw [show s.push.disequalities.toList = s.disequalities.toList from Trail.toList_openScope _,
    show s.push.processed.toList = s.processed.toList from Trail.toList_openScope _]
  rfl

theorem agrees_push (s : Theory) : Database.Agrees s.database s.push.database :=
  ⟨fun _ => rfl, rfl, rfl⟩

theorem Levelled.push {s : Theory} (hl : s.Levelled) : s.push.Levelled :=
  ⟨congrArg (· + 1) hl.database, congrArg (· + 1) hl.model, congrArg (· + 1) hl.disequalities⟩

/-- The ledgers of the scopes that are open stay. -/
theorem Levelled.ledgerAt_push {s : Theory} (hl : s.Levelled) {n : Nat} (hn : n ≤ s.level) :
    s.push.ledgerAt n = s.ledgerAt n := by
  rw [ledgerAt, ledgerAt]
  rw [show s.push.database.marksAt n = s.database.marksAt n from
      Database.marksAt_openScope (hl.database ▸ hn),
    show s.push.simplex.model.boundsAt n = s.simplex.model.boundsAt n from
      Model.boundsAt_openScope (hl.model ▸ hn),
    show s.push.disequalities.kept n = s.disequalities.kept n from
      Trail.kept_openScope (hl.disequalities ▸ hn),
    show s.push.processed.kept n = s.processed.kept n from Trail.kept_openScope hn]

/-- The ledger of the new scope is that of the scope it was opened in. -/
theorem Levelled.ledgerAt_push_top {s : Theory} (hl : s.Levelled) :
    s.push.ledgerAt (s.level + 1) = s.ledgerAt s.level := by
  rw [show s.level + 1 = s.push.level from rfl, hl.push.ledgerAt_level, now_push, hl.ledgerAt_level]

/-- Every scope that is open afterwards has the ledger of one that was open before. -/
theorem Levelled.ledgerAt_push_min {s : Theory} (hl : s.Levelled) {n : Nat}
    (hn : n ≤ s.push.level) : s.push.ledgerAt n = s.ledgerAt (min n s.level) := by
  rcases Nat.lt_or_eq_of_le hn with hlt | rfl
  · have hn' : n ≤ s.level := Nat.le_of_lt_succ hlt
    rw [hl.ledgerAt_push hn', Nat.min_eq_left hn']
  · rw [Nat.min_eq_right (show s.level ≤ s.push.level from Nat.le_succ _)]
    exact hl.ledgerAt_push_top

/-- What was recorded stays right when a scope is opened. -/
theorem Recorded.push {s : Theory} (hr : s.Recorded) : s.push.Recorded where
  levelled := hr.levelled.push
  tracked := hr.tracked.openScope
  sound n hn := by
    rw [hr.levelled.ledgerAt_push_min hn]
    exact (hr.sound _ (Nat.min_le_right _ _)).keeps (Ledger.keeps_of_agrees (agrees_push s) _)
  nested m n hmn hn := by
    rw [hr.levelled.ledgerAt_push_min (hmn.trans hn), hr.levelled.ledgerAt_push_min hn]
    exact hr.nested _ _ (min_le_min_right _ hmn) (Nat.min_le_right _ _)
  bounded := hr.bounded
  excluded d hd := hr.excluded d (by
    rwa [show s.push.disequalities.toList = s.disequalities.toList from
      Trail.toList_openScope _] at hd)
  linear f hf := hr.linear f (by
    rwa [show s.push.processed.toList = s.processed.toList from Trail.toList_openScope _] at hf)

/-- What a scope that was opened leaves as it was. -/
structure Opened (s s' : Theory) : Prop where
  sane : s'.Sane
  options : s'.options = s.options
  level : s'.level = s.level + 1
  ledgers : ∀ n ≤ s.level, s'.ledgerAt n = s.ledgerAt n
  now : s'.now = s.now
  agrees : Database.Agrees s.database s'.database
  constants : s'.constantAtoms = s.constantAtoms
  processed : s'.processed.toList = s.processed.toList
  pending : s'.pending = s.pending
  propagations : s'.propagations = s.propagations
  values : s'.simplex.model.valueOf = s.simplex.model.valueOf
  saved : s'.simplex.model.savedOf = s.simplex.model.savedOf
  tableau : s'.simplex.tableau = s.simplex.tableau
  suspects : s'.simplex.suspects = s.simplex.suspects

theorem Sane.push_spec {s : Theory} (hs : s.Sane) : Opened s s.push where
  sane :=
    { framed := hs.framed.congr_model rfl rfl rfl rfl rfl rfl rfl
      named := hs.named.congr rfl rfl rfl
      linked := hs.linked.congr hs.framed.toArranged rfl rfl (agrees_push s)
      balanced := hs.balanced.congr rfl rfl rfl
      trimmed := hs.trimmed.congr rfl rfl (agrees_push s).hasConstraints
      recorded := hs.recorded.push }
  options := rfl
  level := rfl
  ledgers _ := hs.recorded.levelled.ledgerAt_push
  now := now_push s
  agrees := agrees_push s
  constants := rfl
  processed := Trail.toList_openScope _
  pending := rfl
  propagations := rfl
  values := rfl
  saved := rfl
  tableau := rfl
  suspects := rfl

/-! ## Leaving scopes -/

/-- What leaving scopes brings back. -/
structure Left (n : Nat) (s s' : Theory) : Prop where
  sane : s'.Sane
  options : s'.options = s.options
  level : s'.level = n
  ledgers : ∀ k ≤ n, s'.ledgerAt k = s.ledgerAt k
  agrees : Database.Agrees s.database s'.database
  constants : s'.constantAtoms = s.constantAtoms
  values : s'.simplex.model.valueOf = s.simplex.model.valueOf
  saved : s'.simplex.model.savedOf = s.simplex.model.savedOf
  tableau : s'.simplex.tableau = s.simplex.tableau
  suspects : s'.simplex.suspects = s.simplex.suspects
  facts : ∃ undone, s.processed.toList = (s.ledgerAt n).facts ++ undone ∧
    s'.processed.toList = (s.ledgerAt n).facts ∧
      s'.pending = (undone ++ s.pending).filter fun f => f.level ≤ n
  /-- nothing waits to be sent any more -/
  propagations : s'.propagations = []

/-- The theory with `n` open scopes left, when the database and the model are brought back. -/
def leaving (n : Nat) (db : Database) (m : Model) (s : Theory) : Theory :=
  { s.setModel m with
    database := db
    disequalities := s.disequalities.kept n
    processed := s.processed.kept n
    pending := ((s.processed.undone n).filter fun f => f.level ≤ n).reverse ++
      s.pending.filter fun f => f.level ≤ n
    propagations := [] }

section Leaving

variable {s : Theory} {n : Nat} {db : Database} {m : Model} (hl : s.Levelled) (hn : n ≤ s.level)
  (hchanges : db.changes = s.database.changes.kept n)
  (htrail : m.trail = s.simplex.model.trail.kept n)

include hl hn hchanges htrail

theorem levelled_leaving : (s.leaving n db m).Levelled ∧ (s.leaving n db m).level = n := by
  have hlevel : (s.leaving n db m).level = n := Trail.level_kept hn
  refine ⟨⟨?_, ?_, ?_⟩, hlevel⟩
  · rw [hlevel, show (s.leaving n db m).database.changes = _ from hchanges]
    exact Trail.level_kept (hl.database ▸ hn)
  · rw [hlevel, show (s.leaving n db m).simplex.model.trail = _ from htrail]
    exact Trail.level_kept (hl.model ▸ hn)
  · rw [hlevel]
    exact Trail.level_kept (hl.disequalities ▸ hn)

/-- The ledgers of the scopes that stay open come back. -/
theorem ledgerAt_leaving (hmarks : db.marksOf = s.database.marksAt n)
    (hbounds : m.boundOf = s.simplex.model.boundsAt n) {k : Nat} (hk : k ≤ n) :
    (s.leaving n db m).ledgerAt k = s.ledgerAt k := by
  rw [ledgerAt, ledgerAt]
  rw [show (s.leaving n db m).database.marksAt k = s.database.marksAt k from
      Database.marksAt_kept (hl.database ▸ hn) hchanges hmarks hk,
    show (s.leaving n db m).simplex.model.boundsAt k = s.simplex.model.boundsAt k from
      Model.boundsAt_kept (hl.model ▸ hn) htrail hbounds hk,
    show (s.leaving n db m).disequalities.kept k = s.disequalities.kept k from
      Trail.kept_kept hk (hl.disequalities ▸ hn),
    show (s.leaving n db m).processed.kept k = s.processed.kept k from Trail.kept_kept hk hn]

end Leaving

/-- What was recorded for the scopes that stay open is still right. -/
theorem Recorded.leaving {s : Theory} (hr : s.Recorded) {n : Nat} (hn : n ≤ s.level)
    {db : Database} {m : Model} (hagrees : Database.Agrees s.database db)
    (hlevelled : (s.leaving n db m).Levelled) (hlevel : (s.leaving n db m).level = n)
    (htracked : m.Tracked)
    (hledgers : ∀ k ≤ n, (s.leaving n db m).ledgerAt k = s.ledgerAt k) :
    (s.leaving n db m).Recorded := by
  have hnow : (s.leaving n db m).now = s.ledgerAt n := by
    rw [← hlevelled.ledgerAt_level, hlevel, hledgers n (Nat.le_refl _)]
  have hext := hr.extends_now hn
  refine ⟨hlevelled, htracked, fun k hk => ?_, fun j k hjk hk => ?_, fun side v b hb hd => ?_,
    fun d hd k hk hdorm => ?_, fun f hf => ?_⟩
  · rw [hlevel] at hk
    rw [hledgers k hk]
    exact (hr.sound k (hk.trans hn)).keeps (Ledger.keeps_of_agrees hagrees _)
  · rw [hlevel] at hk
    rw [hledgers k hk, hledgers j (hjk.trans hk)]
    exact hr.nested j k hjk (hk.trans hn)
  · have hb' : (s.ledgerAt n).bounds side v = some b := by
      rw [← hnow]
      exact hb
    obtain ⟨b', hb'', _⟩ := hext.bounds side v b hb'
    exact hr.bounded side v b' hb'' hd
  · obtain ⟨k₀, hk₀, hb⟩ := hagrees.symm.stored hk
    rw [← Constraint.statement_of_bare hb] at hdorm
    exact hr.excluded d (hext.disequalities d hd) k₀ hk₀ hdorm
  · -- the facts that wait again were processed before
    rcases List.mem_append.mp hf with hf | hf
    · exact hr.linear f (List.mem_append_left _ (hext.facts f hf))
    · rcases List.mem_append.mp hf with hf | hf
      · refine hr.linear f (List.mem_append_left _ ?_)
        rw [← Trail.toList_kept_append n s.processed]
        exact List.mem_append_right _
          (List.mem_reverse.mpr (List.mem_filter.mp (List.mem_reverse.mp hf)).1)
      · exact hr.linear f (List.mem_append_right _ (List.mem_filter.mp hf).1)

theorem Sane.pop_spec {s : Theory} (hs : s.Sane) {levels : Nat} (hle : levels ≤ s.level) :
    ∃ s', s.pop levels = .ok s' ∧ Left (s.level - levels) s s' := by
  have hl := hs.recorded.levelled
  have hn : s.level - levels ≤ s.level := Nat.sub_le _ _
  obtain ⟨db, hdb, hagrees, hchanges, hmarks⟩ :=
    @Database.backtrack_spec s.database (s.level - levels) (hl.database ▸ hn)
  obtain ⟨m, hm, hroom, htrail, hvalue, hsafe, hsaved, hbounds, htracked⟩ :=
    Model.backtrack_spec hs.recorded.tracked (n := s.level - levels) (hl.model ▸ hn)
  have hdis : (s.setModel m).disequalities.backtrack (s.level - levels) =
      .ok (s.disequalities.kept (s.level - levels), s.disequalities.undone (s.level - levels)) :=
    Trail.backtrack_eq_ok (hl.disequalities ▸ hn : s.level - levels ≤ s.disequalities.level)
  have hproc : (s.setModel m).processed.backtrack (s.level - levels) =
      .ok (s.processed.kept (s.level - levels), s.processed.undone (s.level - levels)) :=
    Trail.backtrack_eq_ok hn
  have hok : s.pop levels = .ok (s.leaving (s.level - levels) db m) := by
    rw [pop, if_neg (Nat.not_lt.mpr hle)]
    simp only [hdb, hm, hdis, hproc, ok_bind, pure_eq_ok]
    rfl
  obtain ⟨hlevelled, hlevel⟩ := levelled_leaving hl hn hchanges htrail
  have hledgers : ∀ k ≤ s.level - levels,
      (s.leaving (s.level - levels) db m).ledgerAt k = s.ledgerAt k :=
    fun k => ledgerAt_leaving hl hn hchanges htrail hmarks hbounds
  have hundone : s.processed.toList = (s.ledgerAt (s.level - levels)).facts ++
      (s.processed.undone (s.level - levels)).reverse :=
    (Trail.toList_kept_append _ _).symm
  refine ⟨_, hok, ⟨hs.framed.congr_model rfl rfl hroom hvalue hsafe hsaved rfl,
    hs.named.congr rfl rfl rfl, hs.linked.congr hs.framed.toArranged rfl rfl hagrees,
    hs.balanced.congr rfl rfl rfl, hs.trimmed.congr rfl rfl hagrees.hasConstraints,
    hs.recorded.leaving hn hagrees hlevelled hlevel htracked hledgers⟩, rfl, hlevel, hledgers,
    hagrees, rfl, hvalue, hsaved, rfl, rfl, ⟨_, hundone, rfl, ?_⟩, rfl⟩
  rw [List.filter_append, List.filter_reverse]
  rfl

end LinearArithmetic.Theory
