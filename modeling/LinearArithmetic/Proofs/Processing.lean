import LinearArithmetic.Proofs.Assertion

/-!
# Processing queued facts

The queued facts are processed in order, up to the first conflict. No fact is lost on the way, and
without a conflict all of them have had their effect.
-/

namespace LinearArithmetic

theorem Ledger.Sound.recount {L : Ledger} {db : Database} (h : L.Sound db) {facts : List Fact}
    (hmem : ∀ f ∈ L.facts, f ∈ facts) : Ledger.Sound db { L with facts } where
  stored := h.stored
  consistent := h.consistent
  blank := h.blank
  self c k hc hp := by
    obtain ⟨t, ht, hlook, f, hf, hft⟩ := h.self c k hc hp
    exact ⟨t, ht, hlook, f, hmem f hf, hft⟩
  implied := h.implied
  reasons := h.reasons
  ordered := h.ordered
  disequalities := h.disequalities

namespace Theory

/-- The theory with the first fact of the queue taken for processing. -/
def taking (f : Fact) (rest : List Fact) (s : Theory) : Theory :=
  { s with pending := rest, processed := s.processed.push f }

/-- Facts are taken from the queue one by one. -/
theorem Sane.taking {s : Theory} (hs : s.Sane) {f : Fact} {rest : List Fact}
    (hf : ∀ g ∈ f :: rest, g.literal.Linear) :
    (s.taking f rest).Sane ∧ Proceeds s (s.taking f rest) := by
  have hfacts : (s.taking f rest).processed.toList = s.processed.toList ++ [f] :=
    Trail.toList_push _ _
  have hmem : ∀ g ∈ s.processed.toList, g ∈ (s.taking f rest).processed.toList := by
    intro g hg
    rw [hfacts]
    exact List.mem_append_left _ hg
  have hproceeds : Proceeds s (s.taking f rest) := by
    refine ⟨⟨rfl, rfl, fun n hn => ?_, ⟨fun _ _ => ⟨rfl, rfl⟩, (Ledger.Extends.refl s.now).bounds,
      fun _ hd => hd, hmem⟩, fun _ k hc => ⟨k, hc, rfl⟩, fun _ _ hc => hc, fun _ _ hp => hp,
      fun _ _ hb => hb, fun _ hu => hu, fun _ hL => ⟨hL.nodup, hL.mem_iff, hL.proven⟩, .refl _⟩,
      fun _ _ => rfl, rfl, id⟩
    rw [ledgerAt, ledgerAt]
    rw [show (s.taking f rest).processed.kept n = s.processed.kept n from Trail.kept_push hn f]
    rfl
  refine ⟨⟨hs.framed.congr rfl rfl rfl, hs.named.congr rfl rfl rfl,
    hs.linked.congr hs.framed.toArranged rfl rfl (.refl _), hs.balanced.congr rfl rfl rfl,
    hs.trimmed.congr rfl rfl fun _ => rfl,
    hs.recorded.continues hproceeds.toContinues ⟨hs.recorded.levelled.database,
      hs.recorded.levelled.model, hs.recorded.levelled.disequalities⟩ hs.recorded.tracked
      (hs.recorded.sound_now.recount hmem) hs.recorded.bounded hs.recorded.excluded
      fun g hg => ?_⟩, hproceeds⟩
  rw [hfacts, List.append_assoc] at hg
  rcases List.mem_append.mp hg with hg | hg
  · exact hs.recorded.linear g (List.mem_append_left _ hg)
  · exact hf g hg

/-- No fact of the queue whose turn comes creates a constraint while another one has a proof. -/
def ForeseesFacts (s : Theory) : List Fact → Prop
  | [] => True
  | f :: rest => ∀ s' conflict, (s.taking f rest).assertFact f.literal = .ok (s', conflict) →
    Foreseen s s' ∧ (conflict = none → s'.ForeseesFacts rest)

/-- What processing queued facts leads to. -/
structure Processes (s s' : Theory) (fs : List Fact) (conflict : Option Term) : Prop where
  sane : s'.Sane
  proceeds : Proceeds s s'
  facts : s'.processed.toList ++ s'.pending = s.processed.toList ++ fs
  blames : ∀ x, conflict = some x → s'.Blames x
  done : conflict = none → s'.pending = []
  complete : conflict = none → s.now.Complete s → s'.now.Complete s'
  foreseen : s.ForeseesFacts fs → Foreseen s s'
  foresees : s'.database.constraints.size = s.database.constraints.size → s.ForeseesFacts fs
  closed : conflict = none → s.options.propagateBounds = true → s.ForeseesFacts fs →
    s.now.Closed s.database → s'.now.Closed s'.database

/-- With an empty queue nothing is left to do. -/
theorem Sane.clearing {s : Theory} (hs : s.Sane) :
    Processes s { s with pending := [] } [] none := by
  have halike : Alike s { s with pending := [] } :=
    ⟨rfl, rfl, rfl, rfl, rfl, rfl, rfl, rfl, rfl, rfl, rfl⟩
  exact ⟨halike.sane hs (fun _ h => nomatch h), halike.proceeds, rfl, fun _ h => (by cases h),
    fun _ => rfl, fun _ h => halike.complete h, fun _ => .inl rfl, fun _ => trivial,
    fun _ _ _ h => h⟩

/-- A fact that is settled completes the ledger it was added to. -/
theorem Handles.complete {s s' : Theory} {f : Fact} {rest : List Fact}
    (h : Handles (s.taking f rest) s' f.literal none) (hs : s.now.Complete s) :
    s'.now.Complete s' where
  settled g hg := by
    have hg' : g ∈ s'.processed.toList := hg
    rw [h.processed, show (s.taking f rest).processed.toList = s.processed.toList ++ [f] from
      Trail.toList_push _ _] at hg'
    rcases List.mem_append.mp hg' with hg' | hg'
    · exact h.proceeds.settles (hs.settled g hg')
    · rw [List.mem_singleton.mp hg']
      exact h.settles rfl
  effective := h.effective rfl hs.effective

theorem processAll_cons (f : Fact) (rest : List Fact) (s : Theory) :
    processAll (f :: rest) s = (do
      match ← (s.taking f rest).assertFact f.literal with
      | (s, some conflict) => return (s, some conflict)
      | (s, none) => processAll rest s) := rfl

theorem processAll_spec (fs : List Fact) {s : Theory} (hs : s.Sane)
    (hlin : ∀ f ∈ fs, f.literal.Linear) :
    ∃ s' conflict, processAll fs s = .ok (s', conflict) ∧ Processes s s' fs conflict := by
  induction fs generalizing s with
  | nil => exact ⟨_, none, rfl, hs.clearing⟩
  | cons f rest ih =>
    obtain ⟨hs₁, hp₁⟩ := hs.taking hlin
    have hfacts : (s.taking f rest).processed.toList = s.processed.toList ++ [f] :=
      Trail.toList_push _ _
    obtain ⟨s₂, conflict, hassert, hh⟩ := hs₁.assertFact_spec (hlin f List.mem_cons_self)
      ⟨f, by rw [hfacts]; simp, rfl⟩
    have hp₂ := hp₁.trans hh.proceeds
    have hfacts₂ : s₂.processed.toList ++ rest = s.processed.toList ++ f :: rest := by
      rw [hh.processed, hfacts, List.append_assoc]
      rfl
    rw [processAll_cons, hassert, ok_bind]
    cases conflict with
    | some x =>
      refine ⟨s₂, some x, rfl, hh.sane, hp₂, ?_, hh.blames, fun h => (by cases h),
        fun h => (by cases h), fun h => (h s₂ _ hassert).1, fun h s' conflict hs' => ?_,
        fun h => (by cases h)⟩
      · rw [hh.pending]
        exact hfacts₂
      · cases hassert.symm.trans hs'
        exact ⟨.inl h, fun hnone => (by cases hnone)⟩
    | none =>
      obtain ⟨s₃, conflict, hrest, hpr⟩ :=
        ih hh.sane fun g hg => hlin g (List.mem_cons_of_mem _ hg)
      refine ⟨s₃, conflict, hrest, hpr.sane, hp₂.trans hpr.proceeds, hpr.facts.trans hfacts₂,
        hpr.blames, hpr.done, fun hnone hcomplete => hpr.complete hnone (hh.complete hcomplete),
        fun h => ?_, fun h s' conflict hs' => ?_, fun hnone hon h hclosed => ?_⟩
      · obtain ⟨hfirst, hrest⟩ := h s₂ none hassert
        exact hfirst.trans hp₂.toContinues (hpr.foreseen (hrest rfl))
      · cases hassert.symm.trans hs'
        have hsize₂ := hp₂.inherits.size
        have hsize₃ := hpr.proceeds.inherits.size
        exact ⟨.inl (by omega), fun _ => hpr.foresees (by omega)⟩
      · obtain ⟨hfirst, hrest⟩ := h s₂ none hassert
        exact hpr.closed hnone (hp₂.options ▸ hon) (hrest rfl) (hh.closed rfl hon hfirst hclosed)

end Theory

end LinearArithmetic
