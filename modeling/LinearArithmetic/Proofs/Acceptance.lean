import LinearArithmetic.Proofs.Readings
import LinearArithmetic.Proofs.Safety

/-!
# Truth values of accepted literals

A literal is accepted when its comparison is linear, and then the leaves that are left when its
sides are subtracted get variables. An evaluation computes both sides apart. So an accepted literal
has a truth value exactly when the leaves that cancel between the sides have values.
-/

namespace LinearArithmetic

namespace Term

/-! ## Values of both sides -/

section Value

variable {owned : Term → Option ℚ}

theorem exists_foldlM_iff {f : Term → Except Refusal ℚ} {l : List (Term × ℚ)} {x : ℚ} :
    (∃ q, l.foldlM (fun x e => do return x + e.2 * (← f e.1)) x = .ok q) ↔
      ∀ e ∈ l, ∃ q, f e.1 = .ok q := by
  induction l generalizing x with
  | nil => exact ⟨fun _ e he => absurd he List.not_mem_nil, fun _ => ⟨x, rfl⟩⟩
  | cons e l ih =>
    rw [List.foldlM_cons, List.forall_mem_cons]
    cases hf : f e.1 with
    | error why => simp
    | ok y => simpa using ih

/-- A term that is an unknown of its own is the only leaf of its linear sum. -/
theorem IsLeaf.linearSum_eq {t : Term} (h : t.IsLeaf) {s : LinearSum} (hs : t.linearSum = .ok s) :
    s = { terms := [(t, 1)] } := by
  cases t with
  | var _ | ite _ _ _ =>
    rw [linearSum, addTo] at hs
    exact (Except.ok.inj hs).symm
  | prod ts =>
    obtain ⟨hlen, hall⟩ := h
    have hlen' : ¬ (variableFactors ts).length ≤ 1 := by rw [hall]; omega
    rcases addTo_prod_eq_ok hs with ⟨hv, _⟩ | ⟨f, hv, _⟩ | ⟨_, ⟨p, hp⟩, _⟩
    · exact absurd (by simp [hv]) hlen'
    · exact absurd (by simp [hv]) hlen'
    · have halone := linearSum_variableFactors hp hlen'
      rw [hall] at halone
      exact Except.ok.inj (hs.symm.trans halone)
  | _ => exact h.elim

theorem forall_leaves_alone {P : Term → Prop} {t : Term} :
    (∀ e ∈ ({ terms := [(t, 1)] } : LinearSum).leaves, P e.1) ↔ P t := by
  simp [LinearSum.leaves]

theorem exists_leafValue_iff (hleaf : ∀ t q, owned t = some q → t.IsLeaf) {t : Term}
    {s : LinearSum} (hs : t.linearSum = .ok s) :
    (∃ q, t.rationalValue owned = .ok q) ↔ ∀ e ∈ s.leaves, ∃ q, e.1.leafValue owned = .ok q := by
  cases ho : owned t with
  | some x =>
    rw [(hleaf t x ho).linearSum_eq hs,
      forall_leaves_alone (P := fun u => ∃ q, u.leafValue owned = .ok q)]
    exact iff_of_true ⟨x, rationalValue_owned ho⟩ ⟨x, leafValue_owned ho⟩
  | none =>
    cases t with
    | const q =>
      rw [linearSum, addTo, Except.ok.injEq] at hs
      refine iff_of_true ⟨q, ?_⟩ fun e he => ?_
      · simp only [rationalValue, size, rationalWithin, ho]
      · rw [← hs] at he
        exact absurd he List.not_mem_nil
    | sum ts | prod ts =>
      rw [rationalValue_linear ho (by simp), hs, ok_bind]
      exact exists_foldlM_iff
    | var name =>
      rw [IsLeaf.linearSum_eq (t := var name) trivial hs,
        forall_leaves_alone (P := fun u => ∃ q, u.leafValue owned = .ok q)]
      refine iff_of_false ?_ ?_
      · simp [rationalValue, size, rationalWithin, ho]
      · simp [leafValue, size, leafWithin, ho]
    | ite c a b =>
      rw [IsLeaf.linearSum_eq (t := ite c a b) trivial hs,
        forall_leaves_alone (P := fun u => ∃ q, u.leafValue owned = .ok q), rationalValue_ite ho]
    | _ => cases hs

/-- A term has a value if the leaves of its linear sum have. -/
theorem exists_rationalValue_iff (hleaf : ∀ t q, owned t = some q → t.IsLeaf) {t : Term}
    {s : LinearSum} (hs : t.linearSum = .ok s) :
    (∃ q, t.rationalValue owned = .ok q) ↔
      ∀ e ∈ s.leaves, ∃ q, e.1.rationalValue owned = .ok q := by
  rw [exists_leafValue_iff hleaf hs]
  refine forall₂_congr fun e he => ?_
  have halone := ((linearSum_entries hs).2 e he).linearSum_eq
  rw [exists_leafValue_iff hleaf halone,
    forall_leaves_alone (P := fun u => ∃ q, u.leafValue owned = .ok q)]

/-- A literal has a truth value if both sides of its comparison have values. -/
theorem exists_truthValue_iff {t : Term} {r : Relation} {lhs rhs : Term}
    (ht : t.atom = rel r lhs rhs) : (∃ b, t.truthValue owned = .ok b) ↔
      (∃ p, lhs.rationalValue owned = .ok p) ∧ ∃ q, rhs.rationalValue owned = .ok q := by
  have hrel : (∃ b, (rel r lhs rhs).truthValue owned = .ok b) ↔
      (∃ p, lhs.rationalValue owned = .ok p) ∧ ∃ q, rhs.rationalValue owned = .ok q := by
    rw [truthValue_rel]
    cases lhs.rationalValue owned <;> cases rhs.rationalValue owned <;> simp [pure, Except.pure]
  cases t with
  | neg u =>
    rw [← hrel, truthValue_neg, show u = rel r lhs rhs from ht]
    cases (rel r lhs rhs).truthValue owned <;> simp [pure, Except.pure]
  | rel r' x y => rwa [show rel r' x y = rel r lhs rhs from ht]
  | _ => cases ht

end Value

/-! ## Leaves that cancel -/

/-- The leaf stands with the same coefficient in the linear sums of both sides. -/
def Cancels (t leaf : Term) : Prop :=
  ∃ r lhs rhs left right c, t.atom = rel r lhs rhs ∧ lhs.linearSum = .ok left ∧
    rhs.linearSum = .ok right ∧ (leaf, c) ∈ left.leaves ∧ (leaf, c) ∈ right.leaves

/-- Where all leaves of its linear atom have values, a literal has a truth value if the leaves that
cancel have values. -/
theorem exists_truth_iff {owned : Term → Option ℚ} (hleaf : ∀ t q, owned t = some q → t.IsLeaf)
    {t : Term} {l : LinearAtom} (hl : t.atom.linearAtom = .ok l)
    (hown : ∀ e ∈ l.leaves, ∃ q, e.1.rationalValue owned = .ok q) :
    (∃ b, t.truthValue owned = .ok b) ↔
      ∀ leaf, t.Cancels leaf → ∃ q, leaf.rationalValue owned = .ok q := by
  obtain ⟨⟨lhs, rhs, hatom⟩, _, _⟩ := linearAtom_eq_ok hl
  rw [hatom] at hl
  obtain ⟨left, right, hleft, hright, _, hslopes⟩ := linearAtom_sides hl
  have hleftmem := fun u c => LinearSum.mem_leaves_iff (linearSum_entries hleft).1 (u := u) (c := c)
  have hrightmem := fun u c =>
    LinearSum.mem_leaves_iff (linearSum_entries hright).1 (u := u) (c := c)
  rw [exists_truthValue_iff hatom, exists_rationalValue_iff hleaf hleft,
    exists_rationalValue_iff hleaf hright]
  constructor
  · rintro ⟨hvalues, _⟩ leaf ⟨r, lhs', rhs', left', right', c, hatom', hleft', _, hmem, _⟩
    rw [hatom] at hatom'
    cases hatom'
    rw [hleft] at hleft'
    cases hleft'
    exact hvalues _ hmem
  · intro hcancel
    -- a leaf of one side cancels, or it is left in the linear atom
    have hvalue : ∀ u, left.slope u ≠ 0 ∨ right.slope u ≠ 0 →
        ∃ q, u.rationalValue owned = .ok q := by
      intro u hu
      by_cases heq : left.slope u - right.slope u = 0
      · have hslope : right.slope u = left.slope u := (sub_eq_zero.mp heq).symm
        have hne : left.slope u ≠ 0 := hu.elim id fun h => hslope ▸ h
        exact hcancel u ⟨_, lhs, rhs, left, right, left.slope u, hatom, hleft, hright,
          (hleftmem u _).mpr ⟨hne, rfl⟩, (hrightmem u _).mpr ⟨hne, hslope⟩⟩
      · exact hown (u, left.slope u - right.slope u) ((hslopes u _).mpr ⟨heq, rfl⟩)
    refine ⟨fun e he => hvalue e.1 (.inl ?_), fun e he => hvalue e.1 (.inr ?_)⟩
    · obtain ⟨hne, hslope⟩ := (hleftmem e.1 e.2).mp he
      rwa [hslope]
    · obtain ⟨hne, hslope⟩ := (hrightmem e.1 e.2).mp he
      rwa [hslope]

end Term

namespace Theory

/-! ## Leaves of accepted literals -/

/-- The value of a leaf without a variable does not matter to any variable. -/
theorem Sane.interpret_update {s : Theory} (hs : s.Sane) {u : Term} (hu : s.owns u = false)
    {v : Var} (hv : v.id < s.infos.size) (ρ : Term → ℚ) (x : ℚ) :
    s.interpret (Function.update ρ u x) v = s.interpret ρ v := by
  refine Row.eval_congr fun w hw => ?_
  obtain ⟨t, ht⟩ := isLeaf_iff.mp (hs.framed.toArranged.isLeaf_of_formOf hv hw)
  have hown : s.owns t = true := by rw [owns, (hs.named.leaves t w).mpr ht, Option.isSome_some]
  have hne : t ≠ u := by
    rintro rfl
    exact Bool.false_ne_true (hu.symm.trans hown)
  rw [leafOf_of_content? ht, Function.update_of_ne hne]

/-- A registered literal means the same whatever the value of a leaf without a variable is. -/
theorem Sane.holds_update_iff {s : Theory} (hs : s.Sane) {t : Term} {c? : Option ConstraintId}
    (hreg : s.Registered t c?) {u : Term} (hu : s.owns u = false) (ρ : Term → ℚ) (x : ℚ) :
    t.atom.Holds (Function.update ρ u x) ↔ t.atom.Holds ρ := by
  cases c? with
  | none =>
    obtain ⟨b, hb⟩ := hreg
    obtain ⟨_, _, hholds⟩ := hs.linked.constants _ b hb
    rw [hholds, hholds]
  | some c =>
    obtain ⟨_, k, hk, _⟩ := hs.linked.valid.known t c hreg
    have hdenotes := hs.linked.denotes t c k hreg hk
    have hiff : t.Holds (Function.update ρ u x) ↔ t.Holds ρ := by
      rw [hdenotes.holds, hdenotes.holds, hs.interpret_update hu hdenotes.inRange]
    cases t with
    | neg a =>
      rw [Term.Holds, Term.Holds, not_iff_not] at hiff
      exact hiff
    | _ => exact hiff

/-- The leaves that are left in the linear atom of a registered literal have variables. -/
theorem Sane.owns_of_registered {s : Theory} (hs : s.Sane) {t : Term} {c? : Option ConstraintId}
    (hreg : s.Registered t c?) {l : LinearAtom} (hl : t.atom.linearAtom = .ok l) :
    ∀ e ∈ l.leaves, s.owns e.1 = true := by
  intro e he
  by_contra hu
  rw [Bool.not_eq_true] at hu
  obtain ⟨⟨lhs, rhs, hatom⟩, _, hholds⟩ := Term.linearAtom_eq_ok hl
  rw [hatom] at hl
  obtain ⟨_, _, _, _, hnodup, hslopes⟩ := Term.linearAtom_sides hl
  obtain ⟨⟨x, hx⟩, y, hy⟩ := LinearAtom.exists_update hnodup he ((hslopes e.1 e.2).mp he).1 0
  rw [hholds, hs.holds_update_iff hreg hu] at hx hy
  exact hy hx

/-! ## Later states -/

/-- Leaving scopes keeps all variables. -/
theorem infos_of_pop {s s' : Theory} {levels : Nat} (h : s.pop levels = .ok s') :
    s'.infos = s.infos := by
  rw [pop, if_neg (Nat.not_lt.mpr (le_of_pop h))] at h
  obtain ⟨_, _, h⟩ := bind_eq_ok.mp h
  obtain ⟨_, _, h⟩ := bind_eq_ok.mp h
  obtain ⟨_, _, h⟩ := bind_eq_ok.mp h
  obtain ⟨_, _, h⟩ := bind_eq_ok.mp h
  obtain rfl := Except.ok.inj h
  rfl

theorem Transition.contents {s s' : Theory} {op : Operation} {a : Answer}
    (h : Transition s op a s') (hstep : s.step op = .ok (s', a)) (v : Var)
    (p : Term × Option Row) (hp : s.content? v = some p) : s'.content? v = some p := by
  cases h with
  | maintains _ h _ _ _ _ => exact h.contents v p hp
  | asserts h _ _ _ => exact h.contents v p hp
  | checks h => exact h.continues.contents v p hp
  | opens _ =>
    obtain ⟨rfl, -⟩ := Prod.mk.inj (Except.ok.inj hstep)
    exact hp
  | leaves _ _ =>
    obtain ⟨s₁, hpop, heq⟩ := bind_eq_ok.mp hstep
    obtain ⟨rfl, -⟩ := Prod.mk.inj (Except.ok.inj heq)
    rwa [content?, infos_of_pop hpop]

/-- Variables stay what they are. -/
theorem Running.contents {s s' : Theory} {j : Journal} {ops : List Operation} {as : List Answer}
    (hr : Running s j) (h : s.run ops = .ok (s', as)) (v : Var) (p : Term × Option Row)
    (hp : s.content? v = some p) : s'.content? v = some p :=
  hr.preserve h (P := fun t => t.content? v = some p) hp
    fun _ _ hstep ht => ht.contents hstep v p

theorem Sane.owns_of_contents {s s' : Theory} (hs : s.Sane) (hs' : s'.Sane)
    (hcontents : ∀ v p, s.content? v = some p → s'.content? v = some p) {t : Term}
    (ht : s.owns t = true) : s'.owns t = true := by
  obtain ⟨v, hv⟩ := Option.isSome_iff_exists.mp ht
  have hv' := (hs'.named.leaves t v).mpr (hcontents v _ ((hs.named.leaves t v).mp hv))
  rw [owns, hv', Option.isSome_some]

/-- Registering and asserting a literal register its constraint first, and get no variables after
that. -/
theorem registerLiteral_of_accepted {s s₁ : Theory} {t : Term} (ht : t.isLiteral = true)
    {op : Operation} (hop : op = .assert t ∨ op = .register t)
    (hstep : s.step op = .ok (s₁, .done)) :
    ∃ s₂ c?, s.registerLiteral t = .ok (s₂, c?) ∧ s₁.leaves = s₂.leaves := by
  obtain rfl | rfl := hop
  · obtain ⟨b, hb, heq⟩ | ⟨_, _, _, heq⟩ := orRefuse_eq_ok hstep
    · obtain ⟨rfl, -⟩ := Prod.mk.inj heq
      rw [assertLiteral, ht] at hb
      obtain ⟨⟨s₂, c?⟩, hok, hb⟩ := bind_eq_ok.mp hb
      obtain rfl := Except.ok.inj hb
      exact ⟨s₂, c?, hok, rfl⟩
    · cases heq
  · obtain ⟨b, hb, heq⟩ | ⟨_, _, _, heq⟩ := orRefuse_eq_ok hstep
    · obtain ⟨rfl, -⟩ := Prod.mk.inj heq
      rw [register, if_pos ht] at hb
      obtain ⟨⟨s₂, c?⟩, hok, hb⟩ := bind_eq_ok.mp hb
      refine ⟨s₂, c?, hok, ?_⟩
      cases c? with
      | none => rw [Except.ok.inj hb]
      | some c =>
        obtain ⟨k, _, hb⟩ := bind_eq_ok.mp hb
        obtain ⟨negation, _, hb⟩ := bind_eq_ok.mp hb
        split at hb
        · rw [Except.ok.inj hb]
        · obtain ⟨db, _, hb⟩ := bind_eq_ok.mp hb
          rw [← Except.ok.inj hb]
    · cases heq

/-- The leaves that are left in the linear atom of an accepted literal have variables. -/
theorem Sane.owns_of_accepted {s s₁ : Theory} (hs : s.Sane) {t : Term} (ht : t.isLiteral = true)
    {op : Operation} (hop : op = .assert t ∨ op = .register t)
    (hstep : s.step op = .ok (s₁, .done)) :
    ∃ l, t.atom.linearAtom = .ok l ∧ ∀ e ∈ l.leaves, s₁.owns e.1 = true := by
  obtain ⟨s₂, c?, hok, hleaves⟩ := registerLiteral_of_accepted ht hop hstep
  rcases registerLiteral_spec hs.framed hs.named hs.linked t with
    ⟨why, hrefused, _⟩ | ⟨s₃, c, hok', hreg, ⟨l, hl⟩, hregistered⟩
  · cases hrefused.symm.trans hok
  · cases hok'.symm.trans hok
    refine ⟨l, hl, fun e he => ?_⟩
    have hown := (hreg.sane hs).owns_of_registered hregistered hl e he
    rwa [owns, varOf?, hleaves]

/-- From when it was accepted, a literal has a truth value as long as the leaves that cancel between
its sides have values, and its evaluation is refused otherwise. -/
theorem truth_of_accepted {o : Options} (hdefault : 0 < o.defaultDelta)
    {ops later : List Operation} {as bs : List Answer} {s s₁ s₂ s' : Theory}
    (hrun : (start o).run ops = .ok (s, as)) {t : Term} (ht : t.isLiteral = true)
    {op : Operation} (hop : op = .assert t ∨ op = .register t)
    (hstep : s.step op = .ok (s₁, .done)) (hlater : s₁.run later = .ok (s₂, bs))
    (hstage : Stage s₂ s') :
    ((∃ b, s'.evaluate t = .ok (.truth b)) ∨ ∃ why, s'.evaluate t = .error (.refusal why)) ∧
      ((∃ b, s'.evaluate t = .ok (.truth b)) ↔
        ∀ leaf, t.Cancels leaf → ∃ q, s'.rationalValue leaf = .ok q) := by
  have hr := running_of_run hrun
  have htransition := hr.sane.step_spec hr.committed hstep
  have hr₁ := htransition.running hr
  have hr₂ := hr₁.run hlater
  have hs' := hstage.sane hr₂.sane
  have hcontinues := hstage.continues hr₂.sane
  have hoptions : s'.options = o :=
    hcontinues.options.trans ((hr₁.options hlater).trans
      (htransition.options.trans ((running_start o).options hrun)))
  have hvalues := hs'.leafValues_eq_ok (hoptions ▸ hdefault)
  obtain ⟨l, hl, hown⟩ := hr.sane.owns_of_accepted ht hop hstep
  -- leaves that got variables when the literal was accepted keep them
  have hown' : ∀ e ∈ l.leaves, s'.owns e.1 = true := fun e he =>
    hr₁.sane.owns_of_contents hs'
      (fun v p hp => hcontinues.contents v p (hr₁.contents hlater v p hp)) (hown e he)
  have hiff := Term.exists_truth_iff (fun _ _ => hs'.isLeaf_of_lookup hvalues) hl fun e he => by
    obtain ⟨q, hq⟩ := Option.isSome_iff_exists.mp
      ((hs'.isSome_lookup hvalues e.1).trans (hown' e he))
    exact ⟨q, Term.rationalValue_owned hq⟩
  simp only [rationalValue_eq_ok hvalues, ← hiff, evaluate_eq hvalues, Term.evaluate_literal ht]
  cases t.truthValue fun u => (s'.valuesAt s'.smallDelta).lookup u with
  | error why => exact ⟨.inr ⟨why, rfl⟩, by simp [Except.mapError, Functor.map, Except.map]⟩
  | ok b => exact ⟨.inl ⟨b, rfl⟩, by simp [Except.mapError, Functor.map, Except.map]⟩

theorem Answer.eq_done {a : Answer} (h : (a matches .done) = true) : a = .done := by
  cases a with
  | done => rfl
  | _ => cases h

/-- The leaf `x` cancels, and of `z` a part is left. -/
def overlapping : Term :=
  .rel .le (.sum [.var "x", .var "y", .prod [.const 2, .var "z"]])
    (.sum [.var "x", .const 3, .var "z"])

theorem eq_of_cancels_overlapping {leaf : Term} (h : overlapping.Cancels leaf) :
    leaf = .var "x" := by
  obtain ⟨r, lhs, rhs, left, right, c, hatom, hl, hr, hleft, hright⟩ := h
  cases hatom
  have hleaves : left.leaves = [(.var "x", 1), (.var "y", 1), (.var "z", 2)] :=
    Except.ok.inj ((congrArg (Except.map LinearSum.leaves) hl).symm.trans (by decide +kernel))
  have hleaves' : right.leaves = [(.var "x", 1), (.var "z", 1)] :=
    Except.ok.inj ((congrArg (Except.map LinearSum.leaves) hr).symm.trans (by decide +kernel))
  rw [hleaves] at hleft
  rw [hleaves'] at hright
  simp only [List.mem_cons, Prod.mk.injEq, List.not_mem_nil, or_false] at hleft hright
  obtain ⟨rfl, -⟩ | ⟨rfl, hc⟩ := hright
  · rfl
  · obtain ⟨heq, -⟩ | ⟨heq, -⟩ | ⟨-, hc'⟩ := hleft
    · exact absurd heq (by decide)
    · exact absurd heq (by decide)
    · exact absurd (hc.symm.trans hc') (by decide)

/-- As `x` has a variable, the literal has a truth value, also after the presolver has eliminated a
leaf. -/
theorem truth_of_overlapping :
    ∃ s as s₁ s₂ bs, (start {}).run [.register (.rel .ge (.var "x") (.const 0))] = .ok (s, as) ∧
      s.step (.assert overlapping) = .ok (s₁, .done) ∧
      s₁.run [.push, .check .full, .presolve] = .ok (s₂, bs) ∧ s₂.eliminated ≠ [] ∧
        ∃ b, s₂.evaluate overlapping = .ok (.truth b) := by
  have h : ((start {}).run [.register (.rel .ge (.var "x") (.const 0))] >>= fun p =>
      p.1.step (.assert overlapping) >>= fun q =>
        q.1.run [.push, .check .full, .presolve] >>= fun r =>
          Except.ok (q.2 matches .done, r.1.eliminated.isEmpty,
            r.1.rationalValue (.var "x"))) = .ok (true, false, .ok 0) := by decide +kernel
  obtain ⟨⟨s, as⟩, hrun, h⟩ := bind_eq_ok.mp h
  obtain ⟨⟨s₁, a⟩, hstep, h⟩ := bind_eq_ok.mp h
  obtain ⟨⟨s₂, bs⟩, hlater, h⟩ := bind_eq_ok.mp h
  simp only [Except.ok.injEq, Prod.mk.injEq] at h
  obtain ⟨hdone, hgone, hvalue⟩ := h
  obtain rfl := Answer.eq_done hdone
  refine ⟨s, as, s₁, s₂, bs, hrun, hstep, hlater, fun hnil => ?_,
    (truth_of_accepted (by decide +kernel) hrun rfl (.inl rfl) hstep hlater .start).2.mpr
      fun leaf hleaf => ⟨0, ?_⟩⟩
  · rw [hnil] at hgone
    cases hgone
  · rw [eq_of_cancels_overlapping hleaf]
    exact hvalue

/-- A literal that is accepted and has no truth value. -/
theorem refused_of_cancelled :
    ∃ s, (start {}).step (.assert (.rel .le (.var "x") (.var "x"))) = .ok (s, .done) ∧
      s.evaluate (.rel .le (.var "x") (.var "x")) = .error (.refusal (.noValue (.var "x"))) := by
  have h : ((start {}).step (.assert (.rel .le (.var "x") (.var "x"))) >>= fun p =>
      Except.ok (p.2 matches .done, p.1.evaluate (.rel .le (.var "x") (.var "x")))) =
      .ok (true, .error (.refusal (.noValue (.var "x")))) := by decide +kernel
  obtain ⟨⟨s, a⟩, hstep, h⟩ := bind_eq_ok.mp h
  simp only [Except.ok.injEq, Prod.mk.injEq] at h
  obtain ⟨hdone, hvalue⟩ := h
  obtain rfl := Answer.eq_done hdone
  exact ⟨s, hstep, hvalue⟩

end Theory

end LinearArithmetic
