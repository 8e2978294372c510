import LinearArithmetic.Proofs.Safety

/-!
# Values that stay

A check with a conflict goes back to the values before it, also where it has moved rows. The
operations between checks leave the values of the leaves, the bounds and the number for the
infinitesimal as they are.
-/

namespace LinearArithmetic.Theory

/-! ## Checks with a conflict -/

/-- Only leaves are eliminated, and they stay leaves, so what was active is so after a check. -/
theorem Continues.active {s s' : Theory} (h : Continues s s') (hs : s.Sane) {v : Var}
    (hv : s.Active v) : s'.Active v := by
  by_cases helim : v ∈ s.eliminated.map Prod.fst
  · exact ((hs.trimmed.isLeaf hs.framed.toArranged helim).of_contents h.contents).active
  · have hawake : ¬ s'.Dormant v := fun hd => (h.awake v hd).elim (· hv) helim
    exact not_not.mp fun hn => hawake (.inl hn)

/-- What a check with its report does to the values: no change is left open, and after a conflict
every leaf has the value that it had before. -/
structure Transacts (s s' : Theory) (r : Report) : Prop where
  settled : s'.simplex.model.hasUncommitted = false
  reverted : r.conflicts ≠ [] → ∀ t v, s.varOf? t = some v →
    s'.varOf? t = some v ∧ ∃ x, s.value v = .ok x ∧ s'.value v = .ok x

theorem Verdict.transacts {effort : Effort} {s s' : Theory} {r : Report}
    (h : Verdict effort s s' r) (hs : s.Sane) (hc : s.simplex.model.Committed) :
    s.Transacts s' r where
  settled := Model.hasUncommitted_eq_false_iff.mpr h.committed
  reverted hr t v hv := by
    have hcontent := (hs.named.leaves t v).mp hv
    have hcontent' := h.continues.contents v _ hcontent
    have hup : Upholds s s' := by
      refine ⟨definitions_of_contents h.continues.contents, fun u => h.continues.active hs,
        fun u hu => ?_⟩
      rw [currentOf_of_not_dormant fun hd => hu (h.continues.awake u hd), h.reverted hr u hu,
        hc.safeOf_eq]
    have hcurrent : s'.currentOf v = s.currentOf v :=
      hup.currentOf_eq hs.framed.toArranged hs.balanced h.sane.framed h.sane.balanced
        (isLeaf_iff.mpr ⟨t, hcontent⟩).active
    refine ⟨(h.sane.named.leaves t v).mpr hcontent', s.currentOf v,
      hs.value_eq_ok (lt_of_content? hcontent), ?_⟩
    rw [h.sane.value_eq_ok (lt_of_content? hcontent'), hcurrent]

/-- A check is a transaction on the values, whatever was reinstated, materialised and pivoted in it.
It can fail only if a variable outside its bounds is not queued for repair. -/
theorem check_transacts {o : Options} {ops : List Operation} {s : Theory} {as : List Answer}
    (hrun : (start o).run ops = .ok (s, as)) (effort : Effort) :
    (s.check effort).Meets (fun _ => ¬ s.simplex.Queued) (fun p => s.Transacts p.1 p.2) := by
  have hr := running_of_run hrun
  exact (hr.sane.check_spec effort).mono fun _ hv => hv.transacts hr.sane hr.committed

/-- Literals that cannot all hold beside `x + y ≥ 1`. -/
def crowd : List Term :=
  [.rel .ge (.sum [.var "x", .prod [.const 2, .var "y"]]) (.const 3),
    .rel .le (.sum [.var "x", .var "y"]) (.const 1), .rel .le (.var "y") (.const 1)]

/-- The crowd is asserted while `x` is eliminated, with the value of the row of `x + y`. -/
def crowded : List Operation :=
  .assert (.rel .ge (.sum [.var "x", .var "y"]) (.const 1)) :: crowd.map .register ++
    [.check .standard, .eliminate ⟨0⟩, .push] ++ crowd.map .assert

/-- To find the conflict the check reinstates `x` and materialises the row of `x + 2y`; then `x` has
the value that it had through its row. -/
theorem crowded_transacts :
    ∃ s as s' r, (start {}).run crowded = .ok (s, as) ∧ s.check .full = .ok (s', r) ∧
      s.isEliminated ⟨0⟩ = true ∧ s'.isEliminated ⟨0⟩ = false ∧
      s.varOf? (.var "x") = some ⟨0⟩ ∧ s.value ⟨0⟩ = .ok ⟨1, 0⟩ ∧ s'.value ⟨0⟩ = .ok ⟨1, 0⟩ := by
  have h : ((start {}).run crowded >>= fun p => p.1.check .full >>= fun q => p.1.value ⟨0⟩ >>=
      fun x => Except.ok (p.1.isEliminated ⟨0⟩, q.1.isEliminated ⟨0⟩, p.1.varOf? (.var "x"), x,
        q.2.conflicts.length)) = .ok (true, false, some ⟨0⟩, ⟨1, 0⟩, 1) := by decide +kernel
  obtain ⟨⟨s, as⟩, hrun, h⟩ := bind_eq_ok.mp h
  obtain ⟨⟨s', r⟩, hcheck, h⟩ := bind_eq_ok.mp h
  obtain ⟨x, hvalue, h⟩ := bind_eq_ok.mp h
  simp only [Except.ok.injEq, Prod.mk.injEq] at h
  obtain ⟨hgone, hback, hvar, rfl, hconflict⟩ := h
  have htransacts : s.Transacts s' r := (check_transacts hrun .full).of_ok hcheck
  have hne : r.conflicts ≠ [] := List.length_pos_iff.mp (by rw [hconflict]; exact Nat.one_pos)
  obtain ⟨_, y, hy, hy'⟩ := htransacts.reverted hne _ _ hvar
  rw [hvalue] at hy
  obtain rfl := Except.ok.inj hy
  exact ⟨s, as, s', r, hrun, hcheck, hgone, hback, hvar, hvalue, hy'⟩

/-! ## Operations between checks -/

/-- The values of the leaves, the bounds and the disequalities are those of the first state. -/
structure Agreeing (s s' : Theory) : Prop where
  sane : s'.Sane
  options : s'.options = s.options
  bounds : s'.simplex.model.boundOf = s.simplex.model.boundOf
  disequalities : s'.disequalities.toList = s.disequalities.toList
  stored : ∀ d ∈ s.disequalities.toList, ∀ k, s.database.stored d = some k →
    ∃ k', s'.database.stored d = some k' ∧ k'.bare = k.bare
  contents : ∀ v p, s.content? v = some p → s'.content? v = some p
  current : ∀ v, s.IsLeaf v → s'.currentOf v = s.currentOf v

theorem Maintains.agreeing {s s' : Theory} (h : Maintains s s') (hs : s.Sane) (hin : s.Inside) :
    Agreeing s s' := by
  have hledger := h.ledger_now hs
  exact ⟨h.sane, h.options, hledger.bounds, hledger.disequalities,
    fun d hd k => hs.stored_of_keeps (h.keeps s.level (Nat.le_refl _)) hd, h.contents,
    h.current hin⟩

/-- Opening a scope changes nothing that can be read. -/
theorem Sane.agreeing_push {s : Theory} (hs : s.Sane) : Agreeing s s.push :=
  ⟨hs.push_spec.sane, rfl, rfl, Trail.toList_openScope _, fun _ _ k hk => ⟨k, hk, rfl⟩,
    fun _ _ => id, fun _ _ => rfl⟩

section Agreeing

variable {s s' : Theory} (h : Agreeing s s') (hs : s.Sane)

include h

theorem Agreeing.inUse {u : Var} (hu : s.InUse u) : s'.InUse u := by
  rcases hu with ⟨side, b, hb⟩ | ⟨d, hd, k, hk, rfl⟩
  · exact .inl ⟨side, b, by rw [h.bounds]; exact hb⟩
  · obtain ⟨k', hk', hbare⟩ := h.stored d hd k hk
    refine .inr ⟨d, by rw [h.disequalities]; exact hd, k', hk', ?_⟩
    rw [Constraint.statement_of_bare hbare]

include hs

/-- The definition of a slack variable gives it the same value in both states. -/
theorem Agreeing.valueOf_eq {u : Var} (hu : s.InUse u) :
    s'.simplex.model.valueOf u = s.simplex.model.valueOf u := by
  have hawake := hs.recorded.awake_of_inUse hu
  have hawake' := h.sane.recorded.awake_of_inUse (h.inUse hu)
  rw [← currentOf_of_not_dormant hawake, ← currentOf_of_not_dormant hawake']
  rw [Dormant, not_or, not_not] at hawake hawake'
  rcases isLeaf_or_definition hawake.1.lt with hleaf | ⟨r, hr⟩
  · exact h.current u hleaf
  · have hr' := definitions_of_contents h.contents u r hr
    rw [hs.framed.currentOf_eq_eval hs.balanced hr hawake.1,
      h.sane.framed.currentOf_eq_eval h.sane.balanced hr' hawake'.1]
    exact Row.eval_congr fun w hw => h.current w (hs.framed.definitions u r hr w hw)

theorem Agreeing.inside (hin : s.Inside) : s'.Inside := by
  intro u side b hb
  rw [h.bounds] at hb
  rw [h.valueOf_eq hs (.inl ⟨side, b, hb⟩)]
  exact hin u side b hb

theorem Agreeing.smallDelta_eq : s'.smallDelta = s.smallDelta := by
  have habout : s'.disequalities.toList.map s'.aboutOf = s.disequalities.toList.map s.aboutOf := by
    rw [h.disequalities]
    refine List.map_congr_left fun d hd => ?_
    obtain ⟨k, hk, habout⟩ := hs.exists_about hd
    obtain ⟨k', hk', hbare⟩ := h.stored d hd k hk
    rw [habout, aboutOf_of_stored hk', Constraint.statement_of_bare hbare]
  rw [smallDelta, smallDelta, habout, h.options]
  refine Model.smallDelta_congr _ h.bounds (fun side u b hb => h.valueOf_eq hs (.inl ⟨side, b, hb⟩))
    fun e he => ?_
  obtain ⟨d, hd, rfl⟩ := List.mem_map.mp he
  obtain ⟨k, hk, habout⟩ := hs.exists_about hd
  rw [habout]
  exact h.valueOf_eq hs (.inr ⟨d, hd, k, hk, rfl⟩)

end Agreeing

/-- The value of a leaf is that of its variable under the number for the infinitesimal. -/
theorem Sane.rationalValue_leaf {s : Theory} (hs : s.Sane) (hdefault : 0 < s.options.defaultDelta)
    {t : Term} {v : Var} (hv : s.varOf? t = some v) :
    s.rationalValue t = .ok ((s.currentOf v).substitute s.smallDelta) := by
  have hlook : (s.valuesAt s.smallDelta).lookup t =
      some ((s.currentOf v).substitute s.smallDelta) := by
    rw [lookup_valuesAt, hv]
    rfl
  rw [rationalValue, hs.leafValues_eq_ok hdefault]
  exact congrArg (Except.mapError Failure.refusal) (Term.rationalValue_owned hlook)

/-- The second state gives the leaves of the first the same values, has the same bounds, and all
values are within them. -/
structure Undisturbed (s s' : Theory) : Prop where
  values : ∀ t v, s.varOf? t = some v → s'.varOf? t = some v ∧
    ∃ q, s.rationalValue t = .ok q ∧ s'.rationalValue t = .ok q
  bounds : s'.simplex.model.boundOf = s.simplex.model.boundOf
  satisfied : ∀ v, s'.simplex.model.Within v

theorem Agreeing.undisturbed {s s' : Theory} (h : Agreeing s s') (hs : s.Sane) (hin : s.Inside)
    (hdefault : 0 < s.options.defaultDelta) : Undisturbed s s' where
  values t v hv := by
    have hcontent := (hs.named.leaves t v).mp hv
    have hv' : s'.varOf? t = some v := (h.sane.named.leaves t v).mpr (h.contents v _ hcontent)
    refine ⟨hv', _, hs.rationalValue_leaf hdefault hv, ?_⟩
    rw [h.sane.rationalValue_leaf (h.options ▸ hdefault) hv', h.smallDelta_eq hs,
      h.current v (isLeaf_iff.mpr ⟨t, hcontent⟩)]
  bounds := h.bounds
  satisfied := h.inside hs hin

/-- The operation neither processes facts nor leaves scopes. -/
def Operation.Maintains : Operation → Prop
  | .check _ | .pop _ => False
  | _ => True

theorem Operation.Maintains.allows {op : Operation} (h : op.Maintains) {j : Journal}
    (hj : j.conflict = none) : j.Allows op := by
  cases op with
  | propagate | explain _ => exact trivial
  | pop _ => exact h.elim
  | _ => exact hj

theorem Transition.agreeing {s s' : Theory} {op : Operation} {a : Answer}
    (h : Transition s op a s') (hs : s.Sane) (hin : s.Inside) (hop : op.Maintains)
    (hstep : s.step op = .ok (s', a)) : Agreeing s s' := by
  cases h with
  | maintains _ h _ _ _ _ => exact h.agreeing hs hin
  | asserts h _ _ _ => exact h.agreeing hs hin
  | checks _ => exact hop.elim
  | opens _ =>
    obtain ⟨rfl, -⟩ := Prod.mk.inj (Except.ok.inj hstep)
    exact hs.agreeing_push
  | leaves _ _ => exact hop.elim

/-- As long as no conflict waits, an operation between checks leaves the values of the leaves and
the bounds as they are, whatever it eliminates or reinstates; it succeeds when its preconditions are
met. -/
theorem undisturbed_of_step {o : Options} (hdefault : 0 < o.defaultDelta) {ops : List Operation}
    {s : Theory} {as : List Answer} (hrun : (start o).run ops = .ok (s, as))
    (hallows : ({} : Journal).AllowsAll ops as) (hready : (Journal.of ops as).conflict = none)
    {op : Operation} (hop : op.Maintains) :
    (s.Permits op → ∃ s' a, s.step op = .ok (s', a)) ∧
      ∀ s' a, s.step op = .ok (s', a) → Undisturbed s s' := by
  have hr := running_of_run hrun
  have hhealthy := healthy_of_run hrun hallows
  have hin : s.Inside := (hhealthy.fit hready (Nat.le_refl _)).inside_now hr.sane.recorded
  have hdefault' : 0 < s.options.defaultDelta := (running_start o).options hrun ▸ hdefault
  refine ⟨hr.exists_step hhealthy (hop.allows hready), fun s' a hstep => ?_⟩
  have ht := hr.sane.step_spec hr.committed hstep
  exact (ht.agreeing hr.sane hin hop hstep).undisturbed hr.sane hin hdefault'

/-- A strict bound on `x + y`, which must not be `3/2`, and `x` eliminated after the check. -/
def narrowed : List Operation :=
  [.push, .assert (.rel .gt (.sum [.var "x", .var "y"]) (.const 1)),
    .assert (.neg (.rel .eq (.sum [.var "x", .var "y"]) (.const (3 / 2)))), .check .standard,
    .presolve]

/-- A reset throws away the row that gives `x` its value, and an assertion reinstates `x`; both
times `x` keeps the value `5/4` that is found for it. -/
theorem narrowed_undisturbed :
    ∃ s as, (start { defaultDelta := 1 }).run narrowed = .ok (s, as) ∧
      s.isEliminated ⟨0⟩ = true ∧
      ∀ op ∈ [.reset, .assert (.rel .le (.var "x") (.const 4)), .push],
        ∃ s' a, s.step op = .ok (s', a) ∧ s'.rationalValue (.var "x") = .ok (5 / 4) := by
  have hdisciplined : (start { defaultDelta := 1 }).Disciplined {} narrowed := by decide +kernel
  obtain ⟨s, as, hrun, hallows⟩ := hdisciplined.exists_run (running_start _) (healthy_start _)
  have hvalues : ((start { defaultDelta := 1 }).run narrowed).map (fun p =>
      ((Journal.of narrowed p.2).conflict, p.1.isEliminated ⟨0⟩, p.1.varOf? (.var "x"),
        (p.1.rationalValue (.var "x")).toOption)) =
      .ok (none, true, some ⟨0⟩, some (5 / 4)) := by decide +kernel
  rw [hrun] at hvalues
  obtain ⟨hready, hgone, hvar, hvalue⟩ := by simpa using Except.ok.inj hvalues
  refine ⟨s, as, hrun, hgone, fun op hop => ?_⟩
  have hkind : op.Maintains ∧ s.Permits op := by
    simp only [List.mem_cons, List.not_mem_nil, or_false] at hop
    rcases hop with rfl | rfl | rfl <;> exact ⟨trivial, trivial⟩
  obtain ⟨hexists, hkeeps⟩ := undisturbed_of_step (by decide +kernel) hrun hallows hready hkind.1
  obtain ⟨s', a, hstep⟩ := hexists hkind.2
  obtain ⟨_, q, hq, hq'⟩ := (hkeeps s' a hstep).values _ _ hvar
  rw [hq] at hvalue
  obtain rfl := Option.some.inj hvalue
  exact ⟨s', a, hstep, hq'⟩

end LinearArithmetic.Theory
