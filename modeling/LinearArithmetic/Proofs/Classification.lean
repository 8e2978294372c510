import LinearArithmetic.Proofs.Naming

/-!
# From comparisons to statements

Classifying a comparison introduces variables for its leaves, and a slack variable for its
combination if there are several. Whatever the leaves are, the comparison holds exactly when the
variable of its constraint satisfies the statement of the constraint.
-/

namespace LinearArithmetic.Theory

/-! ## New variables -/

section AddVar

variable {s : Theory} {i : VarInfo}

theorem get?_addVar (s : Theory) (i : VarInfo) (k : Nat) :
    (s.addVar i).1.infos.get? k = if k = s.infos.size then some i else s.infos.get? k :=
  Arena.get?_push i s.infos k

theorem get?_addVar_of_some {k : Nat} {j : VarInfo} (h : s.infos.get? k = some j) :
    (s.addVar i).1.infos.get? k = some j := by
  rw [get?_addVar, if_neg (Nat.ne_of_lt (Arena.lt_size_of_get? h)), h]

theorem content?_addVar (s : Theory) (i : VarInfo) (v : Var) :
    (s.addVar i).1.content? v =
      if v.id = s.infos.size then some (content i) else s.content? v := by
  rw [content?, get?_addVar]
  split
  · rfl
  · rfl

theorem row?_addVar (s : Theory) (i : VarInfo) (v : Var) :
    (s.addVar i).1.simplex.tableau.row? v = s.simplex.tableau.row? v :=
  Tableau.row?_ensure _ _ _

theorem mentions_addVar {v : Var} :
    (s.addVar i).1.simplex.tableau.Mentions v ↔ s.simplex.tableau.Mentions v := by
  simp only [Tableau.Mentions, row?_addVar]

theorem isLeaf_addVar {v : Var} (h : s.IsLeaf v) : (s.addVar i).1.IsLeaf v := by
  obtain ⟨j, hj, hd⟩ := h
  exact ⟨j, get?_addVar_of_some hj, hd⟩

theorem active_addVar {v : Var} (h : s.Active v) : (s.addVar i).1.Active v := by
  obtain ⟨j, hj, hd⟩ := h
  exact ⟨j, get?_addVar_of_some hj, hd⟩

theorem active_of_addVar {v : Var} (hi : i.materialized = false)
    (h : (s.addVar i).1.Active v) : s.Active v ∨ (s.addVar i).1.IsLeaf v := by
  obtain ⟨j, hj, hd⟩ := h
  have hget := hj
  rw [get?_addVar] at hget
  split at hget
  · refine .inr ⟨j, hj, hd.resolve_right fun hm => ?_⟩
    rw [← Option.some.inj hget, hi] at hm
    cases hm
  · exact .inl ⟨j, hget, hd⟩

theorem dormant_of_addVar {v : Var} (h : (s.addVar i).1.Dormant v) : s.Dormant v :=
  h.imp (fun hn ha => hn (active_addVar ha)) id

theorem Arranged.addVar (h : s.Arranged)
    (hdef : ∀ r, i.definition = some r → ∀ u, r.contains u = true → s.IsLeaf u) :
    (s.addVar i).1.Arranged where
  coherent := by
    refine ⟨Tableau.consistent_ensure h.coherent.tableau _, ?_⟩
    change (s.simplex.tableau.ensure _).numVariables = (s.simplex.model.ensure _).numVariables
    rw [Tableau.numVariables_ensure, Model.numVariables_ensure, h.coherent.room]
  room := by
    change (s.simplex.model.ensure _).numVariables = (s.infos.push i).size
    rw [Model.numVariables_ensure, Arena.size_push, h.room]
    exact Nat.max_eq_right (Nat.le_succ _)
  definitions v r hr u hu := by
    rw [definition?_eq_content?, content?_addVar] at hr
    split at hr
    · exact isLeaf_addVar (hdef r hr u hu)
    · exact isLeaf_addVar (h.definitions v r (by rw [definition?_eq_content?]; exact hr) u hu)
  mentions v hv := active_addVar (h.mentions v (mentions_addVar.mp hv))
  eliminated e he := ⟨active_addVar (h.eliminated e he).1,
    fun u hu => active_addVar ((h.eliminated e he).2 u hu)⟩
  triangular := h.triangular
  apart e he hm := h.apart e he (mentions_addVar.mp hm)
  ejected v r hr := by
    obtain ⟨hd, hn⟩ := h.ejected v r hr
    obtain ⟨j, hj, hjd⟩ := definition?_eq_some_iff.mp hd
    have hget := get?_addVar_of_some (i := i) hj
    refine ⟨definition?_eq_some_iff.mpr ⟨j, hget, hjd⟩, ?_⟩
    rintro ⟨j', hj', hact⟩
    rw [hget] at hj'
    exact hn ⟨j', hj.trans hj', hact⟩

/-- A new variable that is a leaf, or a slack variable without row, leaves the rows alone. -/
theorem Framed.addVar (h : s.Framed) (hm : i.materialized = false)
    (hdef : ∀ r, i.definition = some r → ∀ u, r.contains u = true → s.IsLeaf u) :
    Grows s (s.addVar i).1 := by
  have hvalue : (s.addVar i).1.simplex.model.valueOf = s.simplex.model.valueOf :=
    Model.valueOf_ensure _ _
  have hsafe : (s.addVar i).1.simplex.model.safeOf = s.simplex.model.safeOf :=
    Model.safeOf_ensure _ _
  have hsaved : (s.addVar i).1.simplex.model.savedOf = s.simplex.model.savedOf :=
    Model.savedOf_ensure _ _
  have hsolves : ∀ (M : Type) [AddCommGroup M] [Module ℚ M] (σ : Var → M),
      (s.addVar i).1.simplex.tableau.Solves σ ↔ s.simplex.tableau.Solves σ := by
    intro M _ _ σ
    simp only [Tableau.Solves, row?_addVar]
  have hdefined : ∀ (M : Type) [AddCommGroup M] [Module ℚ M] (σ : Var → M),
      (s.addVar i).1.Defined σ ↔ s.Defined σ := by
    intro M _ _ σ
    refine ⟨fun hd v j r hj => hd v j r (get?_addVar_of_some hj), fun hd v j r hj hr hmat => ?_⟩
    rw [get?_addVar] at hj
    split at hj
    · rw [← Option.some.inj hj, hm] at hmat
      cases hmat
    · exact hd v j r hj hr hmat
  exact {
    sublist := .refl _
    framed := {
      toArranged := h.toArranged.addVar hdef
      values := by
        rw [hvalue]
        exact (hsolves _ _).mpr h.values
      safe := by
        rw [hsafe]
        exact (hsolves _ _).mpr h.safe
      dormant := fun v hv => by
        rw [hsaved]
        exact h.dormant v (dormant_of_addVar hv) }
    bounds := Model.boundOf_ensure _ _
    active := fun _ => active_addVar
    awake := fun _ => dormant_of_addVar
    balanced := fun hb M _ _ σ => by
      rw [hdefined, ← hb M σ]
      exact and_congr_left fun _ => hsolves M σ
    values := fun v _ => by
      rw [hvalue, hsafe]
      exact ⟨rfl, rfl⟩
    committed := fun hc v => by
      rw [hsaved]
      exact hc v
    watches := fun v _ hv => by
      rw [Simplex.Watches, row?_addVar]
      exact hv }

theorem widened_addVar (s : Theory) (i : VarInfo) : Widened s (s.addVar i).1 where
  options := rfl
  contents v p hp := by
    rw [content?_addVar, if_neg (Nat.ne_of_lt (lt_of_content? hp)), hp]
  constantAtoms := rfl
  database := rfl
  pending := rfl
  processed := rfl
  disequalities := rfl
  propagations := rfl
  trail := rfl
  bounds := Model.boundOf_ensure _ _
  lemmas := rfl

end AddVar

/-- A list of tables in which a name can be looked up, after a new name. -/
theorem lookup_append_of_none {α β : Type} [BEq α] [LawfulBEq α] {l : List (α × β)} {a : α}
    (h : l.lookup a = none) (b : β) (t : α) (v : β) :
    (l ++ [(a, b)]).lookup t = some v ↔ l.lookup t = some v ∨ t = a ∧ v = b := by
  rw [List.lookup_append]
  by_cases hta : t = a
  · subst hta
    simp [h, eq_comm]
  · have hf : (t == a) = false := beq_eq_false_iff_ne.mpr hta
    simp [List.lookup_cons, hf, hta]

/-! ## Leaves -/

/-- What introducing variables gives: the theory has grown and its names are in order. -/
structure Introduces (s s' : Theory) : Prop where
  grows : Grows s s'
  widened : Widened s s'
  named : s'.Named
  fresh : ∀ u, s'.Active u → s.Active u ∨ s'.IsLeaf u

theorem Introduces.refl {s : Theory} (h : s.Framed) (hn : s.Named) : Introduces s s :=
  ⟨.refl h, .refl s, hn, fun _ => .inl⟩

theorem Introduces.trans {s₁ s₂ s₃ : Theory} (h : Introduces s₁ s₂) (k : Introduces s₂ s₃) :
    Introduces s₁ s₃ where
  grows := h.grows.trans k.grows
  widened := h.widened.trans k.widened
  named := k.named
  fresh u hu := by
    rcases k.fresh u hu with hu | hu
    · exact (h.fresh u hu).imp_right k.widened.isLeaf
    · exact .inr hu

/-- The variables of leaves that get a row, and the slack variables that have none, leave the rows
trimmed. -/
theorem Introduces.trimmed {s s' : Theory} (h : Introduces s s') (ht : s.Trimmed) : s'.Trimmed :=
  ht.step h.widened.database (fun _ => h.widened.isLeaf)
    (fun _ hv => .inl ((h.grows.sublist.map Prod.fst).subset hv))
    fun u hu => (h.fresh u hu).imp_right .inl

/-- The names stay in order when a new variable is entered under its term or definition. -/
theorem Named.enter {s s' : Theory} (h : s.Named) {p : Term × Option Row} {w : Var}
    (hw : ∀ v : Var, v.id = s.infos.size ↔ v = w)
    (hcontent : ∀ v : Var, s'.content? v = if v.id = s.infos.size then some p else s.content? v)
    (hleaves : ∀ t v, s'.varOf? t = some v ↔ s.varOf? t = some v ∨ (t, none) = p ∧ v = w)
    (hlisted : ∀ e ∈ s'.leaves, e ∈ s.leaves ∨ e.2 = w)
    (hslacks : ∀ r v, s'.slacks.lookup r = some v ↔
      s.slacks.lookup r = some v ∨ some r = p.2 ∧ v = w)
    (hleaf : p.2 = none → p.1.IsLeaf)
    (hnormal : ∀ r, p.2 = some r → r.Normal ∧ 2 ≤ r.entries.length) : s'.Named := by
  have hold : ∀ {v : Var} {q}, s.content? v = some q → v ≠ w := by
    rintro v q hq rfl
    exact Nat.ne_of_lt (lt_of_content? hq) ((hw v).mpr rfl)
  have hiff : ∀ v q, s'.content? v = some q ↔ s.content? v = some q ∨ q = p ∧ v = w := by
    intro v q
    rw [hcontent]
    by_cases hv : v = w
    · rw [if_pos ((hw v).mpr hv)]
      constructor
      · exact fun hq => .inr ⟨(Option.some.inj hq).symm, hv⟩
      · rintro (hq | ⟨rfl, _⟩)
        · exact absurd hv (hold hq)
        · rfl
    · rw [if_neg fun hid => hv ((hw v).mp hid)]
      exact ⟨.inl, fun hq => hq.elim id fun hq => absurd hq.2 hv⟩
  refine ⟨fun t v => ?_, fun r v => ?_, fun t v hv => ?_, fun e he => ?_, fun t r v hv => ?_⟩
  · rw [hleaves, hiff, h.leaves]
  · rw [hslacks, h.slacks]
    constructor
    · rintro (⟨t, ht⟩ | ⟨hr, hv⟩)
      · exact ⟨t, (hiff _ _).mpr (.inl ht)⟩
      · exact ⟨p.1, (hiff _ _).mpr (.inr ⟨Prod.ext rfl hr, hv⟩)⟩
    · rintro ⟨t, ht⟩
      rcases (hiff _ _).mp ht with ht | ⟨ht, hv⟩
      · exact .inl ⟨t, ht⟩
      · exact .inr ⟨congrArg Prod.snd ht, hv⟩
  · rcases (hiff _ _).mp hv with hv | ⟨hv, _⟩
    · exact h.leaf t v hv
    · subst hv
      exact hleaf rfl
  · rcases hlisted e he with he | he
    · obtain ⟨q, hq⟩ := exists_content? (h.listed e he)
      exact lt_of_content? ((hiff _ _).mpr (.inl hq))
    · exact lt_of_content? ((hiff _ _).mpr (.inr ⟨rfl, he⟩))
  · rcases (hiff _ _).mp hv with hv | ⟨hv, _⟩
    · exact h.normal t r v hv
    · subst hv
      exact hnormal r rfl

/-- The variable of a leaf. -/
theorem Framed.requestVar {s : Theory} (h : s.Framed) (hn : s.Named) {leaf : Term}
    (hl : leaf.IsLeaf) :
    ∃ s' v, s.requestVar leaf = .ok (s', v) ∧ Introduces s s' ∧
      s'.content? v = some (leaf, none) ∧ v ∉ s'.eliminated.map Prod.fst := by
  cases hv : s.varOf? leaf with
  | some v =>
    obtain ⟨s', hok, hret, hback⟩ := h.reinstate v
    refine ⟨s', v, ?_, ⟨hret.grows, hret.rearranged.widened, hret.rearranged.named hn,
      fun u hu => .inl (hret.active_iff.mp hu)⟩, ?_, hback⟩
    · simp only [Theory.requestVar, hv, hok, ok_bind, pure_eq_ok]
    · rw [hret.rearranged.content?]
      exact (hn.leaves leaf v).mp hv
  | none =>
    let i : VarInfo := { term := leaf }
    let w : Var := ⟨s.infos.size⟩
    let s' : Theory := { (s.addVar i).1 with leaves := s.leaves ++ [(leaf, w)] }
    have hgrows : Grows s (s.addVar i).1 := h.addVar rfl fun r hr => nomatch hr
    have hwid := widened_addVar s i
    have hcontent : ∀ v : Var, s'.content? v =
        if v.id = s.infos.size then some (leaf, none) else s.content? v := content?_addVar s i
    have hw : ∀ v : Var, v.id = s.infos.size ↔ v = w :=
      fun v => ⟨fun hid => Var.eq_of_id_eq hid, fun hvw => hvw ▸ rfl⟩
    refine ⟨s', w, by simp only [Theory.requestVar, hv]; rfl, ⟨?_, ?_, ?_, fun u hu => ?_⟩, ?_,
      fun hmem => ?_⟩
    · exact ⟨⟨hgrows.framed.toArranged.congr rfl rfl rfl rfl, hgrows.framed.values,
        hgrows.framed.safe, fun v hv => hgrows.framed.dormant v hv⟩, .refl _, hgrows.bounds,
        hgrows.active, hgrows.awake, fun hb => (hgrows.balanced hb).congr rfl rfl rfl,
        hgrows.values, hgrows.committed, hgrows.watches⟩
    · exact ⟨hwid.options, hwid.contents, hwid.constantAtoms, hwid.database, hwid.pending,
        hwid.processed, hwid.disequalities, hwid.propagations, hwid.trail, hwid.bounds,
        hwid.lemmas⟩
    · refine hn.enter hw hcontent (fun t v => ?_) (fun e he => ?_) (fun r v => ?_) (fun _ => hl)
        fun r hr => nomatch hr
      · change (s.leaves ++ [(leaf, w)]).lookup t = some v ↔ _
        rw [lookup_append_of_none hv]
        simp [varOf?]
      · exact (List.mem_append.mp he).imp id fun he => congrArg Prod.snd (List.mem_singleton.mp he)
      · change s.slacks.lookup r = some v ↔ _
        simp
    · exact active_of_addVar rfl hu
    · rw [hcontent, if_pos rfl]
    · obtain ⟨e, he, hew⟩ := List.mem_map.mp hmem
      have hlt := (h.eliminated e he).1.lt
      rw [hew] at hlt
      exact Nat.lt_irrefl _ hlt

/-- The variables of the leaves of a combination. -/
theorem Framed.requestVars {s : Theory} (h : s.Framed) (hn : s.Named) {l : List (Term × ℚ)}
    (hl : ∀ e ∈ l, e.1.IsLeaf) :
    ∃ s' vs, s.requestVars l = .ok (s', vs) ∧ Introduces s s' ∧
      List.Forall₂ (fun e f => s'.content? f.1 = some (e.1, none) ∧ f.2 = e.2) l vs ∧
      ∀ v ∈ vs.map Prod.fst, v ∉ s'.eliminated.map Prod.fst := by
  induction l generalizing s with
  | nil => exact ⟨s, [], rfl, .refl h hn, .nil, fun v hv => absurd hv List.not_mem_nil⟩
  | cons e l ih =>
    obtain ⟨leaf, c⟩ := e
    obtain ⟨s₁, v, hok, hint, hv, hback⟩ := h.requestVar hn (hl _ List.mem_cons_self)
    obtain ⟨s₂, vs, hoks, hints, hvs, hbacks⟩ :=
      ih hint.grows.framed hint.named fun e he => hl e (List.mem_cons_of_mem _ he)
    refine ⟨s₂, (v, c) :: vs, ?_, hint.trans hints,
      .cons ⟨hints.widened.contents v _ hv, rfl⟩ hvs, fun u hu => ?_⟩
    · simp only [Theory.requestVars, hok, hoks, ok_bind, pure_eq_ok]
    · rcases List.mem_cons.mp hu with rfl | hu
      · exact fun hmem => hback ((hints.grows.sublist.map Prod.fst).subset hmem)
      · exact hbacks u hu

/-! ## Slack variables -/

theorem sumTerm_eq_ok {s : Theory} {r : Row} (h : ∀ u, r.contains u = true → s.IsLeaf u) :
    ∃ t, s.sumTerm r = .ok t := by
  have hterm : ∀ e ∈ r.entries, (do
      let leaf ← s.termOf e.1
      return if e.2 = 1 then leaf else .prod [.const e.2, leaf] : Checked Term) =
        .ok (if e.2 = 1 then s.leafOf e.1 else .prod [.const e.2, s.leafOf e.1]) := by
    intro e he
    have hcon : r.contains e.1 = true := by
      rw [← Row.mem_vars_iff]
      exact List.mem_map.mpr ⟨e, he, rfl⟩
    obtain ⟨i, hi, _⟩ := h e.1 hcon
    have hinfo : s.info e.1 = .ok i := Arena.get_eq_ok hi
    have hleaf : s.leafOf e.1 = i.term :=
      leafOf_of_content? (p := content i) (by rw [content?, hi]; rfl)
    rw [termOf, hinfo, hleaf]
    rfl
  exact ⟨_, by rw [sumTerm, Checked.mapM_eq_ok hterm]; rfl⟩

/-- The slack variable of a normal combination of several leaves. -/
theorem Framed.slackFor {s : Theory} (h : s.Framed) (hn : s.Named) {r : Row} (hr : r.Normal)
    (hlen : 2 ≤ r.entries.length) (hleaves : ∀ u, r.contains u = true → s.IsLeaf u) :
    ∃ s' v, s.slackFor r = .ok (s', v) ∧ Introduces s s' ∧ s'.definition? v = some r := by
  cases hv : s.slacks.lookup r with
  | some v =>
    refine ⟨s, v, by simp only [Theory.slackFor, hv], .refl h hn, ?_⟩
    obtain ⟨t, ht⟩ := (hn.slacks r v).mp hv
    rw [definition?_eq_content?, ht]
    rfl
  | none =>
    obtain ⟨t, ht⟩ := sumTerm_eq_ok hleaves
    let i : VarInfo := { term := t, definition := some r }
    let w : Var := ⟨s.infos.size⟩
    let s' : Theory := { (s.addVar i).1 with slacks := s.slacks ++ [(r, w)] }
    have hgrows : Grows s (s.addVar i).1 := h.addVar rfl fun q hq => Option.some.inj hq ▸ hleaves
    have hwid := widened_addVar s i
    have hcontent : ∀ v : Var, s'.content? v =
        if v.id = s.infos.size then some (t, some r) else s.content? v := content?_addVar s i
    have hw : ∀ v : Var, v.id = s.infos.size ↔ v = w :=
      fun v => ⟨fun hid => Var.eq_of_id_eq hid, fun hvw => hvw ▸ rfl⟩
    refine ⟨s', w, by simp only [Theory.slackFor, hv, ht, ok_bind]; rfl,
      ⟨?_, ?_, ?_, fun u hu => ?_⟩, ?_⟩
    · exact ⟨⟨hgrows.framed.toArranged.congr rfl rfl rfl rfl, hgrows.framed.values,
        hgrows.framed.safe, fun v hv => hgrows.framed.dormant v hv⟩, .refl _, hgrows.bounds,
        hgrows.active, hgrows.awake, fun hb => (hgrows.balanced hb).congr rfl rfl rfl,
        hgrows.values, hgrows.committed, hgrows.watches⟩
    · exact ⟨hwid.options, hwid.contents, hwid.constantAtoms, hwid.database, hwid.pending,
        hwid.processed, hwid.disequalities, hwid.propagations, hwid.trail, hwid.bounds,
        hwid.lemmas⟩
    · refine hn.enter hw hcontent (fun u v => ?_) (fun e he => .inl he) (fun q v => ?_)
        (fun hq => nomatch hq) fun q hq => Option.some.inj hq ▸ ⟨hr, hlen⟩
      · change s.leaves.lookup u = some v ↔ _
        simp [varOf?]
      · change (s.slacks ++ [(r, w)]).lookup q = some v ↔ _
        rw [lookup_append_of_none hv]
        simp
    · exact active_of_addVar rfl hu
    · rw [definition?_eq_content?, hcontent, if_pos rfl]
      rfl

/-! ## Classification -/

/-- What a comparison comes down to is right, whatever the leaves are. -/
def Means (s : Theory) (a : LinearAtom) : Classified → Prop
  | .constant b => ∀ ρ, a.Holds ρ ↔ b = true
  | .constraint st => st.Representable ∧ st.var.id < s.infos.size ∧ st.kind ≠ .disequality ∧
    (st.kind = .equality ↔ a.relation = .eq) ∧
    ∀ ρ, a.Holds ρ ↔ st.Holds (.ofRat (s.interpret ρ st.var))

section Combination

variable {s : Theory} {l : List (Term × ℚ)} {vs : List (Var × ℚ)}

/-- The value of a combination of leaves is that of the row of their variables. -/
theorem sum_eq_eval
    (h : List.Forall₂ (fun e f => s.content? f.1 = some (e.1, none) ∧ f.2 = e.2) l vs)
    (ρ : Term → ℚ) :
    (l.map fun e => e.2 * ρ e.1).sum = (Row.ofList vs).eval fun u => ρ (s.leafOf u) := by
  rw [Row.eval_ofList]
  induction h with
  | nil => rfl
  | cons hef _ ih =>
    rw [List.map_cons, List.map_cons, List.sum_cons, List.sum_cons, ih, hef.2,
      leafOf_of_content? hef.1, smul_eq_mul]

theorem isLeaf_of_contains
    (h : List.Forall₂ (fun e f => s.content? f.1 = some (e.1, none) ∧ f.2 = e.2) l vs) {u : Var}
    (hu : (Row.ofList vs).contains u = true) : s.IsLeaf u := by
  replace hu := Row.mem_of_contains_ofList hu
  induction h with
  | nil => exact absurd hu List.not_mem_nil
  | cons hef _ ih =>
    rcases List.mem_cons.mp hu with rfl | hu
    · exact isLeaf_iff.mpr ⟨_, hef.1⟩
    · exact ih hu

end Combination

theorem entries_scale (r : Row) {q : ℚ} (hq : q ≠ 0) :
    (r.scale q).entries = r.entries.map fun e => (e.1, e.2 * q) := by
  rw [Row.scale, dif_neg hq]
  rfl

theorem contains_scale {r : Row} {q : ℚ} (hq : q ≠ 0) {u : Var} :
    (r.scale q).contains u = true ↔ r.contains u = true := by
  rw [Row.contains_iff, Row.contains_iff, Row.coefficient_scale]
  simp [hq]

/-- The statement of a comparison whose left side is a multiple of a variable. -/
theorem means_of_interpret {s : Theory} {a : LinearAtom} {v : Var} (hv : v.id < s.infos.size)
    {lead : ℚ} (hlead : lead ≠ 0)
    (h : ∀ ρ, (a.leaves.map fun e => e.2 * ρ e.1).sum = lead * s.interpret ρ v) :
    s.Means a (.constraint ⟨v,
      (if lead < 0 then a.relation.flip else a.relation).constraintKind,
      (if lead < 0 then a.relation.flip else a.relation).boundValue (a.bound / lead)⟩) := by
  refine ⟨Relation.representable _ v _, hv, ?_, ?_, fun ρ => ?_⟩
  · split <;> cases a.relation <;> exact fun hk => nomatch hk
  · split <;> cases a.relation <;> simp [Relation.flip, Relation.constraintKind]
  · rw [LinearAtom.Holds, h, Relation.holds_div _ hlead]
    exact (Relation.holds_statement _ v _ _).symm

/-- Classifying a comparison of leaves. -/
theorem Framed.classify {s : Theory} (h : s.Framed) (hn : s.Named) {a : LinearAtom}
    (ha : ∀ e ∈ a.leaves, e.1.IsLeaf) :
    ∃ s' k, s.classify a = .ok (s', k) ∧ Introduces s s' ∧ s'.Means a k ∧
      ∀ st, k = .constraint st → s'.IsLeaf st.var → st.var ∉ s'.eliminated.map Prod.fst := by
  obtain ⟨s₁, vs, hok, hint, hvs, hback⟩ := h.requestVars hn ha
  have hleaf : ∀ u, (Row.ofList vs).contains u = true → s₁.IsLeaf u :=
    fun u hu => isLeaf_of_contains hvs hu
  have hsum := fun ρ => sum_eq_eval hvs ρ
  rw [Theory.classify, hok, ok_bind]
  dsimp only
  cases hentries : (Row.ofList vs).entries with
  | nil =>
    refine ⟨s₁, .constant (a.relation.holds 0 a.bound), rfl, hint, fun ρ => ?_,
      fun st hst => (by cases hst)⟩
    rw [LinearAtom.Holds, hsum, Row.eval_eq_sum, hentries]
    rfl
  | cons f rest =>
    obtain ⟨v, lead⟩ := f
    have hmem : (v, lead) ∈ (Row.ofList vs).entries := hentries ▸ List.mem_cons_self
    have hlead : lead ≠ 0 := (Row.ofList vs).ne_zero _ hmem
    have hcontains := Row.contains_of_mem_entries hmem
    have hv : s₁.IsLeaf v := hleaf v hcontains
    cases hrest : rest with
    | nil =>
      subst hrest
      refine ⟨s₁, _, rfl, hint, means_of_interpret hv.active.lt hlead fun ρ => ?_,
        fun st hst _ => ?_⟩
      · rw [hsum, Row.eval_eq_sum, hentries, interpret, formOf_of_leaf hv, Row.eval_single]
        simp
      · rw [← Classified.constraint.inj hst]
        exact hback v (Row.mem_of_contains_ofList hcontains)
    | cons e rest' =>
      let r := (Row.ofList vs).scale (1 / lead)
      have hq : (1 : ℚ) / lead ≠ 0 := one_div_ne_zero hlead
      have hrentries : r.entries =
          (v, 1) :: (e.1, e.2 * (1 / lead)) :: rest'.map fun f => (f.1, f.2 * (1 / lead)) := by
        rw [entries_scale _ hq, hentries, hrest, List.map_cons, List.map_cons,
          mul_one_div_cancel hlead]
      obtain ⟨s₂, w, hslack, hint₂, hdef⟩ := hint.grows.framed.slackFor hint.named (r := r)
        ⟨v, _, hrentries⟩ (by rw [hrentries]; simp)
        fun u hu => hleaf u ((contains_scale hq).mp hu)
      refine ⟨s₂, .constraint ⟨w,
        (if lead < 0 then a.relation.flip else a.relation).constraintKind,
        (if lead < 0 then a.relation.flip else a.relation).boundValue (a.bound / lead)⟩,
        ?_, hint.trans hint₂, ?_, fun st hst hleafst => ?_⟩
      · change (s₁.slackFor r >>= _) = _
        rw [hslack]
        rfl
      · refine means_of_interpret (lt_of_definition? hdef) hlead fun ρ => ?_
        rw [hsum, interpret, formOf_of_definition hdef, Row.eval_scale, smul_eq_mul, ← mul_assoc,
          mul_one_div_cancel hlead, one_mul]
        refine Row.eval_congr fun u hu => ?_
        obtain ⟨t, ht⟩ := isLeaf_iff.mp (hleaf u hu)
        rw [leafOf_of_content? ht, leafOf_of_content? (hint₂.widened.contents u _ ht)]
      · rw [← Classified.constraint.inj hst] at hleafst
        exact absurd hleafst (not_isLeaf_of_definition? hdef)

end LinearArithmetic.Theory
