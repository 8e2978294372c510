import LinearArithmetic.Proofs.LinearValue
import LinearArithmetic.Proofs.Materialize
import LinearArithmetic.Theory.Classify

/-!
# What variables stand for

A variable stands for a combination of leaves: for its leaf, or for the combination that defines
it if it is a slack variable. The combinations are normal, with one as their first coefficient,
so two variables whose combinations are multiples of each other are the same.
-/

namespace LinearArithmetic

/-! ## Normal rows -/

namespace Row

/-- The first coefficient is one. -/
def Normal (r : Row) : Prop := ∃ u l, r.entries = (u, 1) :: l

theorem le_of_contains {r : Row} {u v : Var} {c : ℚ} {l : List (Var × ℚ)}
    (h : r.entries = (u, c) :: l) (hv : r.contains v = true) : u ≤ v := by
  have hmem : (v, r.coefficient v) ∈ r.entries :=
    mem_entries_iff.mpr (coefficient?_of_ne_zero (contains_iff.mp hv))
  have hsorted := r.coefficients.sorted
  change r.entries.Pairwise _ at hsorted
  rw [h] at hmem hsorted
  rcases List.mem_cons.mp hmem with heq | hmem
  · rw [(Prod.mk.inj heq).1]
    exact Nat.le_refl _
  · exact Nat.le_of_lt ((List.pairwise_cons.mp hsorted).1 _ hmem)

theorem coefficient_of_entries {r : Row} {u : Var} {c : ℚ} {l : List (Var × ℚ)}
    (h : r.entries = (u, c) :: l) : r.coefficient u = c :=
  coefficient_eq_of_some (mem_entries_iff.mp (h ▸ List.mem_cons_self))

/-- Normal rows that are multiples of each other are equal. -/
theorem Normal.eq_of_smul {r r' : Row} (h : r.Normal) (h' : r'.Normal) {c : ℚ}
    (heq : ∀ v, r'.coefficient v = c * r.coefficient v) : r' = r := by
  obtain ⟨u, l, hu⟩ := h
  obtain ⟨u', l', hu'⟩ := h'
  have hone := coefficient_of_entries hu
  have hone' := coefficient_of_entries hu'
  have hc : c ≠ 0 := by
    rintro rfl
    rw [heq, zero_mul] at hone'
    exact zero_ne_one hone'
  have hle : u ≤ u' := le_of_contains hu (contains_iff.mpr fun hz => by
    rw [heq, hz, mul_zero] at hone'
    exact zero_ne_one hone')
  have hle' : u' ≤ u := le_of_contains hu' (contains_iff.mpr (by
    rw [heq, hone, mul_one]
    exact hc))
  have huu : u' = u := Var.eq_of_id_eq (Nat.le_antisymm hle' hle)
  subst huu
  have hc1 : c = 1 := by rw [← mul_one c, ← hone, ← heq, hone', hone]
  exact ext_coefficient fun v => by rw [heq, hc1, one_mul]

/-- The row of a single variable. -/
def single (v : Var) : Row where
  coefficients := ⟨[(v, 1)], List.pairwise_singleton _ _⟩
  ne_zero e he := by
    rw [List.mem_singleton.mp he]
    exact one_ne_zero

@[simp] theorem entries_single (v : Var) : (single v).entries = [(v, 1)] := rfl

theorem contains_single {u v : Var} : (single v).contains u = true ↔ u = v := by
  rw [← mem_vars_iff]
  exact List.mem_singleton

theorem normal_single (v : Var) : (single v).Normal := ⟨v, [], rfl⟩

section Value

variable {M : Type} [AddCommGroup M] [Module ℚ M]

@[simp] theorem eval_single (σ : Var → M) (v : Var) : (single v).eval σ = σ v := by
  rw [eval_eq_sum]
  simp

/-- A normal row takes every value. -/
theorem Normal.exists_eval {r : Row} (h : r.Normal) (x : M) : ∃ σ : Var → M, r.eval σ = x := by
  obtain ⟨u, l, hu⟩ := h
  refine ⟨Function.update 0 u x, ?_⟩
  rw [eval_update, coefficient_of_entries hu, eval_zero]
  simp

end Value

/-- If one normal row stays within a set that contains no line wherever another one has a given
value, the two rows are equal. -/
theorem Normal.eq_of_level_set {r r' : Row} (h : r.Normal) (h' : r'.Normal) {x : ℚ} {P : ℚ → Prop}
    (hP : ∀ a b : ℚ, b ≠ 0 → ∃ t : ℚ, ¬ P (a + t * b))
    (hlevel : ∀ σ : Var → ℚ, r.eval σ = x → P (r'.eval σ)) : r' = r := by
  obtain ⟨σ, hσ⟩ := h.exists_eval x
  obtain ⟨u, l, hu⟩ := h
  have hone := coefficient_of_entries hu
  refine Normal.eq_of_smul ⟨u, l, hu⟩ h' (c := r'.coefficient u) fun v => ?_
  by_cases hv : v = u
  · rw [hv, hone, mul_one]
  by_contra hne
  obtain ⟨t, ht⟩ := hP (r'.eval σ) (r'.coefficient v - r'.coefficient u * r.coefficient v)
    (sub_ne_zero.mpr hne)
  -- Along this line the first row keeps its value.
  let τ := Function.update (Function.update σ v (σ v + t)) u (σ u - t * r.coefficient v)
  have huv : u ≠ v := fun h => hv h.symm
  have heval : ∀ q : Row, q.eval τ =
      q.eval σ + t * (q.coefficient v - q.coefficient u * r.coefficient v) := by
    intro q
    rw [eval_update, eval_update, Function.update_of_ne huv]
    simp only [smul_eq_mul]
    ring
  refine ht ?_
  rw [← heval r']
  refine hlevel τ ?_
  rw [heval r, hσ, hone]
  ring

end Row

namespace Theory

/-! ## Combinations -/

/-- The term and the definition of a variable. -/
def content? (s : Theory) (v : Var) : Option (Term × Option Row) :=
  (s.infos.get? v.id).map content

/-- The combination that a variable stands for. -/
def formOf (s : Theory) (v : Var) : Row := (s.definition? v).getD (.single v)

/-- The term of a variable. -/
def leafOf (s : Theory) (v : Var) : Term := ((s.content? v).map Prod.fst).getD default

/-- The value of a variable when `ρ` gives the values of the leaves. -/
noncomputable def interpret (s : Theory) (ρ : Term → ℚ) (v : Var) : ℚ :=
  (s.formOf v).eval fun u => ρ (s.leafOf u)

/-- The values of the leaves that a valuation of the variables gives. -/
def reading (s : Theory) (σ : Var → ℚ) (leaf : Term) : ℚ := ((s.varOf? leaf).map σ).getD 0

/-- Leaves and slack variables are found under their terms and definitions, and definitions are
normal and have several entries. -/
structure Named (s : Theory) : Prop where
  leaves : ∀ t v, s.varOf? t = some v ↔ s.content? v = some (t, none)
  slacks : ∀ r v, s.slacks.lookup r = some v ↔ ∃ t, s.content? v = some (t, some r)
  leaf : ∀ t v, s.content? v = some (t, none) → t.IsLeaf
  listed : ∀ e ∈ s.leaves, e.2.id < s.infos.size
  normal : ∀ t r v, s.content? v = some (t, some r) → r.Normal ∧ 2 ≤ r.entries.length

theorem definition?_eq_content? (s : Theory) (v : Var) :
    s.definition? v = (s.content? v).bind Prod.snd := by
  rw [definition?_eq, content?, Option.bind_map]
  rfl

theorem isLeaf_iff {s : Theory} {v : Var} :
    s.IsLeaf v ↔ ∃ t, s.content? v = some (t, none) := by
  unfold IsLeaf content?
  constructor
  · rintro ⟨i, hi, hd⟩
    exact ⟨i.term, by rw [hi]; exact congrArg some (Prod.ext rfl hd)⟩
  · rintro ⟨t, ht⟩
    obtain ⟨i, hi, hit⟩ := Option.map_eq_some_iff.mp ht
    exact ⟨i, hi, (Prod.mk.inj hit).2⟩

/-- A leaf stays one where the contents of all variables are kept. -/
theorem IsLeaf.of_contents {s s' : Theory} {v : Var} (hv : s.IsLeaf v)
    (h : ∀ v p, s.content? v = some p → s'.content? v = some p) : s'.IsLeaf v := by
  obtain ⟨t, ht⟩ := isLeaf_iff.mp hv
  exact isLeaf_iff.mpr ⟨t, h v _ ht⟩

theorem definitions_of_contents {s s' : Theory}
    (h : ∀ v p, s.content? v = some p → s'.content? v = some p) (v : Var) (r : Row)
    (hr : s.definition? v = some r) : s'.definition? v = some r := by
  rw [definition?_eq_content?] at hr ⊢
  obtain ⟨p, hp, hpr⟩ := Option.bind_eq_some_iff.mp hr
  rw [h v p hp]
  exact hpr

theorem lt_of_content? {s : Theory} {v : Var} {p : Term × Option Row}
    (h : s.content? v = some p) : v.id < s.infos.size := by
  obtain ⟨i, hi, _⟩ := Option.map_eq_some_iff.mp h
  exact Arena.lt_size_of_get? hi

theorem exists_content? {s : Theory} {v : Var} (h : v.id < s.infos.size) :
    ∃ p, s.content? v = some p := by
  obtain ⟨i, hi⟩ := Arena.get?_isSome h
  exact ⟨content i, by rw [content?, hi]; rfl⟩

theorem Rearranged.content? {s s' : Theory} (h : Rearranged s s') : s'.content? = s.content? :=
  funext fun v => h.infos v.id

theorem leafOf_of_content? {s : Theory} {v : Var} {p : Term × Option Row}
    (h : s.content? v = some p) : s.leafOf v = p.1 := by
  rw [leafOf, h]
  rfl

theorem formOf_of_leaf {s : Theory} {v : Var} (h : s.IsLeaf v) : s.formOf v = .single v := by
  obtain ⟨t, ht⟩ := isLeaf_iff.mp h
  rw [formOf, definition?_eq_content?, ht]
  rfl

theorem formOf_of_definition {s : Theory} {v : Var} {r : Row} (h : s.definition? v = some r) :
    s.formOf v = r := by
  rw [formOf, h]
  rfl

/-- A variable is a leaf or a slack variable. -/
theorem isLeaf_or_definition {s : Theory} {v : Var} (h : v.id < s.infos.size) :
    s.IsLeaf v ∨ ∃ r, s.definition? v = some r := by
  obtain ⟨⟨t, d⟩, hp⟩ := exists_content? h
  cases d with
  | none => exact .inl (isLeaf_iff.mpr ⟨t, hp⟩)
  | some r => exact .inr ⟨r, by rw [definition?_eq_content?, hp]; rfl⟩

/-- Combinations are over leaves. -/
theorem Arranged.isLeaf_of_formOf {s : Theory} (h : s.Arranged) {v u : Var}
    (hv : v.id < s.infos.size) (hu : (s.formOf v).contains u = true) : s.IsLeaf u := by
  rcases isLeaf_or_definition hv with hl | ⟨r, hr⟩
  · rw [formOf_of_leaf hl, Row.contains_single] at hu
    exact hu ▸ hl
  · rw [formOf_of_definition hr] at hu
    exact h.definitions v r hr u hu

theorem Named.reading_leafOf {s : Theory} (h : s.Named) {u : Var} (hu : s.IsLeaf u)
    (σ : Var → ℚ) : s.reading σ (s.leafOf u) = σ u := by
  obtain ⟨t, ht⟩ := isLeaf_iff.mp hu
  rw [reading, leafOf_of_content? ht, (h.leaves t u).mpr ht]
  rfl

/-- A valuation of the leaf variables gives every variable the value of its combination. -/
theorem Named.interpret_reading {s : Theory} (h : s.Named) (ha : s.Arranged) {v : Var}
    (hv : v.id < s.infos.size) (σ : Var → ℚ) :
    s.interpret (s.reading σ) v = (s.formOf v).eval σ :=
  Row.eval_congr fun _ hu => h.reading_leafOf (ha.isLeaf_of_formOf hv hu) σ

/-- A valuation that satisfies the definitions in force gives active variables their values. -/
theorem Named.interpret_of_defined {s : Theory} (h : s.Named) (ha : s.Arranged) {σ : Var → ℚ}
    (hσ : s.Defined σ) {v : Var} (hv : s.Active v) : s.interpret (s.reading σ) v = σ v := by
  rw [h.interpret_reading ha hv.lt]
  obtain ⟨i, hi, hd⟩ := hv
  cases hdef : i.definition with
  | none => rw [formOf_of_leaf ⟨i, hi, hdef⟩, Row.eval_single]
  | some r =>
    have hr : s.definition? v = some r := by
      rw [definition?_eq, hi]
      exact hdef
    rw [formOf_of_definition hr, hσ v i r hi hdef (hd.resolve_left (by simp [hdef]))]

theorem Named.normal_formOf {s : Theory} (h : s.Named) {v : Var} (hv : v.id < s.infos.size) :
    (s.formOf v).Normal := by
  obtain ⟨⟨t, d⟩, hp⟩ := exists_content? hv
  cases d with
  | none => exact formOf_of_leaf (isLeaf_iff.mpr ⟨t, hp⟩) ▸ Row.normal_single v
  | some r =>
    rw [formOf_of_definition (r := r) (by rw [definition?_eq_content?, hp]; rfl)]
    exact (h.normal t r v hp).1

/-- Every variable takes every value. -/
theorem Named.exists_interpret {s : Theory} (h : s.Named) (ha : s.Arranged) {v : Var}
    (hv : v.id < s.infos.size) (q : ℚ) : ∃ ρ, s.interpret ρ v = q := by
  obtain ⟨σ, hσ⟩ := (h.normal_formOf hv).exists_eval q
  exact ⟨s.reading σ, by rw [h.interpret_reading ha hv, hσ]⟩

/-- Variables with the same combination are equal. -/
theorem Named.eq_of_formOf_eq {s : Theory} (h : s.Named) {v w : Var} (hv : v.id < s.infos.size)
    (hw : w.id < s.infos.size) (heq : s.formOf w = s.formOf v) : w = v := by
  obtain ⟨⟨t, d⟩, hp⟩ := exists_content? hv
  obtain ⟨⟨t', d'⟩, hp'⟩ := exists_content? hw
  have hform : ∀ {u : Var} {p : Term} {o : Option Row}, s.content? u = some (p, o) →
      s.formOf u = o.getD (.single u) := by
    intro u p o hu
    rw [formOf, definition?_eq_content?, hu]
    rfl
  rw [hform hp, hform hp'] at heq
  cases d with
  | none =>
    cases d' with
    | none =>
      have hentries := congrArg Row.entries heq
      simp only [Option.getD_none, Row.entries_single, List.cons.injEq, Prod.mk.injEq] at hentries
      exact hentries.1.1
    | some r' =>
      have hlen := (h.normal t' r' w hp').2
      simp only [Option.getD_none, Option.getD_some] at heq
      rw [heq] at hlen
      simp at hlen
  | some r =>
    cases d' with
    | none =>
      have hlen := (h.normal t r v hp).2
      simp only [Option.getD_none, Option.getD_some] at heq
      rw [← heq] at hlen
      simp at hlen
    | some r' =>
      have hrr : r' = r := heq
      have hr := (h.slacks r v).mpr ⟨t, hp⟩
      have hr' := (h.slacks r' w).mpr ⟨t', hp'⟩
      rw [hrr, hr] at hr'
      exact (Option.some.inj hr').symm

/-- A variable that stays within a set without lines wherever another one has a given value is
that one. -/
theorem Named.eq_of_level_set {s : Theory} (h : s.Named) (ha : s.Arranged) {v w : Var}
    (hv : v.id < s.infos.size) (hw : w.id < s.infos.size) {x : ℚ} {P : ℚ → Prop}
    (hP : ∀ a b : ℚ, b ≠ 0 → ∃ t : ℚ, ¬ P (a + t * b))
    (hlevel : ∀ ρ, s.interpret ρ v = x → P (s.interpret ρ w)) : w = v := by
  refine h.eq_of_formOf_eq hv hw ?_
  refine (h.normal_formOf hv).eq_of_level_set (h.normal_formOf hw) (x := x) hP fun σ hσ => ?_
  rw [← h.interpret_reading ha hw]
  exact hlevel _ (by rw [h.interpret_reading ha hv, hσ])

/-! ## More variables -/

/-- The second theory has got further variables, and nothing else that the names or the search
are about has changed. -/
structure Widened (s s' : Theory) : Prop where
  options : s'.options = s.options
  contents : ∀ v p, s.content? v = some p → s'.content? v = some p
  constantAtoms : s'.constantAtoms = s.constantAtoms
  database : s'.database = s.database
  pending : s'.pending = s.pending
  processed : s'.processed = s.processed
  disequalities : s'.disequalities = s.disequalities
  propagations : s'.propagations = s.propagations
  trail : s'.simplex.model.trail = s.simplex.model.trail
  bounds : s'.simplex.model.boundOf = s.simplex.model.boundOf
  lemmas : s'.simplex.lemmas = s.simplex.lemmas

theorem Widened.refl (s : Theory) : Widened s s :=
  ⟨rfl, fun _ _ => id, rfl, rfl, rfl, rfl, rfl, rfl, rfl, rfl, rfl⟩

theorem Widened.trans {s₁ s₂ s₃ : Theory} (h : Widened s₁ s₂) (k : Widened s₂ s₃) :
    Widened s₁ s₃ where
  options := k.options.trans h.options
  contents v p hp := k.contents v p (h.contents v p hp)
  constantAtoms := k.constantAtoms.trans h.constantAtoms
  database := k.database.trans h.database
  pending := k.pending.trans h.pending
  processed := k.processed.trans h.processed
  disequalities := k.disequalities.trans h.disequalities
  propagations := k.propagations.trans h.propagations
  trail := k.trail.trans h.trail
  bounds := k.bounds.trans h.bounds
  lemmas := k.lemmas.trans h.lemmas

theorem Widened.isLeaf {s s' : Theory} (h : Widened s s') {v : Var} (hv : s.IsLeaf v) :
    s'.IsLeaf v := by
  obtain ⟨t, ht⟩ := isLeaf_iff.mp hv
  exact isLeaf_iff.mpr ⟨t, h.contents v _ ht⟩

theorem Rearranged.widened {s s' : Theory} (h : Rearranged s s') : Widened s s' where
  options := h.options
  contents v p hp := by rw [h.content?]; exact hp
  constantAtoms := h.constantAtoms
  database := h.database
  pending := h.pending
  processed := h.processed
  disequalities := h.disequalities
  propagations := h.propagations
  trail := h.trail
  bounds := h.bounds
  lemmas := h.lemmas

theorem Rearranged.named {s s' : Theory} (h : Rearranged s s') (hs : s.Named) : s'.Named where
  leaves t v := by rw [varOf?, h.leaves, h.content?]; exact hs.leaves t v
  slacks r v := by rw [h.slacks, h.content?]; exact hs.slacks r v
  leaf t v := by rw [h.content?]; exact hs.leaf t v
  listed e he := by
    rw [h.leaves] at he
    rw [h.size]
    exact hs.listed e he
  normal t r v := by rw [h.content?]; exact hs.normal t r v

section Contents

variable {s s' : Theory} (h : ∀ v p, s.content? v = some p → s'.content? v = some p)

include h

theorem lt_of_contents {v : Var} (hv : v.id < s.infos.size) : v.id < s'.infos.size := by
  obtain ⟨p, hp⟩ := exists_content? hv
  exact lt_of_content? (h v p hp)

theorem formOf_of_contents {v : Var} (hv : v.id < s.infos.size) : s'.formOf v = s.formOf v := by
  obtain ⟨p, hp⟩ := exists_content? hv
  rw [formOf, formOf, definition?_eq_content?, definition?_eq_content?, hp, h v p hp]

/-- Old variables keep their meaning. -/
theorem interpret_of_contents (ha : s.Arranged) {v : Var} (hv : v.id < s.infos.size)
    (ρ : Term → ℚ) : s'.interpret ρ v = s.interpret ρ v := by
  rw [interpret, interpret, formOf_of_contents h hv]
  refine Row.eval_congr fun u hu => ?_
  obtain ⟨t, ht⟩ := isLeaf_iff.mp (ha.isLeaf_of_formOf hv hu)
  rw [leafOf_of_content? ht, leafOf_of_content? (h u _ ht)]

end Contents

end Theory

end LinearArithmetic
