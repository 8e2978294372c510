import LinearArithmetic.Proofs.Basis

/-!
# Putting rows back

A row that was set aside can be put back as long as nothing else says anything of its variable. So a
row that mentions another variable whose row is set aside stands in the way of that one, and the
order counts: the rows go back in exactly those orders in which every row mentions only variables
that are back already. A row mentions no variable whose row was set aside before, and the order from
the last to the first that was set aside always works. The order by increasing variable does not.
-/

namespace LinearArithmetic.Tableau

variable {t t' : Tableau} {b : Var} {r : Row}

/-! ## One row -/

theorem isEjected_iff {v : Var} : t.isEjected v = true ↔ ∃ r, t.ejected.get? v = some r :=
  SortedMap.contains_iff_exists

/-- Of a variable that the tableau does not mention an expanded definition keeps the coefficient. -/
theorem coefficient_expand {u : Var} (hu : ¬ t.Mentions u) (r : Row) :
    (t.expand r.entries).coefficient u = r.coefficient u := by
  have hsolves : t.Solves (Pi.single u (1 : ℚ)) := by
    intro w s hs
    have hw : w ≠ u := by
      rintro rfl
      exact hu (.inl ⟨s, hs⟩)
    have hzero : s.coefficient u = 0 := by
      by_contra hne
      exact hu (.inr ⟨w, s, hs, Row.contains_iff.mpr hne⟩)
    rw [Row.eval_pi_single, hzero, Pi.single_eq_of_ne hw]
  rw [← Row.eval_pi_single, ← Row.eval_pi_single, eval_expand hsolves, Row.eval_eq_sum]

theorem contains_expand_iff {u : Var} (hu : ¬ t.Mentions u) (r : Row) :
    (t.expand r.entries).contains u = true ↔ r.contains u = true := by
  rw [Row.contains_iff, Row.contains_iff, coefficient_expand hu]

/-- A variable without a row stands in no row if its column is empty. -/
theorem Consistent.not_mentions_iff (h : t.Consistent) {v : Var} :
    ¬ t.Mentions v ↔ t.row? v = none ∧ t.columnSize v = 0 := by
  have hcolumn : t.columnSize v = 0 ↔ ∀ w s, t.row? w = some s → ¬ s.contains v = true := by
    refine SortedMap.size_eq_zero_iff.trans ⟨fun hnone w s hs hv => ?_, fun hnone w huse => ?_⟩
    · exact hnone w (h.uses_iff.mpr ⟨s, hs, hv⟩)
    · obtain ⟨s, hs, hv⟩ := h.uses_iff.mp huse
      exact hnone w s hs hv
  rw [hcolumn, Mentions, not_or, not_exists, Option.eq_none_iff_forall_ne_some]
  simp only [not_exists, not_and]

/-- A row can be put back exactly if the tableau says nothing of its variable, and neither does the
row. -/
theorem Consistent.reinject_iff (h : t.Consistent) (hr : t.ejected.get? b = some r) :
    (∃ t', t.reinject b = .ok t') ↔ ¬ t.Mentions b ∧ r.contains b = false := by
  have hallows : t.allows (.reinject b) = true ↔ ¬ t.Mentions b ∧ r.contains b = false := by
    have hej : ({ t with ejected := t.ejected.erase b } : Tableau).isEjected b = false := by
      simp [isEjected, SortedMap.contains]
    rw [allows, hr, Option.any_some, canDefine_iff, and_iff_right hej, ← and_assoc]
    refine (and_congr_left' h.not_mentions_iff.symm).trans (and_congr_right fun hfree => ?_)
    rw [← Bool.not_eq_true, ← Bool.not_eq_true]
    exact not_congr (contains_expand_iff hfree r)
  rw [← hallows]
  constructor
  · rintro ⟨t', hok⟩
    exact allows_of_step hok
  · intro hok
    obtain ⟨t', hstep, -⟩ := h.step hok
    exact ⟨t', hstep⟩

/-- The tableau after a row that was set aside has been put back. -/
structure Reinjected (b : Var) (r : Row) (t t' : Tableau) : Prop where
  free : ¬ t.Mentions b
  consistent : t'.Consistent
  ejected : t'.ejected = t.ejected.erase b
  row : ∀ u, t'.row? u = if u = b then some (t.expand r.entries) else t.row? u
  solves_iff : ∀ (M : Type) [AddCommGroup M] [Module ℚ M] (σ : Var → M),
    t'.Solves σ ↔ t.Solves σ ∧ σ b = r.eval σ

theorem Consistent.reinjected (h : t.Consistent) (hr : t.ejected.get? b = some r)
    (hok : t.reinject b = .ok t') : Reinjected b r t t' := by
  have hfree := ((h.reinject_iff hr).mp ⟨t', hok⟩).1
  rw [reinject, hr] at hok
  obtain ⟨hcons, hrewritten, hsolves⟩ := (h.withEjected (t.ejected.erase b)).defined hok
  refine ⟨hfree, hcons, hrewritten.ejected.trans ?_, fun u => ?_, fun M _ _ σ => ?_⟩
  · exact roomFor_induction (P := fun u => u.ejected = t.ejected.erase b) rfl fun _ _ hu => hu
  · rw [hrewritten.row, row?_roomFor]
    rfl
  · rw [hsolves M σ, Row.eval_eq_sum]
    rfl

theorem Reinjected.mentions_iff (h : Reinjected b r t t') {u : Var} (hu : u ≠ b) :
    t'.Mentions u ↔ t.Mentions u ∨ r.contains u = true := by
  by_cases hold : t.Mentions u
  · refine iff_of_true ?_ (.inl hold)
    rcases hold with ⟨s, hs⟩ | ⟨w, s, hs, hus⟩
    · exact .inl ⟨s, by rw [h.row, if_neg hu, hs]⟩
    · have hw : w ≠ b := by
        rintro rfl
        exact h.free (.inl ⟨s, hs⟩)
      exact .inr ⟨w, s, by rw [h.row, if_neg hw, hs], hus⟩
  · rw [or_iff_right hold, ← contains_expand_iff hold]
    constructor
    · rintro (⟨s, hs⟩ | ⟨w, s, hs, hus⟩)
      · rw [h.row, if_neg hu] at hs
        exact absurd (.inl ⟨s, hs⟩) hold
      · rw [h.row] at hs
        split at hs
        · rwa [Option.some.inj hs]
        · exact absurd (.inr ⟨w, s, hs, hus⟩) hold
    · intro hnew
      exact .inr ⟨b, _, by rw [h.row, if_pos rfl], hnew⟩

/-! ## Several rows -/

/-- No row set aside for a variable of the list mentions this variable or one later in the list. -/
structure Layered (t : Tableau) (l : List Var) : Prop where
  self : ∀ v ∈ l, ∀ r, t.ejected.get? v = some r → r.contains v = false
  later : l.Pairwise fun v u => ∀ r, t.ejected.get? v = some r → r.contains u = false

/-- The tableau after the rows set aside for the variables of a list have been put back. -/
structure Restocked (l : List Var) (t t' : Tableau) : Prop where
  consistent : t'.Consistent
  ejected : ∀ v, t'.ejected.get? v = if v ∈ l then none else t.ejected.get? v
  basic_iff : ∀ v, (∃ r, t'.row? v = some r) ↔ (∃ r, t.row? v = some r) ∨ v ∈ l
  solves_iff : ∀ (M : Type) [AddCommGroup M] [Module ℚ M] (σ : Var → M), t'.Solves σ ↔
    t.Solves σ ∧ ∀ v ∈ l, ∀ r, t.ejected.get? v = some r → σ v = r.eval σ

theorem Reinjected.layered_iff {l : List Var} (h : Reinjected b r t t')
    (hr : t.ejected.get? b = some r) (hb : b ∉ l) :
    t.Layered (b :: l) ↔
      r.contains b = false ∧ (∀ u ∈ l, r.contains u = false) ∧ t'.Layered l := by
  have hsame : ∀ v ∈ l, t'.ejected.get? v = t.ejected.get? v := by
    intro v hv
    rw [h.ejected, SortedMap.get?_erase, if_neg (by rintro rfl; exact hb hv)]
  have hlater : (l.Pairwise fun v u => ∀ s, t'.ejected.get? v = some s → s.contains u = false) ↔
      l.Pairwise fun v u => ∀ s, t.ejected.get? v = some s → s.contains u = false :=
    List.Pairwise.iff_of_mem fun {v _} hv _ => by rw [hsame v hv]
  constructor
  · rintro ⟨hself, hpairs⟩
    obtain ⟨hhead, htail⟩ := List.pairwise_cons.mp hpairs
    refine ⟨hself b List.mem_cons_self r hr, fun u hu => hhead u hu r hr, ?_, hlater.mpr htail⟩
    intro v hv
    rw [hsame v hv]
    exact hself v (List.mem_cons_of_mem b hv)
  · rintro ⟨hown, hhead, hself, htail⟩
    refine ⟨List.forall_mem_cons.mpr ⟨fun s hs => ?_, fun v hv => ?_⟩,
      List.pairwise_cons.mpr ⟨fun u hu s hs => ?_, hlater.mp htail⟩⟩
    · rw [← Option.some.inj (hr.symm.trans hs)]
      exact hown
    · rw [← hsame v hv]
      exact hself v hv
    · rw [← Option.some.inj (hr.symm.trans hs)]
      exact hhead u hu

/-- Rows can be put back in an order exactly if the tableau says nothing of their variables and
every row is over variables that come before in that order, or whose rows are not set aside. -/
theorem Consistent.run_reinject_iff {l : List Var} (h : t.Consistent) (hl : l.Nodup)
    (hej : ∀ v ∈ l, t.isEjected v = true) :
    (∃ t', t.run (l.map .reinject) = .ok t') ↔ (∀ v ∈ l, ¬ t.Mentions v) ∧ t.Layered l := by
  induction l generalizing t with
  | nil => exact iff_of_true ⟨t, rfl⟩ ⟨by simp, by simp, .nil⟩
  | cons b l ih =>
    obtain ⟨hb, hl⟩ := List.nodup_cons.mp hl
    obtain ⟨r, hr⟩ := isEjected_iff.mp (hej b List.mem_cons_self)
    -- what is left to be put back once the first row is
    have hrest : ∀ t₁, t.reinject b = .ok t₁ →
        ((∃ t', t₁.run (l.map .reinject) = .ok t') ↔
          (∀ u ∈ l, ¬ t.Mentions u) ∧ (∀ u ∈ l, r.contains u = false) ∧ t₁.Layered l) := by
      intro t₁ hok
      have h₁ := h.reinjected hr hok
      have hne : ∀ u ∈ l, u ≠ b := by
        rintro u hu rfl
        exact hb hu
      have hej₁ : ∀ u ∈ l, t₁.isEjected u = true := by
        intro u hu
        rw [isEjected_iff, h₁.ejected, SortedMap.get?_erase, if_neg (hne u hu)]
        exact isEjected_iff.mp (hej u (List.mem_cons_of_mem b hu))
      rw [ih h₁.consistent hl hej₁, ← and_assoc, ← forall₂_and]
      refine and_congr_left' (forall₂_congr fun u hu => ?_)
      rw [h₁.mentions_iff (hne u hu), not_or, Bool.not_eq_true]
    constructor
    · rintro ⟨t', hrun⟩
      obtain ⟨t₁, hok, hrun⟩ := bind_eq_ok.mp hrun
      obtain ⟨hfree, hself⟩ := (h.reinject_iff hr).mp ⟨t₁, hok⟩
      obtain ⟨hmentions, hhead, hlayers⟩ := (hrest t₁ hok).mp ⟨t', hrun⟩
      exact ⟨List.forall_mem_cons.mpr ⟨hfree, hmentions⟩,
        ((h.reinjected hr hok).layered_iff hr hb).mpr ⟨hself, hhead, hlayers⟩⟩
    · rintro ⟨hmentions, hlayers⟩
      obtain ⟨hfree, hmentions⟩ := List.forall_mem_cons.mp hmentions
      obtain ⟨t₁, hok⟩ := (h.reinject_iff hr).mpr ⟨hfree, hlayers.self b List.mem_cons_self r hr⟩
      obtain ⟨-, hhead, hlayers⟩ := ((h.reinjected hr hok).layered_iff hr hb).mp hlayers
      obtain ⟨t', hrun⟩ := (hrest t₁ hok).mpr ⟨hmentions, hhead, hlayers⟩
      exact ⟨t', bind_eq_ok.mpr ⟨t₁, hok, hrun⟩⟩

theorem Consistent.restocked {l : List Var} (h : t.Consistent) (hl : l.Nodup)
    (hej : ∀ v ∈ l, t.isEjected v = true) (hok : t.run (l.map .reinject) = .ok t') :
    Restocked l t t' := by
  induction l generalizing t with
  | nil =>
    obtain rfl := Except.ok.inj hok
    exact ⟨h, by simp, by simp, by simp⟩
  | cons b l ih =>
    obtain ⟨hb, hl⟩ := List.nodup_cons.mp hl
    obtain ⟨r, hr⟩ := isEjected_iff.mp (hej b List.mem_cons_self)
    obtain ⟨t₁, hstep, hok⟩ := bind_eq_ok.mp hok
    have h₁ := h.reinjected hr hstep
    have hsame : ∀ u ∈ l, t₁.ejected.get? u = t.ejected.get? u := by
      intro u hu
      rw [h₁.ejected, SortedMap.get?_erase, if_neg (by rintro rfl; exact hb hu)]
    have h₂ := ih h₁.consistent hl (fun u hu => by
      rw [isEjected_iff, hsame u hu]
      exact isEjected_iff.mp (hej u (List.mem_cons_of_mem b hu))) hok
    refine ⟨h₂.consistent, fun v => ?_, fun v => ?_, fun M _ _ σ => ?_⟩
    · rw [h₂.ejected, h₁.ejected, SortedMap.get?_erase]
      by_cases hv : v ∈ l <;> by_cases hvb : v = b <;> simp [hv, hvb]
    · rw [h₂.basic_iff, h₁.row, List.mem_cons]
      by_cases hvb : v = b <;> simp [hvb]
    · have hrest : (∀ v ∈ l, ∀ s, t₁.ejected.get? v = some s → σ v = s.eval σ) ↔
          ∀ v ∈ l, ∀ s, t.ejected.get? v = some s → σ v = s.eval σ :=
        forall₂_congr fun v hv => by rw [hsame v hv]
      rw [h₂.solves_iff M σ, h₁.solves_iff M σ, hrest, List.forall_mem_cons, hr, and_assoc]
      simp

/-! ## All rows -/

/-- The tableau says nothing of the variables whose rows are set aside. -/
def Apart (t : Tableau) : Prop := ∀ v, t.isEjected v = true → ¬ t.Mentions v

/-- Of the variables whose rows are set aside, these rows mention smaller ones than their own. -/
def Ascending (t : Tableau) : Prop :=
  ∀ v r, t.ejected.get? v = some r → ∀ u, r.contains u = true → t.isEjected u = true → u < v

/-- The tableau after all rows that were set aside have been put back. -/
structure Reunited (t t' : Tableau) : Prop where
  ejected : t'.ejected = ∅
  isBasic : ∀ v, t'.isBasic v = (t.isBasic v || t.isEjected v)
  solves_iff : ∀ σ : Var → ℚ, t'.Solves σ ↔
    t.Solves σ ∧ ∀ v r, t.ejected.get? v = some r → σ v = r.eval σ

theorem Restocked.reunited {l : List Var} (h : Restocked l t t')
    (hl : ∀ v, v ∈ l ↔ t.isEjected v = true) : Reunited t t' where
  ejected := by
    refine SortedMap.ext_get? fun v => ?_
    rw [h.ejected, SortedMap.get?_empty, ite_eq_left_iff, hl, Bool.not_eq_true]
    exact Option.isSome_eq_false_iff.trans Option.isNone_iff_eq_none |>.mp
  isBasic v := by
    rw [Bool.eq_iff_iff, Bool.or_eq_true, isBasic_iff, isBasic_iff, h.basic_iff, hl]
  solves_iff σ := by
    rw [h.solves_iff ℚ σ]
    refine and_congr_right fun _ => forall_congr' fun v => ?_
    rw [hl]
    exact ⟨fun hv r hr => hv (isEjected_iff.mpr ⟨r, hr⟩) r hr, fun hv _ => hv⟩

theorem mem_ejected_keys {v : Var} : v ∈ t.ejected.keys ↔ t.isEjected v = true :=
  SortedMap.mem_keys_iff

/-- By increasing variable, the rows mention only variables that come before exactly if they
mention only smaller ones. -/
theorem layered_keys_iff : t.Layered t.ejected.keys ↔ t.Ascending := by
  constructor
  · rintro ⟨hself, hlater⟩ v r hr u hu hej
    have hv : v ∈ t.ejected.keys := mem_ejected_keys.mpr (isEjected_iff.mpr ⟨r, hr⟩)
    -- whatever the order of the two in the list, a smaller variable comes first
    have hpair : ∀ v ∈ t.ejected.keys, ∀ u ∈ t.ejected.keys, v < u →
        ∀ r, t.ejected.get? v = some r → r.contains u = false := by
      refine List.Pairwise.forall_of_forall_of_flip (fun _ _ hlt => absurd hlt Std.lt_irrefl) ?_ ?_
      · refine hlater.imp ?_
        intro v u hno _
        exact hno
      · exact t.ejected.sorted_keys.imp fun hlt hgt => absurd (Std.lt_trans hlt hgt) Std.lt_irrefl
    rcases Std.lt_trichotomy u v with hlt | rfl | hgt
    · exact hlt
    · rw [hself u hv r hr] at hu
      cases hu
    · rw [hpair v hv u (mem_ejected_keys.mpr hej) hgt r hr] at hu
      cases hu
  · intro hasc
    have hno : ∀ v ∈ t.ejected.keys, ∀ u ∈ t.ejected.keys, ¬ u < v →
        ∀ r, t.ejected.get? v = some r → r.contains u = false := by
      intro v _ u hu hlt r hr
      rw [← Bool.not_eq_true]
      exact fun hin => hlt (hasc v r hr u hin (mem_ejected_keys.mp hu))
    refine ⟨fun v hv => hno v hv v hv Std.lt_irrefl, t.ejected.sorted_keys.imp_of_mem ?_⟩
    exact fun hv hu hlt => hno _ hv _ hu fun hgt => Std.lt_irrefl (Std.lt_trans hlt hgt)

/-- All rows can be put back by increasing variable exactly if the tableau says nothing of their
variables and they mention only smaller ones of them. -/
theorem Consistent.reinjectAll_iff (h : t.Consistent) :
    (∃ t', t.reinjectAll = .ok t') ↔ t.Apart ∧ t.Ascending := by
  rw [reinjectAll_eq_run, h.run_reinject_iff t.ejected.nodup_keys fun v => mem_ejected_keys.mp,
    layered_keys_iff]
  exact and_congr_left' (forall_congr' fun v => by rw [mem_ejected_keys])

theorem Consistent.reunited (h : t.Consistent) (hok : t.reinjectAll = .ok t') :
    Reunited t t' := by
  rw [reinjectAll_eq_run] at hok
  exact (h.restocked t.ejected.nodup_keys (fun v => mem_ejected_keys.mp) hok).reunited
    fun v => mem_ejected_keys

/-! ## The order of the ejections -/

/-- The variables whose rows are set aside, the last one first, after one more operation. -/
def noteEjection (l : List Var) : Operation → List Var
  | .eject v => v :: l
  | .reinject v => l.erase v
  | .clear => []
  | _ => l

/-- The variables whose rows are set aside after a sequence of operations, the last one first. -/
def newestFirst (ops : List Operation) : List Var := ops.foldl noteEjection []

/-- A row mentions no variable whose row is set aside. -/
def sparesRow (t : Tableau) (r : Row) : Bool := r.vars.all fun v => !t.isEjected v

/-- The operation puts in no row that mentions a variable whose row is set aside. -/
def spares (t : Tableau) : Operation → Bool
  | .addRow _ coefficients vars => t.sparesRow (t.expand (vars.zip coefficients))
  | .reinject basic => (t.ejected.get? basic).all fun r => t.sparesRow (t.expand r.entries)
  | _ => true

/-- No operation of a sequence puts in a row that mentions a variable whose row is set aside. -/
def sparesAll (t : Tableau) : List Operation → Bool
  | [] => true
  | op :: ops => t.spares op &&
    match t.step op with
    | .ok t => t.sparesAll ops
    | .error _ => true

theorem sparesRow_iff :
    t.sparesRow r = true ↔ ∀ v, t.isEjected v = true → r.contains v = false := by
  rw [sparesRow, List.all_eq_true]
  refine forall_congr' fun v => ?_
  rw [Row.mem_vars_iff]
  cases r.contains v <;> simp

/-- Rows that are set aside mention no variable whose row was set aside before, and neither does the
tableau. -/
structure Stacked (t : Tableau) (l : List Var) : Prop where
  consistent : t.Consistent
  apart : t.Apart
  nodup : l.Nodup
  mem_iff : ∀ v, v ∈ l ↔ t.isEjected v = true
  layered : t.Layered l

namespace Stacked

variable {l : List Var}

/-- Operations on other rows that bring in no variable whose row is set aside. -/
theorem of_mentions (h : Stacked t l) (hcons : t'.Consistent) (hejected : t'.ejected = t.ejected)
    (hmentions : ∀ v, t.isEjected v = true → t'.Mentions v → t.Mentions v) : Stacked t' l where
  consistent := hcons
  apart v hv hin := by
    have hv : t.isEjected v = true := by rwa [isEjected, hejected] at hv
    exact h.apart v hv (hmentions v hv hin)
  nodup := h.nodup
  mem_iff v := by
    rw [isEjected, hejected]
    exact h.mem_iff v
  layered := by
    obtain ⟨hself, hlater⟩ := h.layered
    constructor <;> rwa [hejected]

theorem addRow (h : Stacked t l) {definition : List (Var × ℚ)}
    (hok : t.addRow b definition = .ok t')
    (hspares : t.sparesRow (t.expand definition) = true) : Stacked t' l := by
  obtain ⟨-, hej, -⟩ := canDefine_iff.mp (canDefine_of_addRow hok)
  obtain ⟨hcons, hrewritten, -⟩ := h.consistent.defined hok
  refine h.of_mentions hcons (hrewritten.ejected.trans ?_) fun v hv hin => ?_
  · exact roomFor_induction (P := fun u => u.ejected = t.ejected) rfl fun _ _ hu => hu
  · have hvb : v ≠ b := by
      rintro rfl
      rw [hej] at hv
      cases hv
    rcases hin with ⟨s, hs⟩ | ⟨w, s, hs, hvs⟩
    · rw [hrewritten.row_of_ne hvb, row?_roomFor] at hs
      exact .inl ⟨s, hs⟩
    · rcases hrewritten.cases_row hs with ⟨-, ho⟩ | ⟨-, hs⟩
      · rw [← Option.some.inj ho, sparesRow_iff.mp hspares v hv] at hvs
        cases hvs
      · rw [row?_roomFor] at hs
        exact .inr ⟨w, s, hs, hvs⟩

theorem eject (h : Stacked t l) (hok : t.eject b = .ok t') : Stacked t' (b :: l) := by
  obtain ⟨⟨t₁, r⟩, hun, hok⟩ := bind_eq_ok.mp hok
  obtain rfl := Except.ok.inj hok
  have hr := row?_of_uninstall hun
  obtain ⟨hcons, hout⟩ := h.consistent.uninstalled hun
  have hget : ∀ v, (t₁.ejected.insert b r).get? v = if v = b then some r else t.ejected.get? v := by
    intro v
    rw [SortedMap.get?_insert, hout.ejected]
  have hb : b ∉ l := fun hmem => h.apart b ((h.mem_iff b).mp hmem) (.inl ⟨r, hr⟩)
  have hmem : ∀ v, v ∈ b :: l ↔
      ({ t₁ with ejected := t₁.ejected.insert b r } : Tableau).isEjected v = true := by
    intro v
    rw [List.mem_cons, h.mem_iff, isEjected_iff, isEjected_iff]
    simp only [hget]
    by_cases hv : v = b <;> simp [hv]
  have hold : ∀ v ∈ l, (t₁.ejected.insert b r).get? v = t.ejected.get? v := by
    intro v hv
    rw [hget, if_neg (by rintro rfl; exact hb hv)]
  refine ⟨hcons.withEjected _, fun v hv hin => ?_, List.nodup_cons.mpr ⟨hb, h.nodup⟩, hmem, ?_, ?_⟩
  · rcases List.mem_cons.mp ((hmem v).mpr hv) with rfl | hv
    · exact hout.not_mentions h.consistent hr hin
    · exact h.apart v ((h.mem_iff v).mp hv) (hout.mentions hin)
  · refine List.forall_mem_cons.mpr ⟨fun s hs => ?_, fun v hv => ?_⟩
    · rw [hget, if_pos rfl] at hs
      rw [← Option.some.inj hs, ← Bool.not_eq_true]
      intro hself
      rw [h.consistent.nonbasic hr hself] at hr
      cases hr
    · simp only [hold v hv]
      exact h.layered.self v hv
  · refine List.pairwise_cons.mpr ⟨fun u hu s hs => ?_, ?_⟩
    · rw [hget, if_pos rfl] at hs
      rw [← Option.some.inj hs, ← Bool.not_eq_true]
      exact fun hin => h.apart u ((h.mem_iff u).mp hu) (.inr ⟨b, r, hr, hin⟩)
    · exact h.layered.later.imp_of_mem fun hv _ => by simp only [hold _ hv, imp_self]

theorem reinject (h : Stacked t l) (hok : t.reinject b = .ok t')
    (hspares : t.spares (.reinject b) = true) : Stacked t' (l.erase b) := by
  have hallows : t.allows (.reinject b) = true := allows_of_step hok
  rw [allows, Option.any_eq_true] at hallows
  obtain ⟨r, hr, -⟩ := hallows
  rw [spares, hr, Option.all_some, sparesRow_iff] at hspares
  have h₁ := h.consistent.reinjected hr hok
  have hmem : ∀ v, v ∈ l.erase b ↔ t'.isEjected v = true := by
    intro v
    rw [h.nodup.mem_erase_iff, h.mem_iff, isEjected_iff, isEjected_iff, h₁.ejected,
      SortedMap.get?_erase]
    by_cases hv : v = b <;> simp [hv]
  have hold : ∀ v ∈ l.erase b, t'.ejected.get? v = t.ejected.get? v := by
    intro v hv
    rw [h₁.ejected, SortedMap.get?_erase, if_neg (h.nodup.mem_erase_iff.mp hv).1]
  refine ⟨h₁.consistent, fun v hv hin => ?_, h.nodup.erase b, hmem, fun v hv => ?_, ?_⟩
  · obtain ⟨hvb, hvl⟩ := h.nodup.mem_erase_iff.mp ((hmem v).mpr hv)
    have hej := (h.mem_iff v).mp hvl
    rcases (h₁.mentions_iff hvb).mp hin with hin | hin
    · exact h.apart v hej hin
    · rw [← contains_expand_iff (h.apart v hej), hspares v hej] at hin
      cases hin
  · rw [hold v hv]
    exact h.layered.self v (List.mem_of_mem_erase hv)
  · refine (h.layered.later.sublist List.erase_sublist).imp_of_mem fun hv _ => ?_
    simp only [hold _ hv, imp_self]

theorem step (h : Stacked t l) {op : Operation} (hspares : t.spares op = true)
    (hok : t.step op = .ok t') : Stacked t' (noteEjection l op) := by
  cases op with
  | ensure v =>
    obtain rfl := Except.ok.inj hok
    refine h.of_mentions (consistent_ensure h.consistent v) rfl fun u _ hu => ?_
    simpa only [Mentions, row?_ensure] using hu
  | addRow basic cs vs =>
    simp only [Tableau.step, addRowOf] at hok
    split at hok
    · exact h.addRow hok hspares
    · cases hok
  | pivot basic entering =>
    have hpivoted := h.consistent.pivoted hok
    exact h.of_mentions hpivoted.consistent hpivoted.ejected fun v _ => hpivoted.mentions v
  | eject basic => exact h.eject hok
  | reinject basic => exact h.reinject hok hspares
  | removeRow basic =>
    obtain ⟨⟨t₁, r⟩, hun, hok⟩ := bind_eq_ok.mp hok
    obtain rfl := Except.ok.inj hok
    obtain ⟨hcons, hout⟩ := h.consistent.uninstalled hun
    exact h.of_mentions hcons hout.ejected fun v _ => hout.mentions
  | clear =>
    obtain rfl := Except.ok.inj hok
    have hnone : ∀ v, t.clear.isEjected v = false := fun _ => rfl
    refine ⟨consistent_clear t, fun v hv => ?_, .nil, fun v => ?_, by simp [noteEjection], .nil⟩
    · rw [hnone] at hv
      cases hv
    · rw [hnone]
      simp [noteEjection]

theorem run {ops : List Operation} (h : Stacked t l) (hspares : t.sparesAll ops = true)
    (hok : t.run ops = .ok t') : Stacked t' (ops.foldl noteEjection l) := by
  induction ops generalizing t l with
  | nil =>
    obtain rfl := Except.ok.inj hok
    exact h
  | cons op ops ih =>
    obtain ⟨t₁, hstep, hok⟩ := bind_eq_ok.mp hok
    rw [sparesAll, hstep, Bool.and_eq_true] at hspares
    exact ih (h.step hspares.1 hstep) hspares.2 hok

end Stacked

theorem stacked_start (debugChecks : Bool) :
    Stacked ({ debugChecks := debugChecks } : Tableau) [] where
  consistent := consistent_start debugChecks
  apart v hv := by cases hv
  nodup := .nil
  mem_iff v := by
    constructor
    · intro hv
      cases hv
    · intro hv
      cases hv
  layered := ⟨by simp, .nil⟩

/-- Rows go back from the last to the first that was set aside. -/
theorem Stacked.exists_reunited {l : List Var} (h : Stacked t l) :
    ∃ t', t.run (l.map .reinject) = .ok t' ∧ Reunited t t' := by
  have hej : ∀ v ∈ l, t.isEjected v = true := fun v => (h.mem_iff v).mp
  obtain ⟨t', hok⟩ := (h.consistent.run_reinject_iff h.nodup hej).mpr
    ⟨fun v hv => h.apart v (hej v hv), h.layered⟩
  exact ⟨t', hok, (h.consistent.restocked h.nodup hej hok).reunited h.mem_iff⟩

/-- Of any run of a tableau, all rows that were set aside can be put back by increasing variable
exactly if the tableau says nothing of their variables and they mention only smaller ones of them;
then the equations of these rows are added, and nothing else. If no row that was put in mentions a
variable whose row was set aside at that time, the tableau says nothing of these variables, and the
rows can be put back from the last to the first that was set aside. -/
theorem reunited_of_run {debugChecks : Bool} {ops : List Operation}
    (hrun : ({ debugChecks := debugChecks } : Tableau).run ops = .ok t) :
    ((∃ t', t.reinjectAll = .ok t') ↔ t.Apart ∧ t.Ascending) ∧
      (∀ t', t.reinjectAll = .ok t' → Reunited t t') ∧
      (({ debugChecks := debugChecks } : Tableau).sparesAll ops = true →
        t.Apart ∧ ∃ t', t.run ((newestFirst ops).map .reinject) = .ok t' ∧ Reunited t t') := by
  have hallows := allowsAll_of_run hrun
  obtain ⟨t₁, hrun₁, hcons⟩ := (consistent_start debugChecks).run hallows
  obtain rfl : t₁ = t := Except.ok.inj (hrun₁.symm.trans hrun)
  refine ⟨hcons.reinjectAll_iff, fun t' => hcons.reunited, fun hspares => ?_⟩
  have hstacked := (stacked_start debugChecks).run hspares hrun
  exact ⟨hstacked.apart, hstacked.exists_reunited⟩

/-- The row of `v2` is set aside, then that of `v1`, which it mentions, and last that of `v4`. -/
def nested : List Operation :=
  [.addRow ⟨2⟩ [1, 2] [⟨0⟩, ⟨1⟩], .addRow ⟨3⟩ [1, -1] [⟨0⟩, ⟨1⟩], .eject ⟨2⟩, .pivot ⟨3⟩ ⟨1⟩,
    .addRow ⟨4⟩ [1, 1] [⟨1⟩, ⟨3⟩], .eject ⟨1⟩, .eject ⟨4⟩]

/-- The rows go back by increasing variable, and from the last to the first. -/
theorem reunited_of_nested : ∃ t, ({ debugChecks := true } : Tableau).run nested = .ok t ∧
    t.ejected.keys = [⟨1⟩, ⟨2⟩, ⟨4⟩] ∧ t.Apart ∧ (∃ t', t.reinjectAll = .ok t' ∧ Reunited t t') ∧
    ∃ t', t.run [.reinject ⟨4⟩, .reinject ⟨1⟩, .reinject ⟨2⟩] = .ok t' ∧ Reunited t t' := by
  have h : (({ debugChecks := true } : Tableau).run nested >>= fun t => t.reinjectAll >>= fun _ =>
      Except.ok (t.ejected.keys, ({ debugChecks := true } : Tableau).sparesAll nested)) =
      .ok ([⟨1⟩, ⟨2⟩, ⟨4⟩], true) := by decide +kernel
  obtain ⟨t, hrun, h⟩ := bind_eq_ok.mp h
  obtain ⟨t', hok, h⟩ := bind_eq_ok.mp h
  simp only [Except.ok.injEq, Prod.mk.injEq] at h
  obtain ⟨hkeys, hspares⟩ := h
  obtain ⟨-, heffect, horder⟩ := reunited_of_run hrun
  obtain ⟨hapart, hback⟩ := horder hspares
  exact ⟨t, hrun, hkeys, hapart, ⟨t', hok, heffect t' hok⟩, hback⟩

/-- The row of `v0` is set aside, then that of `v1`, which it mentions. -/
def entangled : List Operation :=
  [.addRow ⟨0⟩ [1, 1] [⟨1⟩, ⟨2⟩], .addRow ⟨3⟩ [1, -1] [⟨1⟩, ⟨2⟩], .eject ⟨0⟩, .pivot ⟨3⟩ ⟨1⟩,
    .eject ⟨1⟩]

/-- By increasing variable the rows cannot be put back: once the row of `v0` is, it mentions `v1`,
whose row is still set aside. -/
theorem blocked_of_entangled : ∃ t, ({} : Tableau).run entangled = .ok t ∧
    t.reinjectAll = .error (.usedInRow ⟨1⟩) ∧
    ∃ t', t.reinject ⟨0⟩ = .ok t' ∧ t'.isEjected ⟨1⟩ = true ∧ t'.column ⟨1⟩ = [⟨0⟩] := by
  have h : (({} : Tableau).run entangled >>= fun t => t.reinject ⟨0⟩ >>= fun t' =>
      Except.ok (t.reinjectAll, t'.isEjected ⟨1⟩, t'.column ⟨1⟩)) =
      .ok (.error (.usedInRow ⟨1⟩), true, [⟨0⟩]) := by decide +kernel
  obtain ⟨t, hrun, h⟩ := bind_eq_ok.mp h
  obtain ⟨t', hok, h⟩ := bind_eq_ok.mp h
  simp only [Except.ok.injEq, Prod.mk.injEq] at h
  obtain ⟨hblocked, hejected, hcolumn⟩ := h
  exact ⟨t, hrun, hblocked, t', hok, hejected, hcolumn⟩

end LinearArithmetic.Tableau
