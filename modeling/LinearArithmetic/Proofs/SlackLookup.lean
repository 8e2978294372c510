import LinearArithmetic.Proofs.Acceptance
import LinearArithmetic.Proofs.Basis

/-!
# Looking up slack variables

A combination of leaves is looked up by sorting its entries by variable and dividing by the first
coefficient. Entries of the same leaf are not added up, and zeros are not left out. So a slack
variable is found for exactly those combinations that describe a multiple of its definition with
each leaf once and without zeros, in any order. Where the first coefficient is zero, the division
fails.
-/

namespace LinearArithmetic

namespace Row

theorem eq_of_entries {r r' : Row} (h : r.entries = r'.entries) : r = r' := by
  rw [← r.ofList_entries, h, r'.ofList_entries]

theorem entries_scale {q : ℚ} (hq : q ≠ 0) (r : Row) :
    (r.scale q).entries = r.entries.map fun e => (e.1, e.2 * q) := by
  rw [scale, dif_neg hq]
  rfl

/-- Entries that are sorted, one for each variable and without zeros, are those of a row. -/
theorem exists_entries_eq {l : List (Var × ℚ)} (hsorted : l.Pairwise fun a b => a.1 ≤ b.1)
    (hnodup : (l.map Prod.fst).Nodup) (hne : ∀ e ∈ l, e.2 ≠ 0) : ∃ r : Row, r.entries = l := by
  have hstrict : l.Pairwise fun a b => a.1 < b.1 :=
    (hsorted.and (List.pairwise_map.mp hnodup)).imp fun h =>
      Nat.lt_of_le_of_ne h.1 fun heq => h.2 (Var.eq_of_id_eq heq)
  exact ⟨⟨⟨l, hstrict⟩, hne⟩, rfl⟩

end Row

namespace Theory

/-! ## Sorting by variable -/

theorem perm_insertByVar (e : Var × ℚ) (l : List (Var × ℚ)) : (insertByVar e l).Perm (e :: l) := by
  induction l with
  | nil => exact .refl _
  | cons d l ih =>
    rw [insertByVar]
    split
    · exact (ih.cons d).trans (.swap e d l)
    · exact .refl _

theorem perm_sortByVar (l : List (Var × ℚ)) : (sortByVar l).Perm l := by
  have hfold : ∀ acc : List (Var × ℚ),
      (l.foldl (fun sorted e => insertByVar e sorted) acc).Perm (l ++ acc) := by
    induction l with
    | nil => exact fun acc => .refl _
    | cons e l ih =>
      intro acc
      refine (ih (insertByVar e acc)).trans ?_
      exact ((perm_insertByVar e acc).append_left l).trans List.perm_middle
  have h := hfold []
  rwa [List.append_nil] at h

theorem sorted_insertByVar (e : Var × ℚ) {l : List (Var × ℚ)}
    (h : l.Pairwise fun a b => a.1 ≤ b.1) : (insertByVar e l).Pairwise fun a b => a.1 ≤ b.1 := by
  induction l with
  | nil => exact List.pairwise_singleton _ _
  | cons d l ih =>
    obtain ⟨hd, hl⟩ := List.pairwise_cons.mp h
    rw [insertByVar]
    split
    · rename_i hde
      refine List.pairwise_cons.mpr ⟨fun b hb => ?_, ih hl⟩
      rcases List.mem_cons.mp ((perm_insertByVar e l).mem_iff.mp hb) with rfl | hb
      · exact hde
      · exact hd b hb
    · rename_i hde
      have hed : e.1 ≤ d.1 := Nat.le_of_not_le hde
      refine List.pairwise_cons.mpr ⟨fun b hb => ?_, h⟩
      rcases List.mem_cons.mp hb with rfl | hb
      · exact hed
      · exact Nat.le_trans hed (hd b hb)

theorem sorted_sortByVar (l : List (Var × ℚ)) :
    (sortByVar l).Pairwise fun a b => a.1 ≤ b.1 := by
  have hfold : ∀ acc : List (Var × ℚ), (acc.Pairwise fun a b => a.1 ≤ b.1) →
      (l.foldl (fun sorted e => insertByVar e sorted) acc).Pairwise fun a b => a.1 ≤ b.1 := by
    induction l with
    | nil => exact fun acc h => h
    | cons e l ih => exact fun acc h => ih _ (sorted_insertByVar e h)
  exact hfold [] .nil

/-- The entry comes first when the entries are sorted. -/
def ComesFirst (e : Var × ℚ) (l : List (Var × ℚ)) : Prop :=
  ∃ before after, l = before ++ e :: after ∧ (∀ d ∈ before, e.1 < d.1) ∧ ∀ d ∈ after, e.1 ≤ d.1

theorem exists_comesFirst {l : List (Var × ℚ)} (h : l ≠ []) : ∃ e, ComesFirst e l := by
  induction l with
  | nil => exact absurd rfl h
  | cons d l ih =>
    by_cases hl : l = []
    · exact ⟨d, [], l, rfl, nofun, fun e he => by rw [hl] at he; cases he⟩
    obtain ⟨e, before, after, rfl, hbefore, hafter⟩ := ih hl
    by_cases hde : d.1 ≤ e.1
    · refine ⟨d, [], _, rfl, nofun, fun f hf => ?_⟩
      rcases List.mem_append.mp hf with hf | hf
      · exact Nat.le_trans hde (Nat.le_of_lt (hbefore f hf))
      · rcases List.mem_cons.mp hf with rfl | hf
        · exact hde
        · exact Nat.le_trans hde (hafter f hf)
    · exact ⟨e, d :: before, after, rfl,
        List.forall_mem_cons.mpr ⟨Nat.lt_of_not_le hde, hbefore⟩, hafter⟩

/-- Of the entries of the smallest variable the first one stays the first. -/
theorem ComesFirst.head?_sortByVar {e : Var × ℚ} {l : List (Var × ℚ)} (h : ComesFirst e l) :
    (sortByVar l).head? = some e := by
  obtain ⟨before, after, rfl, hbefore, hafter⟩ := h
  have hinsert : insertByVar e (sortByVar before) = e :: sortByVar before := by
    cases hsorted : sortByVar before with
    | nil => rfl
    | cons d sorted =>
      have hd : d ∈ before := (perm_sortByVar before).mem_iff.mp (hsorted ▸ List.mem_cons_self)
      have hnot : ¬ d.1 ≤ e.1 := Nat.not_le_of_lt (hbefore d hd)
      rw [insertByVar, if_neg hnot]
  have hfold : ∀ (after sorted : List (Var × ℚ)), (∀ d ∈ after, e.1 ≤ d.1) →
      (after.foldl (fun sorted e => insertByVar e sorted) (e :: sorted)).head? = some e := by
    intro after
    induction after with
    | nil => exact fun _ _ => rfl
    | cons d after ih =>
      intro sorted h
      obtain ⟨hd, h⟩ := List.forall_mem_cons.mp h
      rw [List.foldl_cons, insertByVar, if_pos hd]
      exact ih _ h
  rw [sortByVar, List.foldl_append, List.foldl_cons]
  change (after.foldl _ (insertByVar e (sortByVar before))).head? = some e
  rw [hinsert]
  exact hfold after _ hafter

theorem head?_sortByVar_eq_some_iff {e : Var × ℚ} {l : List (Var × ℚ)} :
    (sortByVar l).head? = some e ↔ ComesFirst e l := by
  refine ⟨fun h => ?_, ComesFirst.head?_sortByVar⟩
  have hne : l ≠ [] := by
    rintro rfl
    cases h
  obtain ⟨e', he'⟩ := exists_comesFirst hne
  rw [he'.head?_sortByVar, Option.some.injEq] at h
  exact h ▸ he'

/-! ## Combinations of leaves -/

/-- Each leaf stands once in the combination, with a coefficient other than zero. -/
def Reduced (combination : List (Term × ℚ)) : Prop :=
  (combination.map Prod.fst).Nodup ∧ ∀ e ∈ combination, e.2 ≠ 0

/-- The variable is a slack variable that stands for the combination, up to a factor. -/
def StandsFor (s : Theory) (v : Var) (combination : List (Term × ℚ)) : Prop :=
  s.isSlack v = true ∧ ∃ k : ℚ, k ≠ 0 ∧
    ∀ ρ : Term → ℚ, (combination.map fun e => e.2 * ρ e.1).sum = k * s.interpret ρ v

/-- All leaves have variables, and of the entries of the leaf with the smallest variable the first
one is zero. -/
def LeadsWithZero (s : Theory) (combination : List (Term × ℚ)) : Prop :=
  ∃ before leaf after v, combination = before ++ (leaf, 0) :: after ∧ s.varOf? leaf = some v ∧
    (∀ e ∈ before, ∃ w, s.varOf? e.1 = some w ∧ v < w) ∧
      ∀ e ∈ after, ∃ w, s.varOf? e.1 = some w ∧ v ≤ w

/-- The variables of the leaves, with their coefficients. -/
def varsOf? (s : Theory) (combination : List (Term × ℚ)) : Option (List (Var × ℚ)) :=
  combination.mapM fun (leaf, c) => (s.varOf? leaf).map (·, c)

theorem slackOf?_of_varsOf? {s : Theory} {combination : List (Term × ℚ)}
    {entries : List (Var × ℚ)} (h : s.varsOf? combination = some entries) :
    s.slackOf? combination =
      match sortByVar entries with
      | [] => .ok none
      | (v, lead) :: rest =>
        if lead = 0 then .error .divisionByZero
        else .ok ((s.slacks.find? fun (r, _) =>
          r.entries = ((v, lead) :: rest).map fun e => (e.1, e.2 / lead)).map Prod.snd) := by
  rw [slackOf?]
  split
  · rename_i hnone
    cases hnone.symm.trans h
  · rename_i hsome
    obtain rfl := Option.some.inj (hsome.symm.trans h)
    rfl

theorem slackOf?_of_varsOf?_eq_none {s : Theory} {combination : List (Term × ℚ)}
    (h : s.varsOf? combination = none) : s.slackOf? combination = .ok none := by
  rw [varsOf?] at h
  rw [slackOf?, h]

theorem LeadsWithZero.owns {s : Theory} {combination : List (Term × ℚ)}
    (h : s.LeadsWithZero combination) : ∀ e ∈ combination, s.owns e.1 = true := by
  obtain ⟨before, leaf, after, v, rfl, hv, hbefore, hafter⟩ := h
  have howns : ∀ {t : Term} {w : Var}, s.varOf? t = some w → s.owns t = true := fun ht => by
    rw [Theory.owns, ht]
    rfl
  refine List.forall_mem_append.mpr ⟨fun e he => ?_, List.forall_mem_cons.mpr ⟨howns hv,
    fun e he => ?_⟩⟩
  · obtain ⟨w, hw, -⟩ := hbefore e he
    exact howns hw
  · obtain ⟨w, hw, -⟩ := hafter e he
    exact howns hw

theorem Named.varOf?_eq_some_iff {s : Theory} (h : s.Named) {t : Term} {v : Var} :
    s.varOf? t = some v ↔ s.IsLeaf v ∧ s.leafOf v = t := by
  rw [h.leaves, isLeaf_iff]
  constructor
  · intro ht
    exact ⟨⟨t, ht⟩, leafOf_of_content? ht⟩
  · rintro ⟨⟨t', ht'⟩, rfl⟩
    rwa [leafOf_of_content? ht']

theorem varsOf?_cons (s : Theory) (e : Term × ℚ) (combination : List (Term × ℚ)) :
    s.varsOf? (e :: combination) =
      (s.varOf? e.1).bind fun v => (s.varsOf? combination).map ((v, e.2) :: ·) := by
  obtain ⟨leaf, c⟩ := e
  rw [varsOf?, varsOf?, List.mapM_cons]
  dsimp only
  cases s.varOf? leaf with
  | none => rfl
  | some v => exact (Option.map_eq_bind).symm

/-- The leaves have variables, and these have the coefficients. -/
theorem Named.varsOf?_eq_some_iff {s : Theory} (h : s.Named) {combination : List (Term × ℚ)}
    {entries : List (Var × ℚ)} : s.varsOf? combination = some entries ↔
      combination = entries.map (fun e => (s.leafOf e.1, e.2)) ∧ ∀ e ∈ entries, s.IsLeaf e.1 := by
  induction combination generalizing entries with
  | nil =>
    rw [varsOf?, List.mapM_nil]
    constructor
    · rintro ⟨⟩
      exact ⟨rfl, nofun⟩
    · rintro ⟨hnil, -⟩
      rw [List.map_eq_nil_iff.mp hnil.symm]
      rfl
  | cons e combination ih =>
    rw [varsOf?_cons, Option.bind_eq_some_iff]
    constructor
    · rintro ⟨v, hv, hrest⟩
      obtain ⟨entries', hentries, rfl⟩ := Option.map_eq_some_iff.mp hrest
      obtain ⟨hleaf, hterm⟩ := h.varOf?_eq_some_iff.mp hv
      obtain ⟨rfl, hall⟩ := ih.mp hentries
      refine ⟨?_, List.forall_mem_cons.mpr ⟨hleaf, hall⟩⟩
      rw [List.map_cons, hterm]
    · rintro ⟨hmap, hall⟩
      obtain ⟨d, entries', rfl, rfl, rfl⟩ := List.map_eq_cons_iff.mp hmap.symm
      obtain ⟨hd, hall⟩ := List.forall_mem_cons.mp hall
      exact ⟨d.1, h.varOf?_eq_some_iff.mpr ⟨hd, rfl⟩, by rw [ih.mpr ⟨rfl, hall⟩]; rfl⟩

theorem exists_varsOf? {s : Theory} {combination : List (Term × ℚ)}
    (h : ∀ e ∈ combination, s.owns e.1 = true) :
    ∃ entries, s.varsOf? combination = some entries := by
  induction combination with
  | nil => exact ⟨[], rfl⟩
  | cons e combination ih =>
    obtain ⟨he, h⟩ := List.forall_mem_cons.mp h
    obtain ⟨entries, hentries⟩ := ih h
    obtain ⟨v, hv⟩ := Option.isSome_iff_exists.mp he
    exact ⟨(v, e.2) :: entries, by rw [varsOf?_cons, hv, hentries]; rfl⟩

/-- Finding a row by its entries is looking it up. -/
theorem find?_entries (slacks : List (Row × Var)) (r : Row) :
    (slacks.find? fun (r', _) => r'.entries = r.entries).map Prod.snd = slacks.lookup r := by
  induction slacks with
  | nil => rfl
  | cons e slacks ih =>
    obtain ⟨r', v⟩ := e
    rw [List.find?_cons, List.lookup_cons]
    by_cases hr : r' = r
    · simp [hr]
    · have hentries : r'.entries ≠ r.entries := fun h => hr (Row.eq_of_entries h)
      have hbeq : (r == r') = false := beq_eq_false_iff_ne.mpr fun h => hr h.symm
      simpa [hentries, hbeq] using ih

section Named

variable {s : Theory} (h : s.Named) {combination : List (Term × ℚ)} {entries : List (Var × ℚ)}
  (hvars : s.varsOf? combination = some entries)

include h hvars

/-- The combination has the value of its sorted entries. -/
theorem Named.sum_sortByVar (ρ : Term → ℚ) : (combination.map fun e => e.2 * ρ e.1).sum =
    ((sortByVar entries).map fun e => e.2 * ρ (s.leafOf e.1)).sum := by
  rw [(h.varsOf?_eq_some_iff.mp hvars).1, List.map_map,
    ((perm_sortByVar entries).map _).sum_eq]
  rfl

theorem Named.reduced_iff : Reduced combination ↔
    ((sortByVar entries).map Prod.fst).Nodup ∧ ∀ e ∈ sortByVar entries, e.2 ≠ 0 := by
  obtain ⟨rfl, hleaf⟩ := h.varsOf?_eq_some_iff.mp hvars
  have hperm := perm_sortByVar entries
  rw [Reduced, (hperm.map Prod.fst).nodup_iff, List.map_map]
  have hfst : (entries.map (Prod.fst ∘ fun e => (s.leafOf e.1, e.2))) =
      (entries.map Prod.fst).map s.leafOf := by
    rw [List.map_map]
    rfl
  rw [hfst]
  refine and_congr ⟨List.Nodup.of_map s.leafOf, fun hnodup => ?_⟩ ?_
  · refine List.Nodup.map_on (fun v hv w hw heq => ?_) hnodup
    obtain ⟨e, he, rfl⟩ := List.mem_map.mp hv
    obtain ⟨f, hf, rfl⟩ := List.mem_map.mp hw
    have hsame := (h.varOf?_eq_some_iff.mpr ⟨hleaf e he, heq⟩).symm.trans
      (h.varOf?_eq_some_iff.mpr ⟨hleaf f hf, rfl⟩)
    exact Option.some.inj hsame
  · simp only [List.forall_mem_map, hperm.mem_iff]

theorem Named.leadsWithZero_iff :
    s.LeadsWithZero combination ↔ ∃ v, ComesFirst (v, 0) entries := by
  obtain ⟨rfl, hleaf⟩ := h.varsOf?_eq_some_iff.mp hvars
  have hvar : ∀ d ∈ entries, s.varOf? (s.leafOf d.1) = some d.1 := fun d hd =>
    h.varOf?_eq_some_iff.mpr ⟨hleaf d hd, rfl⟩
  constructor
  · rintro ⟨before, leaf, after, v, hsplit, hv, hbefore, hafter⟩
    obtain ⟨before', rest, rfl, rfl, hrest⟩ := List.map_eq_append_iff.mp hsplit
    obtain ⟨d, after', rfl, hd, rfl⟩ := List.map_eq_cons_iff.mp hrest
    obtain ⟨rfl, hzero⟩ := Prod.mk.inj hd
    obtain rfl : d.1 = v := Option.some.inj
      ((hvar d (List.mem_append_right _ List.mem_cons_self)).symm.trans hv)
    refine ⟨d.1, before', after', by rw [← hzero], fun f hf => ?_, fun f hf => ?_⟩
    · obtain ⟨w, hw, hlt⟩ := hbefore _ (List.mem_map_of_mem hf)
      obtain rfl := Option.some.inj ((hvar f (List.mem_append_left _ hf)).symm.trans hw)
      exact hlt
    · obtain ⟨w, hw, hle⟩ := hafter _ (List.mem_map_of_mem hf)
      obtain rfl := Option.some.inj
        ((hvar f (List.mem_append_right _ (List.mem_cons_of_mem d hf))).symm.trans hw)
      exact hle
  · rintro ⟨v, before, after, rfl, hbefore, hafter⟩
    refine ⟨before.map fun e => (s.leafOf e.1, e.2), s.leafOf v,
      after.map fun e => (s.leafOf e.1, e.2), v, by rw [List.map_append, List.map_cons],
      hvar (v, 0) (List.mem_append_right _ List.mem_cons_self), ?_, ?_⟩
    · refine List.forall_mem_map.mpr fun f hf => ?_
      exact ⟨f.1, hvar f (List.mem_append_left _ hf), hbefore f hf⟩
    · refine List.forall_mem_map.mpr fun f hf => ?_
      exact ⟨f.1, hvar f (List.mem_append_right _ (List.mem_cons_of_mem _ hf)), hafter f hf⟩

/-- A slack variable is found if the sorted entries are a multiple of its definition. -/
theorem Named.slackOf?_eq_some_iff {v : Var} : s.slackOf? combination = .ok (some v) ↔
    ∃ r k, k ≠ 0 ∧ s.slacks.lookup r = some v ∧
      sortByVar entries = r.entries.map fun e => (e.1, e.2 * k) := by
  rw [slackOf?_of_varsOf? hvars]
  constructor
  · intro hok
    cases hsorted : sortByVar entries with
    | nil =>
      rw [hsorted] at hok
      cases hok
    | cons d rest =>
      obtain ⟨u, lead⟩ := d
      rw [hsorted] at hok
      dsimp only at hok
      by_cases hlead : lead = 0
      · rw [if_pos hlead] at hok
        cases hok
      rw [if_neg hlead, Except.ok.injEq] at hok
      obtain ⟨⟨r, w⟩, hfind, -⟩ := Option.map_eq_some_iff.mp hok
      have hr : r.entries = ((u, lead) :: rest).map fun e => (e.1, e.2 / lead) := by
        simpa only [decide_eq_true_eq] using List.find?_some hfind
      rw [← hr, find?_entries] at hok
      refine ⟨r, lead, hlead, hok, ?_⟩
      rw [hr, List.map_map]
      refine (List.map_id _).symm.trans (List.map_congr_left fun e _ => ?_)
      exact Prod.ext rfl (div_mul_cancel₀ e.2 hlead).symm
  · rintro ⟨r, k, hk, hlookup, hsorted⟩
    obtain ⟨t, ht⟩ := (h.slacks r v).mp hlookup
    obtain ⟨⟨u, l, hr⟩, -⟩ := h.normal t r v ht
    have hkey : (sortByVar entries).map (fun e => (e.1, e.2 / k)) = r.entries := by
      rw [hsorted, List.map_map]
      refine (List.map_congr_left fun e _ => ?_).trans (List.map_id _)
      exact Prod.ext rfl (mul_div_cancel_right₀ e.2 hk)
    rw [hr, List.map_cons, one_mul] at hsorted
    rw [hsorted] at hkey ⊢
    dsimp only
    rw [if_neg hk, hkey, find?_entries, hlookup]

/-- The look-up fails exactly if the first entry is zero. -/
theorem Named.slackOf?_eq_error_iff {f : Fault} : s.slackOf? combination = .error f ↔
    f = .divisionByZero ∧ s.LeadsWithZero combination := by
  rw [slackOf?_of_varsOf? hvars, h.leadsWithZero_iff hvars]
  simp only [← head?_sortByVar_eq_some_iff]
  cases sortByVar entries with
  | nil => simp
  | cons d rest =>
    obtain ⟨u, lead⟩ := d
    dsimp only
    split
    · rename_i hlead
      simp [hlead, eq_comm]
    · rename_i hlead
      simp [hlead]

end Named

/-! ## Multiples of definitions -/

theorem isSlack_iff {s : Theory} {v : Var} :
    s.isSlack v = true ↔ ∃ r, s.definition? v = some r := Option.isSome_iff_exists

/-- A slack variable is found under its definition. -/
theorem Named.lookup_iff {s : Theory} (h : s.Named) {r : Row} {v : Var} :
    s.slacks.lookup r = some v ↔ s.definition? v = some r := by
  rw [h.slacks, definition?_eq_content?]
  constructor
  · rintro ⟨t, ht⟩
    rw [ht]
    rfl
  · intro hr
    obtain ⟨⟨t, d⟩, ht, rfl⟩ := Option.bind_eq_some_iff.mp hr
    exact ⟨t, ht⟩

section Sane

variable {s : Theory} (hs : s.Sane) {combination : List (Term × ℚ)}

include hs

/-- The leaves of a combination that a slack variable stands for have variables. -/
theorem Sane.owns_of_standsFor (hreduced : Reduced combination) {v : Var}
    (h : s.StandsFor v combination) : ∀ e ∈ combination, s.owns e.1 = true := by
  obtain ⟨hslack, k, hk, hsum⟩ := h
  obtain ⟨r, hr⟩ := isSlack_iff.mp hslack
  obtain ⟨t, ht⟩ := (hs.named.slacks r v).mp (hs.named.lookup_iff.mpr hr)
  intro e he
  by_contra hu
  rw [Bool.not_eq_true] at hu
  have hupdate := hsum (Function.update 0 e.1 1)
  rw [LinearSum.sum_update_of_mem hreduced.1 he, hsum,
    hs.interpret_update hu (lt_of_content? ht)] at hupdate
  refine hreduced.2 e he ?_
  simpa using hupdate

/-- The sorted entries of a combination are a multiple of a definition exactly if the combination is
reduced and the slack variable with this definition stands for it. -/
theorem Sane.standsFor_iff {entries : List (Var × ℚ)}
    (hvars : s.varsOf? combination = some entries) {v : Var} :
    (∃ r k, k ≠ 0 ∧ s.slacks.lookup r = some v ∧
        sortByVar entries = r.entries.map fun e => (e.1, e.2 * k)) ↔
      Reduced combination ∧ s.StandsFor v combination := by
  have hn := hs.named
  constructor
  · rintro ⟨r, k, hk, hlookup, hsorted⟩
    have hr := hn.lookup_iff.mp hlookup
    refine ⟨(hn.reduced_iff hvars).mpr ?_, isSlack_iff.mpr ⟨r, hr⟩, k, hk, fun ρ => ?_⟩
    · rw [hsorted, List.map_map]
      refine ⟨r.nodup_vars, List.forall_mem_map.mpr fun e he => ?_⟩
      exact mul_ne_zero (r.ne_zero e he) hk
    · rw [hn.sum_sortByVar hvars, hsorted, List.map_map, interpret, formOf_of_definition hr,
        Row.eval_eq_sum, ← List.sum_map_mul_left]
      refine congrArg List.sum (List.map_congr_left fun e _ => ?_)
      simp only [Function.comp_apply, smul_eq_mul]
      ring
  · rintro ⟨hreduced, hslack, k, hk, hsum⟩
    obtain ⟨r, hr⟩ := isSlack_iff.mp hslack
    have hlookup := hn.lookup_iff.mpr hr
    obtain ⟨t, ht⟩ := (hn.slacks r v).mp hlookup
    obtain ⟨hnodup, hne⟩ := (hn.reduced_iff hvars).mp hreduced
    obtain ⟨q, hq⟩ := Row.exists_entries_eq (sorted_sortByVar entries) hnodup hne
    refine ⟨r, k, hk, hlookup, ?_⟩
    -- rows are told apart by their values, and every valuation belongs to one of the leaves
    have hscale : q = r.scale k := by
      refine Row.eq_of_eval fun σ => ?_
      have hleaf : ∀ e ∈ sortByVar entries, s.reading σ (s.leafOf e.1) = σ e.1 := fun e he =>
        hn.reading_leafOf ((hn.varsOf?_eq_some_iff.mp hvars).2 e
          ((perm_sortByVar entries).mem_iff.mp he)) σ
      calc q.eval σ = ((sortByVar entries).map fun e => e.2 * σ e.1).sum := by
            rw [Row.eval_eq_sum, hq]
            rfl
        _ = ((sortByVar entries).map fun e => e.2 * s.reading σ (s.leafOf e.1)).sum :=
            congrArg List.sum (List.map_congr_left fun e he => by rw [hleaf e he])
        _ = k * s.interpret (s.reading σ) v := by rw [← hn.sum_sortByVar hvars, hsum]
        _ = (r.scale k).eval σ := by
            rw [hn.interpret_reading hs.framed.toArranged (lt_of_content? ht),
              formOf_of_definition hr, Row.eval_scale, smul_eq_mul]
    rw [← hq, hscale, Row.entries_scale hk]

/-- Leaves without variables are found in no definition. -/
theorem Sane.slackOf?_eq_some_iff {v : Var} : s.slackOf? combination = .ok (some v) ↔
    Reduced combination ∧ s.StandsFor v combination := by
  cases hvars : s.varsOf? combination with
  | some entries => exact (hs.named.slackOf?_eq_some_iff hvars).trans (hs.standsFor_iff hvars)
  | none =>
    refine iff_of_false (fun hok => ?_) fun ⟨hreduced, h⟩ => ?_
    · rw [slackOf?_of_varsOf?_eq_none hvars] at hok
      cases hok
    · obtain ⟨entries, hentries⟩ := exists_varsOf? (hs.owns_of_standsFor hreduced h)
      cases hvars.symm.trans hentries

theorem Sane.slackOf?_eq_error_iff {f : Fault} : s.slackOf? combination = .error f ↔
    f = .divisionByZero ∧ s.LeadsWithZero combination := by
  cases hvars : s.varsOf? combination with
  | some entries => exact hs.named.slackOf?_eq_error_iff hvars
  | none =>
    refine iff_of_false (fun hok => ?_) fun ⟨_, h⟩ => ?_
    · rw [slackOf?_of_varsOf?_eq_none hvars] at hok
      cases hok
    · obtain ⟨entries, hentries⟩ := exists_varsOf? h.owns
      cases hvars.symm.trans hentries

end Sane

/-- A slack variable is found exactly for the reduced combinations that it stands for, up to a
factor. Where the first entry is zero, the look-up ends in a fault, and otherwise nothing is
found. -/
theorem slack_found_of_run {o : Options} {ops : List Operation} {as : List Answer} {s s' : Theory}
    (hrun : (start o).run ops = .ok (s, as)) (hstage : Stage s s')
    (combination : List (Term × ℚ)) :
    (∀ v, s'.slackOf? combination = .ok (some v) ↔
        Reduced combination ∧ s'.StandsFor v combination) ∧
      ∀ f, s'.slackOf? combination = .error f ↔
        f = .divisionByZero ∧ s'.LeadsWithZero combination := by
  have hs := hstage.sane (running_of_run hrun).sane
  exact ⟨fun v => hs.slackOf?_eq_some_iff, fun f => hs.slackOf?_eq_error_iff⟩

/-- The slack variable of `x + y/2` is found for `-y - 2x`. -/
theorem slack_found_of_reversed :
    ∃ s as, (start {}).run [.register (.rel .gt (.sum [.prod [.const 2, .var "x"], .var "y"])
        (.const 3))] = .ok (s, as) ∧
      s.slackOf? [(.var "y", -1), (.var "x", -2)] = .ok (some ⟨2⟩) ∧
        s.StandsFor ⟨2⟩ [(.var "y", -1), (.var "x", -2)] := by
  have h : ((start {}).run [.register (.rel .gt (.sum [.prod [.const 2, .var "x"], .var "y"])
      (.const 3))] >>= fun p => Except.ok (p.1.slackOf? [(.var "y", -1), (.var "x", -2)])) =
      .ok (.ok (some ⟨2⟩)) := by
    decide +kernel
  obtain ⟨⟨s, as⟩, hrun, h⟩ := bind_eq_ok.mp h
  have hfound := Except.ok.inj h
  exact ⟨s, as, hrun, hfound, (((slack_found_of_run hrun .start _).1 ⟨2⟩).mp hfound).2⟩

/-- The slack variable of `y + z` is not found where `y` is repeated, and the look-up ends in a
fault where `x` comes first with the coefficient zero. -/
theorem slack_missed_of_repeated :
    ∃ s as, (start {}).run [.register (.rel .le (.sum [.var "x", .var "y"]) (.const 3)),
        .register (.rel .le (.sum [.var "y", .var "z"]) (.const 3))] = .ok (s, as) ∧
      (s.StandsFor ⟨4⟩ [(.var "y", 1), (.var "y", 1), (.var "z", 2)] ∧
        s.slackOf? [(.var "y", 1), (.var "y", 1), (.var "z", 2)] = .ok none) ∧
      s.StandsFor ⟨4⟩ [(.var "y", 1), (.var "z", 1), (.var "x", 0)] ∧
        s.slackOf? [(.var "y", 1), (.var "z", 1), (.var "x", 0)] = .error .divisionByZero := by
  have h : ((start {}).run [.register (.rel .le (.sum [.var "x", .var "y"]) (.const 3)),
      .register (.rel .le (.sum [.var "y", .var "z"]) (.const 3))] >>= fun p =>
        Except.ok (p.1.slackOf? [(.var "y", 1), (.var "z", 1)],
          p.1.slackOf? [(.var "y", 1), (.var "y", 1), (.var "z", 2)],
          p.1.slackOf? [(.var "y", 1), (.var "z", 1), (.var "x", 0)])) =
      .ok (.ok (some ⟨4⟩), .ok none, .error .divisionByZero) := by
    decide +kernel
  obtain ⟨⟨s, as⟩, hrun, h⟩ := bind_eq_ok.mp h
  simp only [Except.ok.injEq, Prod.mk.injEq] at h
  obtain ⟨hfound, hrepeated, hzero⟩ := h
  obtain ⟨-, hslack, k, hk, hsum⟩ :=
    (running_of_run hrun).sane.slackOf?_eq_some_iff.mp hfound
  refine ⟨s, as, hrun, ⟨⟨hslack, 2 * k, mul_ne_zero two_ne_zero hk, fun ρ => ?_⟩, hrepeated⟩,
    ⟨hslack, k, hk, fun ρ => ?_⟩, hzero⟩
  · rw [mul_assoc, ← hsum]
    simp only [List.map_cons, List.map_nil, List.sum_cons, List.sum_nil]
    ring
  · rw [← hsum]
    simp

end Theory

end LinearArithmetic
