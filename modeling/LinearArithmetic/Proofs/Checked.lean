import LinearArithmetic.Fault
import Mathlib.Tactic.Common

/-!
# Outcomes of operations with preconditions

Two ways to speak of an outcome. `∃ a, x = .ok a ∧ P a` says that there is a result, and that it
has a property. `Checked.Meets E P x` also allows the faults in `E`.
-/

namespace LinearArithmetic

@[simp] theorem ok_bind {ε α β : Type} (a : α) (f : α → Except ε β) :
    (Except.ok a >>= f) = f a := rfl

@[simp] theorem error_bind {ε α β : Type} (e : ε) (f : α → Except ε β) :
    (Except.error e >>= f) = .error e := rfl

@[simp] theorem pure_eq_ok {α : Type} (a : α) : (pure a : Checked α) = .ok a := rfl

@[simp] theorem throw_eq_error {α : Type} (e : Fault) : (throw e : Checked α) = .error e := rfl

@[simp] theorem map_ok {α β : Type} (a : α) (f : α → β) :
    f <$> (Except.ok a : Checked α) = .ok (f a) := rfl

theorem bind_eq_ok {ε α β : Type} {x : Except ε α} {f : α → Except ε β} {b : β} :
    (x >>= f) = .ok b ↔ ∃ a, x = .ok a ∧ f a = .ok b := by
  cases x <;> simp

theorem mapError_ok {ε ε' α : Type} (f : ε → ε') (a : α) :
    (Except.ok a : Except ε α).mapError f = .ok a := rfl

theorem mapError_eq_ok {ε ε' α : Type} {f : ε → ε'} {x : Except ε α} {a : α} :
    x.mapError f = .ok a ↔ x = .ok a := by
  cases x <;> simp [Except.mapError]

/-- Two folds agree if their steps do on all states that the second one can get to. -/
theorem foldlM_congr_of {ε α β : Type} {f g : β → α → Except ε β} {l : List α} (Inv : β → Prop)
    (h : ∀ a ∈ l, ∀ b, Inv b → f b a = g b a)
    (hkeep : ∀ a ∈ l, ∀ b b', Inv b → g b a = .ok b' → Inv b') {b : β} (hb : Inv b) :
    l.foldlM f b = l.foldlM g b := by
  induction l generalizing b with
  | nil => rfl
  | cons a rest ih =>
    rw [List.foldlM_cons, List.foldlM_cons, h a List.mem_cons_self b hb]
    cases hstep : g b a with
    | error e => rfl
    | ok b' =>
      exact ih (fun a ha => h a (List.mem_cons_of_mem _ ha))
        (fun a ha => hkeep a (List.mem_cons_of_mem _ ha)) (hkeep a List.mem_cons_self b b' hb hstep)

theorem foldlM_congr_left {ε α β : Type} {f g : β → α → Except ε β} {l : List α}
    (h : ∀ a ∈ l, ∀ b, f b a = g b a) (b : β) : l.foldlM f b = l.foldlM g b :=
  foldlM_congr_of (fun _ => True) (fun a ha b _ => h a ha b) (fun _ _ _ _ _ _ => trivial) trivial

namespace Checked

variable {α β : Type} {E : Fault → Prop}

/-- The outcome is a result with a property, or a fault that is allowed. -/
def Meets (E : Fault → Prop) (P : α → Prop) : Checked α → Prop
  | .ok a => P a
  | .error f => E f

@[simp] theorem meets_ok {P : α → Prop} {a : α} : Meets E P (.ok a) ↔ P a := Iff.rfl

@[simp] theorem meets_error {P : α → Prop} {f : Fault} : Meets E P (.error f) ↔ E f := Iff.rfl

theorem Meets.bind {P : α → Prop} {Q : β → Prop} {x : Checked α} {f : α → Checked β}
    (hx : Meets E P x) (hf : ∀ a, P a → Meets E Q (f a)) : Meets E Q (x >>= f) := by
  cases x with
  | ok a => exact hf a hx
  | error e => exact hx

theorem Meets.mono {P Q : α → Prop} {x : Checked α} (hx : Meets E P x) (h : ∀ a, P a → Q a) :
    Meets E Q x := by
  cases x with
  | ok a => exact h a hx
  | error e => exact hx

theorem Meets.mono_fault {E' : Fault → Prop} {P : α → Prop} {x : Checked α} (hx : Meets E P x)
    (h : ∀ f, E f → E' f) : Meets E' P x := by
  cases x with
  | ok a => exact hx
  | error f => exact h f hx

theorem Meets.of_exists {P : α → Prop} {x : Checked α} (h : ∃ a, x = .ok a ∧ P a) :
    Meets E P x := by
  obtain ⟨a, rfl, ha⟩ := h
  exact ha

/-- An outcome that is no fault is a result. -/
theorem Meets.exists_ok {P : α → Prop} {x : Checked α} (hx : Meets E P x) (h : ∀ f, ¬ E f) :
    ∃ a, x = .ok a ∧ P a := by
  cases x with
  | ok a => exact ⟨a, rfl, hx⟩
  | error f => exact (h f hx).elim

theorem Meets.of_ok {P : α → Prop} {x : Checked α} {a : α} (hx : Meets E P x) (h : x = .ok a) :
    P a := by
  subst h
  exact hx

/-! ## Folds

The invariant of a fold speaks of the elements that are still to come. -/

theorem meets_foldlM {f : β → α → Checked β} (Inv : List α → β → Prop)
    (h : ∀ a rest b, Inv (a :: rest) b → Meets E (Inv rest) (f b a)) :
    ∀ l b, Inv l b → Meets E (Inv []) (l.foldlM f b) := by
  intro l
  induction l with
  | nil => intro b hb; exact hb
  | cons a rest ih =>
    intro b hb
    rw [List.foldlM_cons]
    exact (h a rest b hb).bind fun b' hb' => ih b' hb'

theorem exists_foldlM {f : β → α → Checked β} (Inv : List α → β → Prop)
    (h : ∀ a rest b, Inv (a :: rest) b → ∃ b', f b a = .ok b' ∧ Inv rest b') :
    ∀ l b, Inv l b → ∃ b', l.foldlM f b = .ok b' ∧ Inv [] b' := by
  intro l
  induction l with
  | nil => intro b hb; exact ⟨b, rfl, hb⟩
  | cons a rest ih =>
    intro b hb
    obtain ⟨b', hstep, hb'⟩ := h a rest b hb
    rw [List.foldlM_cons, hstep]
    exact ih b' hb'

/-- A relation between two states that each step of a fold keeps, where both succeed. -/
theorem related_foldlM {f : β → α → Checked β} {R : β → β → Prop}
    (h : ∀ a b c b' c', R b c → f b a = .ok b' → f c a = .ok c' → R b' c') {l : List α}
    {b c b' c' : β} (hR : R b c) (hb : l.foldlM f b = .ok b') (hc : l.foldlM f c = .ok c') :
    R b' c' := by
  induction l generalizing b c with
  | nil =>
    obtain rfl := Except.ok.inj hb
    obtain rfl := Except.ok.inj hc
    exact hR
  | cons a rest ih =>
    rw [List.foldlM_cons] at hb hc
    obtain ⟨b₁, hb₁, hb⟩ := bind_eq_ok.mp hb
    obtain ⟨c₁, hc₁, hc⟩ := bind_eq_ok.mp hc
    exact ih (h a b c b₁ c₁ hR hb₁ hc₁) hb hc

/-- A change that every step of a fold goes along with can be made before or after the fold. -/
theorem foldlM_map {γ : Type} {G : β → γ} {f : β → α → Checked β} {g : γ → α → Checked γ}
    (h : ∀ b a, g (G b) a = G <$> f b a) (l : List α) (b : β) :
    l.foldlM g (G b) = G <$> l.foldlM f b := by
  induction l generalizing b with
  | nil => rfl
  | cons a rest ih =>
    rw [List.foldlM_cons, List.foldlM_cons, h]
    cases f b a with
    | error e => rfl
    | ok b' => exact ih b'

/-- Where a fold succeeds, each of its steps does. -/
theorem exists_ok_of_foldlM {f : β → α → Checked β} {l : List α} {b b' : β}
    (h : l.foldlM f b = .ok b') : ∀ a ∈ l, ∃ c c', f c a = .ok c' := by
  induction l generalizing b with
  | nil => intro a ha; cases ha
  | cons x rest ih =>
    rw [List.foldlM_cons] at h
    obtain ⟨c, hc, hrest⟩ := bind_eq_ok.mp h
    exact List.forall_mem_cons.mpr ⟨⟨b, c, hc⟩, ih hrest⟩

/-! ## Maps and filters -/

theorem mapM_eq_ok {f : α → Checked β} {g : α → β} {l : List α} (h : ∀ a ∈ l, f a = .ok (g a)) :
    l.mapM f = .ok (l.map g) := by
  induction l with
  | nil => rfl
  | cons a rest ih =>
    rw [List.mapM_cons, h a List.mem_cons_self, ih fun b hb => h b (List.mem_cons_of_mem a hb)]
    rfl

theorem filterMapM_eq_ok {f : α → Checked (Option β)} {g : α → Option β} {l : List α}
    (h : ∀ a ∈ l, f a = .ok (g a)) : l.filterMapM f = .ok (l.filterMap g) := by
  induction l with
  | nil => rfl
  | cons a rest ih =>
    rw [List.filterMapM_cons, h a List.mem_cons_self,
      ih fun b hb => h b (List.mem_cons_of_mem a hb), List.filterMap_cons]
    cases g a <;> rfl

theorem exists_ok_of_filterMapM {f : α → Checked (Option β)} {l : List α} {bs : List β}
    (h : l.filterMapM f = .ok bs) : ∀ a ∈ l, ∃ o, f a = .ok o := by
  induction l generalizing bs with
  | nil => intro a ha; cases ha
  | cons x rest ih =>
    rw [List.filterMapM_cons] at h
    obtain ⟨o, ho, hrest⟩ := bind_eq_ok.mp h
    have hok : ∃ cs, rest.filterMapM f = .ok cs := by
      cases o with
      | none => exact ⟨bs, hrest⟩
      | some b =>
        obtain ⟨cs, hcs, _⟩ := bind_eq_ok.mp hrest
        exact ⟨cs, hcs⟩
    obtain ⟨cs, hcs⟩ := hok
    exact List.forall_mem_cons.mpr ⟨⟨o, ho⟩, ih hcs⟩

theorem filterM_eq_ok {f : α → Checked Bool} {p : α → Bool} {l : List α}
    (h : ∀ a ∈ l, f a = .ok (p a)) : l.filterM f = .ok (l.filter p) := by
  have aux : ∀ acc, l.filterAuxM f acc = .ok ((l.filter p).reverse ++ acc) := by
    induction l with
    | nil => intro acc; rfl
    | cons a rest ih =>
      intro acc
      rw [List.filterAuxM, h a List.mem_cons_self, ok_bind,
        ih fun b hb => h b (List.mem_cons_of_mem a hb)]
      cases hp : p a <;> simp [hp]
  rw [List.filterM, aux []]
  simp

theorem allM_eq_ok {p : α → Checked Bool} {l : List α} (h : ∀ a ∈ l, p a = .ok true) :
    l.allM p = .ok true := by
  induction l with
  | nil => rfl
  | cons a rest ih =>
    rw [List.allM, h a List.mem_cons_self]
    exact ih fun b hb => h b (List.mem_cons_of_mem a hb)

end Checked

end LinearArithmetic
