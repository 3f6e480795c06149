import TypeTag.Proofs.Steps.Ends

namespace TypeTag.Build

variable {α β : Type} {b : Build α} {P Q : α → Prop}

/-- If the build ends with a value, then with one that has the property. -/
def Yields (b : Build α) (P : α → Prop) : Prop :=
  ∀ a, b.value? = some a → P a

namespace Yields

theorem exhausted : (exhausted : Build α).Yields P :=
  fun _ h ↦ nomatch h

theorem fail {e : BuildError} : (fail e : Build α).Yields P :=
  fun _ h ↦ nomatch h

theorem pure {a : α} (h : P a) : (Pure.pure a : Build α).Yields P := by
  intro b hb
  cases hb
  exact h

theorem any : b.Yields fun _ ↦ True :=
  fun _ _ ↦ trivial

theorem bind {Q : β → Prop} {f : α → Build β} (h : b.Yields P) (hf : ∀ a, P a → (f a).Yields Q) :
    (b >>= f).Yields Q := by
  intro c hc
  obtain ⟨a, ha, hfa⟩ := value?_bind_iff.1 hc
  exact hf a (h a ha) c hfa

theorem map {Q : β → Prop} {f : α → β} (h : b.Yields P) (hf : ∀ a, P a → Q (f a)) :
    (f <$> b).Yields Q := by
  rw [map_eq_pure_bind]
  exact h.bind fun a ha ↦ .pure (hf a ha)

theorem mapM {Q : β → Prop} {f : α → Build β} {as : List α} (h : ∀ a ∈ as, (f a).Yields Q) :
    (as.mapM f).Yields fun bs ↦ ∀ b ∈ bs, Q b := by
  intro bs hbs b hb
  obtain ⟨a, ha, hab⟩ := exists_of_mem_value?_mapM hbs hb
  exact h a ha b hab

end Yields

/-- The build does not end with an error, and if it ends with a value, then with one that has the
property. -/
def Delivers (b : Build α) (P : α → Prop) : Prop :=
  ∀ r, b.outcome = some r → ∃ a, r = some a ∧ P a

def Succeeds (b : Build α) : Prop :=
  b.Delivers fun _ ↦ True

namespace Delivers

theorem exhausted : (exhausted : Build α).Delivers P := by
  intro r h
  cases h

theorem pure {a : α} (h : P a) : (Pure.pure a : Build α).Delivers P := by
  intro r hr
  cases hr
  exact ⟨a, rfl, h⟩

theorem lift {x : Option α} (h : ∀ a, x = some a → P a) : (liftM x : Build α).Delivers P := by
  intro r hr
  cases x with
  | none => cases hr
  | some a =>
    cases hr
    exact ⟨a, rfl, h a rfl⟩

theorem bind {Q : β → Prop} {f : α → Build β} (h : b.Delivers P) (hf : ∀ a, P a → (f a).Delivers Q) :
    (b >>= f).Delivers Q := by
  intro r hr
  rcases outcome_bind_iff.1 hr with ⟨hb, -⟩ | ⟨a, hb, ha⟩
  · obtain ⟨a, ha, -⟩ := h none hb
    cases ha
  · obtain ⟨a', heq, hPa⟩ := h _ hb
    cases heq
    exact hf a hPa r ha

theorem known (h : b.Delivers P) : b.Delivers fun a ↦ P a ∧ b.value? = some a := by
  intro r hr
  obtain ⟨a, rfl, ha⟩ := h r hr
  exact ⟨a, rfl, ha, outcome_eq_some_some_iff.1 hr⟩

theorem mono (h : b.Delivers P) (hPQ : ∀ a, P a → Q a) : b.Delivers Q := by
  intro r hr
  obtain ⟨a, rfl, ha⟩ := h r hr
  exact ⟨a, rfl, hPQ a ha⟩

theorem succeeds (h : b.Delivers P) : b.Succeeds :=
  h.mono fun _ _ ↦ trivial

theorem mapM {Q : β → Prop} {f : α → Build β} {as : List α} (h : ∀ a ∈ as, (f a).Delivers Q) :
    (as.mapM f).Delivers fun bs ↦ ∀ b ∈ bs, Q b := by
  induction as with
  | nil => exact .pure fun b hb ↦ nomatch hb
  | cons a as ih =>
    rw [List.mapM_cons]
    refine (h a List.mem_cons_self).bind fun b hb ↦ ?_
    refine (ih fun c hc ↦ h c (List.mem_cons_of_mem a hc)).bind fun bs hbs ↦ .pure ?_
    simpa using ⟨hb, hbs⟩

end Delivers

namespace Succeeds

theorem pure (a : α) : (Pure.pure a : Build α).Succeeds :=
  Delivers.pure trivial

theorem of_value? {a : α} (h : b.value? = some a) : b.Succeeds := by
  intro r hr
  cases hr.symm.trans (outcome_eq_some_some_iff.2 h)
  exact ⟨a, rfl, trivial⟩

theorem emit (e : Event) : (emit e).Succeeds :=
  of_value? rfl

theorem lift (x : Option α) : (liftM x : Build α).Succeeds :=
  Delivers.lift fun _ _ ↦ trivial

theorem bind {f : α → Build β} (h : b.Succeeds) (hf : ∀ a, (f a).Succeeds) : (b >>= f).Succeeds :=
  Delivers.bind h fun a _ ↦ hf a

theorem mapM {f : α → Build β} {as : List α} (h : ∀ a ∈ as, (f a).Succeeds) :
    (as.mapM f).Succeeds :=
  (Delivers.mapM h).succeeds

theorem ends {b : Nat → Build α} (h : ∀ n, (b n).Succeeds) {r : Option α} (hr : Ends b r) :
    ∃ a, Ends b (some a) := by
  obtain ⟨n, hn⟩ := hr
  obtain ⟨a, rfl, -⟩ := h n r (hn n (Nat.le_refl n))
  exact ⟨a, n, hn⟩

end Succeeds

end TypeTag.Build
