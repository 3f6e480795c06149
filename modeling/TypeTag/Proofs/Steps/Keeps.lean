import TypeTag.Build.Outcome

namespace TypeTag

class Stepped (m : Type → Type) [Monad m] where
  /-- The second computation ends as the first does, if the first ends. -/
  Keeps {α : Type} : m α → m α → Prop
  keeps_refl {α : Type} (x : m α) : Keeps x x
  keeps_bind {α β : Type} {x y : m α} {f g : α → m β} :
    Keeps x y → (∀ a, Keeps (f a) (g a)) → Keeps (x >>= f) (y >>= g)

instance : Stepped Option where
  Keeps x y := ∀ a, x = some a → y = some a
  keeps_refl _ _ h := h
  keeps_bind {_ _ x y f g} hx hf b h := by
    obtain ⟨a, ha, hb⟩ := Option.bind_eq_some_iff.1 h
    exact Option.bind_eq_some_iff.2 ⟨a, hx a ha, hf a b hb⟩

namespace Build

variable {α β : Type}

theorem bind_eq_done_iff {b : Build α} {f : α → Build β} {log : List Event}
    {r : Except BuildError β} :
    b >>= f = done log r ↔
      (∃ e, b = done log (.error e) ∧ r = .error e) ∨
      (∃ l a l', b = done l (.ok a) ∧ f a = done l' r ∧ log = l ++ l') := by
  change Build.bind b f = done log r ↔ _
  rcases b with _ | ⟨l, e | a⟩
  · simp [Build.bind]
  · simp only [Build.bind, done.injEq]
    grind
  · simp only [Build.bind]
    cases hf : f a with
    | exhausted => simp [hf]
    | done l' s =>
      simp only [done.injEq, Except.ok.injEq, reduceCtorEq, and_false, false_and, exists_false,
        false_or]
      grind

instance : Stepped Build where
  Keeps x y := ∀ log r, x = done log r → y = done log r
  keeps_refl _ _ _ h := h
  keeps_bind {_ _ x y f g} hx hf log r h := by
    rw [bind_eq_done_iff] at h ⊢
    rcases h with ⟨e, hb, hr⟩ | ⟨l, a, l', hb, ha, hl⟩
    · exact .inl ⟨e, hx _ _ hb, hr⟩
    · exact .inr ⟨l, a, l', hx _ _ hb, hf a _ _ ha, hl⟩

end Build

namespace Stepped.Keeps

section Bind

variable {m : Type → Type} [Monad m] [Stepped m] {α β : Type}

theorem refl (x : m α) : Keeps x x :=
  keeps_refl x

theorem bind {x y : m α} {f g : α → m β} (h : Keeps x y) (hf : ∀ a, Keeps (f a) (g a)) :
    Keeps (x >>= f) (y >>= g) :=
  keeps_bind h hf

theorem findSomeM? {f g : α → m (Option β)} (h : ∀ a, Keeps (f a) (g a)) (l : List α) :
    Keeps (l.findSomeM? f) (l.findSomeM? g) := by
  induction l with
  | nil => exact .refl _
  | cons a l ih =>
    refine (h a).bind fun b ↦ ?_
    cases b with
    | none => exact ih
    | some b => exact .refl _

theorem mapM [LawfulMonad m] {f g : α → m β} (h : ∀ a, Keeps (f a) (g a)) (l : List α) :
    Keeps (l.mapM f) (l.mapM g) := by
  induction l with
  | nil => exact .refl _
  | cons a l ih =>
    rw [List.mapM_cons, List.mapM_cons]
    exact (h a).bind fun b ↦ ih.bind fun bs ↦ .refl _

end Bind

variable {α : Type}

theorem none (y : Option α) : Keeps none y :=
  fun _ h ↦ nomatch h

theorem map {β : Type} {x y : Option α} (h : Keeps x y) (f : α → β) :
    Keeps (x.map f) (y.map f) := by
  intro b hb
  obtain ⟨a, ha, rfl⟩ := Option.map_eq_some_iff.1 hb
  rw [h a ha]
  rfl

theorem exhausted (y : Build α) : Keeps .exhausted y :=
  fun _ _ h ↦ nomatch h

theorem lift {x y : Option α} (h : Keeps x y) : Keeps (liftM x : Build α) (liftM y) := by
  intro log r hx
  cases x with
  | none => cases hx
  | some a =>
    rw [h a rfl]
    exact hx

end Stepped.Keeps

theorem Stepped.unique_of_keeps {α : Type} {q : Nat → Option α}
    (h : ∀ n m, n ≤ m → Keeps (q n) (q m)) {n m : Nat} {a b : α} (ha : q n = some a)
    (hb : q m = some b) : a = b := by
  have ha' := h n (max n m) (Nat.le_max_left n m) a ha
  have hb' := h m (max n m) (Nat.le_max_right n m) b hb
  exact Option.some.inj (ha'.symm.trans hb')

end TypeTag
