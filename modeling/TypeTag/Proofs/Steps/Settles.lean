import TypeTag.Proofs.Steps.Keeps

namespace TypeTag.Build

variable {α β : Type}

/-- With every large enough bound the build is finished, and is the same. -/
def Settles (b : Nat → Build α) : Prop :=
  ∃ log r n, ∀ m, n ≤ m → b m = done log r

namespace Settles

variable {b : Nat → Build α}

theorem const {b : Build α} {log : List Event} {r : Except BuildError α} (h : b = done log r) :
    Settles fun _ ↦ b :=
  ⟨log, r, 0, fun _ _ ↦ h⟩

theorem pure (a : α) : Settles fun _ ↦ (Pure.pure a : Build α) :=
  const rfl

theorem fail (e : BuildError) : Settles fun _ ↦ (fail e : Build α) :=
  const rfl

theorem emit (e : Event) : Settles fun _ ↦ emit e :=
  const rfl

theorem bind {f : Nat → α → Build β} (h : Settles b) (hf : ∀ a, Settles (f · a)) :
    Settles fun n ↦ b n >>= f n := by
  obtain ⟨log, r, n, hn⟩ := h
  cases r with
  | error e =>
    exact ⟨log, .error e, n, fun m hm ↦ bind_eq_done_iff.2 (.inl ⟨e, hn m hm, rfl⟩)⟩
  | ok a =>
    obtain ⟨log', r', n', hn'⟩ := hf a
    refine ⟨log ++ log', r', max n n', fun m hm ↦ bind_eq_done_iff.2 (.inr ?_)⟩
    obtain ⟨hle, hle'⟩ := Nat.max_le.1 hm
    exact ⟨log, a, log', hn m hle, hn' m hle', rfl⟩

theorem map (f : α → β) (h : Settles b) : Settles fun n ↦ f <$> b n := by
  simp only [map_eq_pure_bind]
  exact h.bind fun a ↦ .pure (f a)

theorem mapM {f : Nat → α → Build β} {as : List α} (h : ∀ a ∈ as, Settles (f · a)) :
    Settles fun n ↦ as.mapM (f n) := by
  induction as with
  | nil => exact .pure []
  | cons a as ih =>
    simp only [List.mapM_cons]
    refine (h a List.mem_cons_self).bind fun b ↦ ?_
    exact (ih fun c hc ↦ h c (List.mem_cons_of_mem a hc)).bind fun bs ↦ .pure (b :: bs)

theorem query_from {x : Nat → Option α} {f : Nat → α → Build β} {a : α} {n : Nat}
    (hx : ∀ m, n ≤ m → x m = some a) (hf : Settles (f · a)) :
    Settles fun n ↦ liftM (x n) >>= f n := by
  obtain ⟨log, r, n', hn'⟩ := hf
  refine ⟨log, r, max n n', fun m hm ↦ ?_⟩
  obtain ⟨hle, hle'⟩ := Nat.max_le.1 hm
  dsimp only
  rw [hx m hle]
  exact (pure_bind a (f m)).trans (hn' m hle')

theorem query {x : Nat → Option α} {f : Nat → α → Build β} {a : α} (hx : ∀ n, x n = some a)
    (hf : Settles (f · a)) : Settles fun n ↦ liftM (x n) >>= f n :=
  query_from (fun n (_ : 0 ≤ n) ↦ hx n) hf

theorem of_succ (h : Settles fun n ↦ b (n + 1)) : Settles b := by
  obtain ⟨log, r, n, hn⟩ := h
  refine ⟨log, r, n + 1, fun m hm ↦ ?_⟩
  obtain ⟨k, rfl⟩ := Nat.exists_eq_add_of_le' hm
  exact hn (k + n) (Nat.le_add_left n k)

end Settles

end TypeTag.Build
