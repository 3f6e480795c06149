import TypeTag.Proofs.Steps.Ends

namespace TypeTag.Build

open Stepped

variable {α β : Type} {b : Nat → Build α} {r s : Except BuildError α}

def result : Build α → Option (Except BuildError α)
  | exhausted => none
  | done _ r => some r

theorem outcome_eq_some_iff {b : Build α} {o : Option α} :
    b.outcome = some o ↔ ∃ r, b.result = some r ∧ r.toOption = o := by
  rcases b with _ | ⟨log, _ | a⟩ <;> simp [outcome, result, Except.toOption]

theorem value?_eq_some_iff {b : Build α} {a : α} : b.value? = some a ↔ b.result = some (.ok a) := by
  rcases b with _ | ⟨log, _ | c⟩ <;> simp [value?, result]

theorem result_bind_iff {b : Build α} {f : α → Build β} {r : Except BuildError β} :
    (b >>= f).result = some r ↔
      (∃ e, b.result = some (.error e) ∧ r = .error e) ∨
        ∃ a, b.result = some (.ok a) ∧ (f a).result = some r := by
  change (Build.bind b f).result = some r ↔ _
  rcases b with _ | ⟨log, e | a⟩
  · simp [Build.bind, result]
  · simp [Build.bind, result, eq_comm]
  · rcases h : f a with _ | ⟨log', r'⟩ <;> simp [Build.bind, result, h]

theorem result_of_keeps {x y : Build α} (h : Keeps x y) (hx : x.result = some r) :
    y.result = some r := by
  rcases x with _ | ⟨log, s⟩
  · cases hx
  · rw [h log s rfl]
    exact hx

/-- With every large enough bound on its steps, a build answers so. -/
def Answers (b : Nat → Build α) (r : Except BuildError α) : Prop :=
  ∃ n, ∀ m, n ≤ m → (b m).result = some r

theorem Answers.unique (hr : Answers b r) (hs : Answers b s) : r = s := by
  obtain ⟨n, hn⟩ := hr
  obtain ⟨m, hm⟩ := hs
  have h := (hn _ (Nat.le_max_left n m)).symm.trans (hm _ (Nat.le_max_right n m))
  exact Option.some.inj h

theorem Answers.ends (h : Answers b r) : Ends b r.toOption := by
  obtain ⟨n, hn⟩ := h
  exact ⟨n, fun m hm ↦ outcome_eq_some_iff.2 ⟨r, hn m hm, rfl⟩⟩

theorem ends_some_iff_answers {a : α} : Ends b (some a) ↔ Answers b (.ok a) := by
  simp only [Ends, Answers, outcome_eq_some_some_iff, value?_eq_some_iff]

theorem Steady.answers (h : Steady b) {n : Nat} (hn : (b n).result = some r) : Answers b r :=
  ⟨n, fun m hm ↦ result_of_keeps (h n m hm) hn⟩

theorem Steady.ends_iff_answers (h : Steady b) {o : Option α} :
    Ends b o ↔ ∃ r, Answers b r ∧ r.toOption = o := by
  constructor
  · rintro ⟨n, hn⟩
    obtain ⟨r, hr, ho⟩ := outcome_eq_some_iff.1 (hn n (Nat.le_refl n))
    exact ⟨r, h.answers hr, ho⟩
  · rintro ⟨r, hr, rfl⟩
    exact hr.ends

theorem answers_bind_iff {f : Nat → α → Build β} (h : Steady b) (hf : ∀ a, Steady (f · a))
    {r : Except BuildError β} :
    Answers (fun n ↦ b n >>= f n) r ↔
      (∃ e, Answers b (.error e) ∧ r = .error e) ∨
        ∃ a, Answers b (.ok a) ∧ Answers (f · a) r := by
  constructor
  · rintro ⟨n, hn⟩
    rcases result_bind_iff.1 (hn n (Nat.le_refl n)) with ⟨e, he, hr⟩ | ⟨a, ha, hfa⟩
    · exact .inl ⟨e, h.answers he, hr⟩
    · exact .inr ⟨a, h.answers ha, (hf a).answers hfa⟩
  · rintro (⟨e, ⟨n, hn⟩, hr⟩ | ⟨a, ⟨n, hn⟩, ⟨m, hm⟩⟩)
    · exact ⟨n, fun k hk ↦ result_bind_iff.2 (.inl ⟨e, hn k hk, hr⟩)⟩
    · exact ⟨max n m, fun k hk ↦ result_bind_iff.2
        (.inr ⟨a, hn k (Nat.max_le.1 hk).1, hm k (Nat.max_le.1 hk).2⟩)⟩

end TypeTag.Build
