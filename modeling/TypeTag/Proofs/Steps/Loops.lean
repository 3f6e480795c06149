namespace TypeTag

theorem mapM_congr {m : Type → Type} [Monad m] [LawfulMonad m] {α β : Type} {f g : α → m β}
    {as : List α} (h : ∀ a ∈ as, f a = g a) : as.mapM f = as.mapM g := by
  induction as with
  | nil => rfl
  | cons a as ih =>
    rw [List.mapM_cons, List.mapM_cons, h a List.mem_cons_self,
      ih fun b hb ↦ h b (List.mem_cons_of_mem a hb)]

variable {α β : Type} {f : α → Option β} {as : List α}

theorem mapM_mem {bs : List β} (h : as.mapM f = some bs) {a : α} (ha : a ∈ as) :
    ∃ b ∈ bs, f a = some b := by
  induction as generalizing bs with
  | nil => cases ha
  | cons c as ih =>
    rw [List.mapM_cons] at h
    obtain ⟨b, hb, h⟩ := Option.bind_eq_some_iff.1 h
    obtain ⟨cs, hcs, h⟩ := Option.bind_eq_some_iff.1 h
    cases h
    rcases List.mem_cons.1 ha with rfl | ha
    · exact ⟨b, List.mem_cons_self, hb⟩
    · obtain ⟨d, hd, hfd⟩ := ih hcs ha
      exact ⟨d, List.mem_cons_of_mem b hd, hfd⟩

theorem mem_mapM {bs : List β} (h : as.mapM f = some bs) {b : β} (hb : b ∈ bs) :
    ∃ a ∈ as, f a = some b := by
  induction as generalizing bs with
  | nil =>
    cases h
    cases hb
  | cons c as ih =>
    rw [List.mapM_cons] at h
    obtain ⟨d, hd, h⟩ := Option.bind_eq_some_iff.1 h
    obtain ⟨cs, hcs, h⟩ := Option.bind_eq_some_iff.1 h
    cases h
    rcases List.mem_cons.1 hb with rfl | hb
    · exact ⟨c, List.mem_cons_self, hd⟩
    · obtain ⟨a, ha, hfa⟩ := ih hcs hb
      exact ⟨a, List.mem_cons_of_mem c ha, hfa⟩

theorem length_mapM {bs : List β} (h : as.mapM f = some bs) : bs.length = as.length := by
  induction as generalizing bs with
  | nil =>
    cases h
    rfl
  | cons c as ih =>
    rw [List.mapM_cons] at h
    obtain ⟨d, -, h⟩ := Option.bind_eq_some_iff.1 h
    obtain ⟨cs, hcs, h⟩ := Option.bind_eq_some_iff.1 h
    cases h
    exact congrArg (· + 1) (ih hcs)

theorem mapM_eq_some_map {g : α → β} (h : ∀ a ∈ as, f a = some (g a)) :
    as.mapM f = some (as.map g) :=
  (mapM_congr h).trans List.mapM_pure

theorem mapM_append_eq_some {as' : List α} {cs : List β} : (as ++ as').mapM f = some cs ↔
    ∃ bs bs', as.mapM f = some bs ∧ as'.mapM f = some bs' ∧ cs = bs ++ bs' := by
  simp only [List.mapM_append, Option.pure_def, Option.bind_eq_bind, Option.bind_eq_some_iff,
    Option.some.injEq, @eq_comm _ _ cs, exists_and_left]

theorem exists_mapM (h : ∀ a ∈ as, ∃ b, f a = some b) : ∃ bs, as.mapM f = some bs := by
  induction as with
  | nil => exact ⟨[], rfl⟩
  | cons a as ih =>
    obtain ⟨b, hb⟩ := h a List.mem_cons_self
    obtain ⟨bs, hbs⟩ := ih fun c hc ↦ h c (List.mem_cons_of_mem a hc)
    exact ⟨b :: bs, by simp [List.mapM_cons, hb, hbs]⟩

variable {g : α → Option (Option β)}

theorem findSomeM?_eq_none (h : as.findSomeM? g = some none) {a : α} (ha : a ∈ as) :
    g a = some none := by
  induction as with
  | nil => cases ha
  | cons c as ih =>
    rw [List.findSomeM?_cons] at h
    obtain ⟨b, hb, h⟩ := Option.bind_eq_some_iff.1 h
    cases b with
    | some b => cases h
    | none =>
      rcases List.mem_cons.1 ha with rfl | ha
      · exact hb
      · exact ih h ha

theorem findSomeM?_eq_some {b : β} (h : as.findSomeM? g = some (some b)) :
    ∃ a ∈ as, g a = some (some b) := by
  induction as with
  | nil => cases h
  | cons c as ih =>
    rw [List.findSomeM?_cons] at h
    obtain ⟨d, hd, h⟩ := Option.bind_eq_some_iff.1 h
    cases d with
    | some d =>
      cases h
      exact ⟨c, List.mem_cons_self, hd⟩
    | none =>
      obtain ⟨a, ha, hg⟩ := ih h
      exact ⟨a, List.mem_cons_of_mem c ha, hg⟩

theorem exists_findSomeM? (h : ∀ a ∈ as, ∃ b, g a = some b) : ∃ b, as.findSomeM? g = some b := by
  induction as with
  | nil => exact ⟨none, rfl⟩
  | cons c as ih =>
    obtain ⟨b, hb⟩ := h c List.mem_cons_self
    rw [List.findSomeM?_cons, hb]
    cases b with
    | some b => exact ⟨some b, rfl⟩
    | none => exact ih fun a ha ↦ h a (List.mem_cons_of_mem c ha)

theorem findSomeM?_map {γ : Type} {f : α → Option (Option γ)} {m : β → γ}
    (h : ∀ a ∈ as, f a = (g a).map (Option.map m)) :
    as.findSomeM? f = (as.findSomeM? g).map (Option.map m) := by
  induction as with
  | nil => rfl
  | cons c as ih =>
    have hrest := ih fun a ha ↦ h a (List.mem_cons_of_mem c ha)
    rw [List.findSomeM?_cons, List.findSomeM?_cons, h c List.mem_cons_self]
    cases g c with
    | none => rfl
    | some b =>
      cases b with
      | none => exact hrest
      | some b => rfl

end TypeTag
