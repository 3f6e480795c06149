import TypeTag.Build.Exploration

namespace TypeTag

section Explore

variable {next : Ty → Option (List Ty)}

/-- What comes next after the types of `seen` is in `seen` or on the stack. -/
def Frontier (next : Ty → Option (List Ty)) (stack seen : List Measured) : Prop :=
  ∀ t ∈ seen, ∃ found, next t.type = some found ∧ ∀ b ∈ found, b.measured ∈ seen ∨ b.measured ∈ stack

theorem Frontier.skip {stack seen : List Measured} {t : Measured} (ht : t ∈ seen)
    (h : Frontier next (t :: stack) seen) : Frontier next stack seen := by
  intro s hs
  obtain ⟨found, hf, hb⟩ := h s hs
  refine ⟨found, hf, fun b hmem ↦ ?_⟩
  rcases hb b hmem with hb | hb
  · exact .inl hb
  · rcases List.mem_cons.1 hb with hb | hb
    · exact .inl (hb ▸ ht)
    · exact .inr hb

theorem Frontier.closed {n : Nat} {seen : List Measured} {ts : List Ty}
    (hts : explore next n [] seen = some ts) (h : Frontier next [] seen) :
    (∀ t, t ∈ seen ∨ t ∈ [] → t.type ∈ ts) ∧
      ∀ t ∈ ts, ∃ found, next t = some found ∧ found ⊆ ts := by
  rw [explore] at hts
  obtain rfl := Option.some.inj hts
  refine ⟨fun t ht ↦ List.mem_map_of_mem (by simpa using ht), fun t ht ↦ ?_⟩
  obtain ⟨s, hs, rfl⟩ := List.mem_map.1 ht
  obtain ⟨found, hf, hb⟩ := h s hs
  refine ⟨found, hf, fun b hmem ↦ ?_⟩
  have hseen : b.measured ∈ seen := by simpa using hb b hmem
  exact List.mem_map_of_mem (f := Measured.type) hseen

theorem Frontier.visit {stack seen : List Measured} {t : Measured} {found : List Ty}
    (hfound : next t.type = some found) (h : Frontier next (t :: stack) seen) :
    Frontier next
      ((found.map Ty.measured).filter (!(seen ++ [t]).contains ·) ++ stack) (seen ++ [t]) := by
  intro s hs
  have hnew (b : Ty) (hb : b ∈ found) : b.measured ∈ seen ++ [t] ∨
      b.measured ∈ (found.map Ty.measured).filter (!(seen ++ [t]).contains ·) ++ stack := by
    by_cases hseen : b.measured ∈ seen ++ [t]
    · exact .inl hseen
    · refine .inr (List.mem_append_left _ (List.mem_filter.2 ⟨List.mem_map_of_mem hb, ?_⟩))
      simpa using hseen
  rcases List.mem_append.1 hs with hs | hs
  · obtain ⟨found', hf, hb⟩ := h s hs
    refine ⟨found', hf, fun b hmem ↦ ?_⟩
    rcases hb b hmem with hb | hb
    · exact .inl (List.mem_append_left _ hb)
    · rcases List.mem_cons.1 hb with hb | hb
      · exact .inl (List.mem_append_right _ (List.mem_singleton.2 hb))
      · exact .inr (List.mem_append_right _ hb)
  · rw [List.mem_singleton.1 hs]
    exact ⟨found, hfound, hnew⟩

/-- A search that ends has closed what it started with. -/
theorem explore_closed {n : Nat} {stack seen : List Measured} {ts : List Ty}
    (hts : explore next n stack seen = some ts) (h : Frontier next stack seen) :
    (∀ t, t ∈ seen ∨ t ∈ stack → t.type ∈ ts) ∧
      ∀ t ∈ ts, ∃ found, next t = some found ∧ found ⊆ ts := by
  induction n generalizing stack seen with
  | zero =>
    cases stack with
    | nil => exact h.closed hts
    | cons t stack => cases hts
  | succ n ih =>
    cases stack with
    | nil => exact h.closed hts
    | cons t stack =>
      rw [explore] at hts
      split at hts
      · next hseen =>
        have ht : t ∈ seen := by simpa using hseen
        obtain ⟨hmem, hclosed⟩ := ih hts (h.skip ht)
        refine ⟨fun s hs ↦ hmem s ?_, hclosed⟩
        rcases hs with hs | hs
        · exact .inl hs
        · rcases List.mem_cons.1 hs with rfl | hs
          · exact .inl ht
          · exact .inr hs
      · obtain ⟨found, hfound, hts⟩ := Option.bind_eq_some_iff.1 hts
        obtain ⟨hmem, hclosed⟩ := ih hts (h.visit hfound)
        refine ⟨fun s hs ↦ hmem s ?_, hclosed⟩
        rcases hs with hs | hs
        · exact .inl (List.mem_append_left _ hs)
        · rcases List.mem_cons.1 hs with rfl | hs
          · exact .inl (List.mem_append_right _ (List.mem_singleton_self s))
          · exact .inr (List.mem_append_right _ hs)

section Forall

variable {P : Ty → Prop}

theorem explore_nil_forall {n : Nat} {seen : List Measured} (hseen : ∀ t ∈ seen, P t.type) {ts : List Ty}
    (h : explore next n [] seen = some ts) : ∀ t ∈ ts, P t := by
  rw [explore] at h
  cases h
  intro t ht
  obtain ⟨m, hm, rfl⟩ := List.mem_map.1 ht
  exact hseen m hm

theorem explore_forall (hnext : ∀ t found, P t → next t = some found → ∀ b ∈ found, P b)
    {n : Nat} {stack seen : List Measured} (hstack : ∀ t ∈ stack, P t.type)
    (hseen : ∀ t ∈ seen, P t.type) {ts : List Ty} (h : explore next n stack seen = some ts) :
    ∀ t ∈ ts, P t := by
  induction n generalizing stack seen with
  | zero =>
    cases stack with
    | nil => exact explore_nil_forall hseen h
    | cons t stack => cases h
  | succ n ih =>
    cases stack with
    | nil => exact explore_nil_forall hseen h
    | cons t stack =>
      have ht := hstack t List.mem_cons_self
      have hrest (s : Measured) (hs : s ∈ stack) := hstack s (List.mem_cons_of_mem t hs)
      rw [explore] at h
      split at h
      · exact ih hrest hseen h
      · obtain ⟨found, hfound, h⟩ := Option.bind_eq_some_iff.1 h
        refine ih (fun s hs ↦ ?_) (fun s hs ↦ ?_) h
        · rcases List.mem_append.1 hs with hs | hs
          · obtain ⟨b, hb, rfl⟩ := List.mem_map.1 (List.mem_filter.1 hs).1
            exact hnext t.type found ht hfound b hb
          · exact hrest s hs
        · rcases List.mem_append.1 hs with hs | hs
          · exact hseen s hs
          · rw [List.mem_singleton.1 hs]
            exact ht

end Forall

end Explore

namespace SymbolTable

variable {u : SymbolTable} {n : Nat}

theorem reachable_closed {root : Ty} {ts : List Ty} (h : u.reachable n root = some ts) :
    root ∈ ts ∧ ∀ t ∈ ts, ∃ found, u.successors n t = some found ∧ found ⊆ ts := by
  obtain ⟨hmem, hclosed⟩ := explore_closed h fun t ht ↦ nomatch ht
  exact ⟨hmem root.measured (.inr (List.mem_singleton_self _)), hclosed⟩

theorem closeOverAncestors_closed {ts cs : List Ty} (h : u.closeOverAncestors n ts = some cs) :
    ts ⊆ cs ∧ ∀ t ∈ cs, ∃ found, u.ancestors n t = some found ∧ found ⊆ cs := by
  obtain ⟨hmem, hclosed⟩ := explore_closed h fun t ht ↦ nomatch ht
  exact ⟨fun t ht ↦ hmem t.measured (.inr (List.mem_map_of_mem ht)), hclosed⟩

theorem dealias_mem_reachable {root d : Ty} {ts : List Ty} (h : u.reachable n root = some ts)
    (hd : u.dealias n root = some d) : d.resultType ∈ ts := by
  obtain ⟨hroot, hclosed⟩ := reachable_closed h
  obtain ⟨found, hfound, hsub⟩ := hclosed root hroot
  refine hsub ?_
  simp only [successors, hd, Option.bind_eq_bind, Option.bind_some, Option.bind_eq_some_iff] at hfound
  obtain ⟨args, -, bounded, -, hfound⟩ := hfound
  cases hfound
  exact List.mem_cons_self

end SymbolTable

end TypeTag
