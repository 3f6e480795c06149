namespace TypeTag.Text

theorem intercalate_concat {sep x : List Char} {xs : List (List Char)} (h : xs ≠ []) :
    sep.intercalate (xs ++ [x]) = sep.intercalate xs ++ (sep ++ x) := by
  induction xs with
  | nil => exact absurd rfl h
  | cons y ys ih =>
    cases ys with
    | nil => simp
    | cons y' ys =>
      have hih := ih (List.cons_ne_nil _ _)
      rw [List.cons_append] at hih
      rw [List.cons_append, List.cons_append, List.intercalate_cons_cons,
        List.intercalate_cons_cons, List.append_assoc _ _ (sep ++ x), hih]

section Words

variable {p : Char → Bool} {mark : Char} {r s t t' w : List Char}

/-- One word or several, with a mark between each two. -/
def Marked (p : Char → Bool) (mark : Char) (t : List Char) : Prop :=
  ∃ words : List (List Char), words ≠ [] ∧ (∀ w ∈ words, w ≠ [] ∧ ∀ c ∈ w, p c = true) ∧
    t = [mark].intercalate words

theorem marked_of_all (words : List (List Char)) (hne : words ≠ [])
    (hall : (words.all fun w ↦ !w.isEmpty && w.all p) = true) :
    Marked p mark ([mark].intercalate words) := by
  refine ⟨words, hne, fun w hw ↦ ?_, rfl⟩
  have hword := List.all_eq_true.1 hall w hw
  rw [Bool.and_eq_true, Bool.not_eq_true', List.isEmpty_eq_false_iff] at hword
  exact ⟨hword.1, List.all_eq_true.1 hword.2⟩

def EndsWords (p : Char → Bool) (mark : Char) : List Char → Prop
  | [] => True
  | [c] => p c = false
  | c :: d :: _ => p c = false ∧ (c = mark → p d = false)

def readWords (p : Char → Bool) (mark : Char) : List Char → List Char
  | [] => []
  | [c] => if p c then [c] else []
  | c :: d :: t => if p c || (c == mark && p d) then c :: readWords p mark (d :: t) else []

theorem readWords_cons {c : Char} (hc : p c = true) :
    readWords p mark (c :: t) = c :: readWords p mark t := by
  cases t <;> simp [readWords, hc]

theorem readWords_append (hw : ∀ c ∈ w, p c = true) :
    readWords p mark (w ++ t) = w ++ readWords p mark t := by
  induction w with
  | nil => rfl
  | cons c w ih =>
    obtain ⟨hc, hw⟩ := List.forall_mem_cons.1 hw
    rw [List.cons_append, readWords_cons hc, ih hw, List.cons_append]

theorem readWords_end (h : EndsWords p mark r) : readWords p mark r = [] := by
  unfold readWords
  split
  · rfl
  · have hc : p _ = false := h
    simp [hc]
  · obtain ⟨hc, hmark⟩ := h
    simpa [hc] using hmark

theorem Marked.head (h : Marked p mark t) : ∃ c u, t = c :: u ∧ p c = true := by
  obtain ⟨words, hne, hwords, rfl⟩ := h
  cases words with
  | nil => exact absurd rfl hne
  | cons w words =>
    obtain ⟨hw, hchars⟩ := hwords w List.mem_cons_self
    cases w with
    | nil => exact absurd rfl hw
    | cons c w =>
      refine ⟨c, ?_⟩
      cases words with
      | nil => exact ⟨w, by simp, hchars c List.mem_cons_self⟩
      | cons v words =>
        rw [List.intercalate_cons_cons]
        exact ⟨_, rfl, hchars c List.mem_cons_self⟩

theorem Marked.concat (h : Marked p mark t) (hne : w ≠ []) (hw : ∀ c ∈ w, p c = true) :
    Marked p mark (t ++ mark :: w) := by
  obtain ⟨words, hwords, hall, rfl⟩ := h
  refine ⟨words ++ [w], by simp, fun v hv ↦ ?_, ?_⟩
  · rcases List.mem_append.1 hv with hv | hv
    · exact hall v hv
    · rw [List.mem_singleton.1 hv]
      exact ⟨hne, hw⟩
  · rw [intercalate_concat hwords]
    rfl

theorem readWords_intercalate {words : List (List Char)}
    (hwords : ∀ w ∈ words, w ≠ [] ∧ ∀ c ∈ w, p c = true) (hr : EndsWords p mark r) :
    readWords p mark ([mark].intercalate words ++ r) = [mark].intercalate words := by
  induction words with
  | nil => exact readWords_end hr
  | cons w words ih =>
    obtain ⟨⟨-, hchars⟩, hrest⟩ := List.forall_mem_cons.1 hwords
    cases words with
    | nil =>
      rw [List.intercalate_singleton, readWords_append hchars, readWords_end hr, List.append_nil]
    | cons v words =>
      obtain ⟨d, u, hu, hd⟩ := Marked.head ⟨v :: words, List.cons_ne_nil _ _, hrest, rfl⟩
      have hih := ih hrest
      rw [hu, List.cons_append] at hih
      rw [List.intercalate_cons_cons, hu, List.append_assoc, List.append_assoc,
        readWords_append hchars, List.cons_append, List.cons_append, List.nil_append, readWords]
      simp [hd, hih]

theorem Marked.append_inj (ht : Marked p mark t) (ht' : Marked p mark t')
    (hr : EndsWords p mark r) (hs : EndsWords p mark s) (h : t ++ r = t' ++ s) :
    t = t' ∧ r = s := by
  obtain ⟨words, -, hwords, rfl⟩ := ht
  obtain ⟨words', -, hwords', rfl⟩ := ht'
  have hread := congrArg (readWords p mark) h
  rw [readWords_intercalate hwords hr, readWords_intercalate hwords' hs] at hread
  rw [hread] at h
  exact ⟨hread, List.append_cancel_left h⟩

end Words

section Items

variable {α : Type} {f : α → List Char} {sep r s : List Char} {Ends : List Char → Prop}
  {xs ys : List α}

/-- Items are told from each other and from what follows them, if each is told from what may follow
it, be it a separator or what ends the whole, and no separator begins what ends the whole. -/
theorem separated_append_inj (hsep : ∀ t, Ends (sep ++ t)) (hxs : xs ≠ []) (hys : ys ≠ [])
    (htold : ∀ x ∈ xs, ∀ y ∈ ys, ∀ r s, Ends r → Ends s → f x ++ r = f y ++ s → x = y ∧ r = s)
    (hr : Ends r) (hs : Ends s) (hrsep : ∀ t, r ≠ sep ++ t) (hssep : ∀ t, s ≠ sep ++ t)
    (h : sep.intercalate (xs.map f) ++ r = sep.intercalate (ys.map f) ++ s) :
    xs = ys ∧ r = s := by
  induction xs generalizing ys with
  | nil => exact absurd rfl hxs
  | cons x xs ih =>
    cases ys with
    | nil => exact absurd rfl hys
    | cons y ys =>
      have hfirst := htold x List.mem_cons_self y List.mem_cons_self
      rw [List.map_cons, List.map_cons] at h
      cases xs with
      | nil =>
        cases ys with
        | nil =>
          rw [List.map_nil, List.intercalate_singleton, List.intercalate_singleton] at h
          obtain ⟨rfl, hrest⟩ := hfirst r s hr hs h
          exact ⟨rfl, hrest⟩
        | cons y' ys =>
          rw [List.map_nil, List.intercalate_singleton, List.map_cons, List.intercalate_cons_cons,
            List.append_assoc, List.append_assoc] at h
          -- one side is at its end where the other has a separator
          exact absurd (hfirst _ _ hr (hsep _) h).2 (hrsep _)
      | cons x' xs =>
        cases ys with
        | nil =>
          rw [List.map_nil, List.intercalate_singleton, List.map_cons, List.intercalate_cons_cons,
            List.append_assoc, List.append_assoc] at h
          exact absurd (hfirst _ _ (hsep _) hs h).2.symm (hssep _)
        | cons y' ys =>
          rw [List.map_cons, List.map_cons, List.intercalate_cons_cons, List.intercalate_cons_cons,
            List.append_assoc, List.append_assoc, List.append_assoc, List.append_assoc] at h
          obtain ⟨rfl, hrest⟩ := hfirst _ _ (hsep _) (hsep _) h
          have htail := List.append_cancel_left hrest
          obtain ⟨heq, hrs⟩ := ih (List.cons_ne_nil x' xs) (List.cons_ne_nil y' ys)
            (fun z hz w hw ↦ htold z (List.mem_cons_of_mem x hz) w (List.mem_cons_of_mem x hw)) htail
          exact ⟨by rw [heq], hrs⟩

theorem closed_append_inj {close : Char} (hsep : ∀ t, Ends (sep ++ t)) (hclose : ∀ t, Ends (close :: t))
    (hne : ∀ t u, close :: t ≠ sep ++ u)
    (hstart : ∀ x t u, (x ∈ xs ∨ x ∈ ys) → f x ++ t ≠ close :: u)
    (htold : ∀ x ∈ xs, ∀ y ∈ ys, ∀ r s, Ends r → Ends s → f x ++ r = f y ++ s → x = y ∧ r = s)
    (h : sep.intercalate (xs.map f) ++ close :: r = sep.intercalate (ys.map f) ++ close :: s) :
    xs = ys ∧ r = s := by
  have hbegins {zs : List α} (hzs : zs ≠ []) (hmem : ∀ z ∈ zs, z ∈ xs ∨ z ∈ ys)
      (t u : List Char) : sep.intercalate (zs.map f) ++ t ≠ close :: u := by
    cases zs with
    | nil => exact absurd rfl hzs
    | cons z zs =>
      have hz := hmem z List.mem_cons_self
      cases zs with
      | nil => simpa using hstart z t u hz
      | cons z' zs =>
        rw [List.map_cons, List.map_cons, List.intercalate_cons_cons, List.append_assoc,
          List.append_assoc]
        exact hstart z _ u hz
  cases xs with
  | nil =>
    cases ys with
    | nil => simpa using h
    | cons y ys => exact absurd h.symm (hbegins (List.cons_ne_nil y ys) (fun z hz ↦ .inr hz) _ _)
  | cons x xs =>
    cases ys with
    | nil => exact absurd h (hbegins (List.cons_ne_nil x xs) (fun z hz ↦ .inl hz) _ _)
    | cons y ys =>
      obtain ⟨heq, hrest⟩ := separated_append_inj hsep (List.cons_ne_nil x xs)
        (List.cons_ne_nil y ys) htold (hclose r) (hclose s) (hne r) (hne s) h
      exact ⟨heq, (List.cons.inj hrest).2⟩

end Items

end TypeTag.Text
