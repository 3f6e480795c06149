import Mathlib.Data.List.Basic
import TypeTag.Descriptor.Render
import TypeTag.Proofs.Text.Boundaries

namespace TypeTag

open Text (Marked EndsWords)

section Names

variable {m n : SymName} {r s : List Char}

def isNameChar (c : Char) : Bool :=
  c.isAlphanum || c == '_'

/-- Words with a dot between each two, of which the first begins with a letter. -/
def IsDotted (s : String) : Prop :=
  Marked isNameChar '.' s.toList ∧ ∀ c ∈ s.toList.head?, c.isAlpha = true

def IsWord (s : String) : Prop :=
  s ≠ "" ∧ (∀ c ∈ s.toList, isNameChar c = true) ∧ ∀ c ∈ s.toList.head?, c.isAlpha = true

def IsNumbers (s : String) : Prop :=
  Marked Char.isDigit ':' s.toList

/-- A name whose text can be read back: types have placeholders or dotted names that do not end as
the texts of terms do. -/
def SymName.Plain : SymName → Prop
  | .term s => IsDotted s
  | .type s => IsNumbers s ∨ IsDotted s ∧ lastSegment s ≠ "type"
  | .literal s => '"' ∉ s.toList

def EndsName (r : List Char) : Prop :=
  EndsWords isNameChar '.' r ∧ EndsWords Char.isDigit ':' r

def SymName.chars (m : SymName) : List Char :=
  (m.render .long).toList

theorem isDigit_of_isAlpha {c : Char} (h : c.isAlpha = true) : c.isDigit = false := by
  have hletter : 'A'.val ≤ c.val ∧ c.val ≤ 'Z'.val ∨ 'a'.val ≤ c.val ∧ c.val ≤ 'z'.val := by
    have hcases : (c.isUpper || c.isLower) = true := h
    rcases Bool.or_eq_true_iff.1 hcases with hupper | hlower
    · exact .inl (of_decide_eq_true hupper)
    · exact .inr ((Bool.and_eq_true_iff.1 hlower).imp of_decide_eq_true of_decide_eq_true)
  refine Bool.eq_false_iff.2 fun hdigit ↦ ?_
  have hnumber : '0'.val ≤ c.val ∧ c.val ≤ '9'.val :=
    (Bool.and_eq_true_iff.1 hdigit).imp of_decide_eq_true of_decide_eq_true
  simp only [UInt32.le_iff_toNat_le] at hletter hnumber
  have hA : 'A'.val.toNat = 65 := rfl
  have ha : 'a'.val.toNat = 97 := rfl
  have h9 : '9'.val.toNat = 57 := rfl
  omega

theorem IsDotted.head {s : String} (h : IsDotted s) : ∃ c u, s.toList = c :: u ∧ c.isAlpha = true := by
  obtain ⟨c, u, hs, -⟩ := h.1.head
  exact ⟨c, u, hs, h.2 c (by rw [hs]; rfl)⟩

namespace SymName

/-- The dotted texts are those of terms and of all types but placeholders. -/
def Spelled : SymName → Prop
  | .term s => IsDotted s
  | .type s => IsDotted s ∧ lastSegment s ≠ "type"
  | .literal _ => False

theorem chars_type_of_isDotted {t : String} (h : IsDotted t) : (type t).chars = t.toList := by
  obtain ⟨c, u, ht, hc⟩ := h.head
  simp [chars, render, ht, isDigit_of_isAlpha hc]

theorem chars_type_of_isNumbers {t : String} (h : IsNumbers t) :
    (type t).chars = '%' :: t.toList := by
  obtain ⟨c, u, ht, hc⟩ := Marked.head h
  simp [chars, render, ht, hc]

theorem chars_term (t : String) : (term t).chars = t.toList ++ ['.', 't', 'y', 'p', 'e'] := by
  simp [chars, render]

theorem chars_literal (t : String) : (literal t).chars = '"' :: (t.toList ++ ['"']) := by
  simp [chars, render]

theorem Spelled.marked (h : m.Spelled) :
    Marked isNameChar '.' m.chars ∧ ∃ c u, m.chars = c :: u ∧ c.isAlpha = true := by
  cases m with
  | term t =>
    obtain ⟨c, u, ht, hc⟩ := IsDotted.head h
    rw [chars_term]
    exact ⟨h.1.concat (List.cons_ne_nil _ _) (List.all_eq_true.1 rfl), c, _, by rw [ht]; rfl, hc⟩
  | type t =>
    rw [chars_type_of_isDotted h.1]
    exact ⟨h.1.1, h.1.head⟩
  | literal t => exact h.elim

theorem lastSegment_term_text (t : String) :
    lastSegment (String.ofList (t.toList ++ ['.', 't', 'y', 'p', 'e'])) = "type" := by
  simp [lastSegment]

theorem Spelled.eq_of_chars (hm : m.Spelled) (hn : n.Spelled) (h : m.chars = n.chars) : m = n := by
  have hterm {t v : String} (h : (term t).chars = v.toList) : lastSegment v = "type" := by
    rw [← String.ofList_toList (s := v), ← h, chars_term]
    exact lastSegment_term_text t
  cases m with
  | term t =>
    cases n with
    | term v =>
      rw [chars_term, chars_term] at h
      rw [String.toList_injective (List.append_cancel_right h)]
    | type v =>
      rw [chars_type_of_isDotted hn.1] at h
      exact absurd (hterm h) hn.2
    | literal v => exact hn.elim
  | type t =>
    rw [chars_type_of_isDotted hm.1] at h
    cases n with
    | term v => exact absurd (hterm h.symm) hm.2
    | type v =>
      rw [chars_type_of_isDotted hn.1] at h
      rw [String.toList_injective h]
    | literal v => exact hn.elim
  | literal t => exact hm.elim

/-- A plain name is a literal, a placeholder or spelled with dots, and its text tells by the first
character which of them. -/
theorem Plain.cases (h : m.Plain) : ∃ c u, m.chars = c :: u ∧
    ((c = '"' ∧ ∃ t, m = .literal t ∧ '"' ∉ t.toList) ∨
      (c = '%' ∧ ∃ t, m = .type t ∧ IsNumbers t) ∨ (c.isAlpha = true ∧ m.Spelled)) := by
  have hspelled (h : m.Spelled) : ∃ c u, m.chars = c :: u ∧
      ((c = '"' ∧ ∃ t, m = .literal t ∧ '"' ∉ t.toList) ∨
        (c = '%' ∧ ∃ t, m = .type t ∧ IsNumbers t) ∨ (c.isAlpha = true ∧ m.Spelled)) := by
    obtain ⟨-, c, u, hm, hc⟩ := h.marked
    exact ⟨c, u, hm, .inr (.inr ⟨hc, h⟩)⟩
  cases m with
  | term t => exact hspelled h
  | type t =>
    rcases h with hnumbers | hdotted
    · exact ⟨_, _, chars_type_of_isNumbers hnumbers, .inr (.inl ⟨rfl, t, rfl, hnumbers⟩)⟩
    · exact hspelled hdotted
  | literal t => exact ⟨_, _, chars_literal t, .inl ⟨rfl, t, rfl, h⟩⟩

theorem quoted_append_inj {t v : List Char} (ht : '"' ∉ t) (hv : '"' ∉ v)
    (h : t ++ '"' :: r = v ++ '"' :: s) : t = v ∧ r = s := by
  have hread {w : List Char} (u : List Char) (hw : '"' ∉ w) :
      (w ++ '"' :: u).takeWhile (· ≠ '"') = w := by
    have hall : ∀ c ∈ w, decide (c ≠ '"') = true :=
      fun c hc ↦ decide_eq_true fun hquote ↦ hw (hquote ▸ hc)
    rw [List.takeWhile_append_of_pos hall]
    simp
  have htv : t = v := by rw [← hread r ht, h, hread s hv]
  rw [htv] at h
  exact ⟨htv, (List.cons.inj (List.append_cancel_left h)).2⟩

theorem Plain.append_inj (hm : m.Plain) (hn : n.Plain) (hr : EndsName r) (hs : EndsName s)
    (h : m.chars ++ r = n.chars ++ s) : m = n ∧ r = s := by
  obtain ⟨c, u, hcu, hmcases⟩ := hm.cases
  obtain ⟨d, v, hdv, hncases⟩ := hn.cases
  have hcd : c = d := by
    rw [hcu, hdv] at h
    exact (List.cons.inj h).1
  subst hcd
  have hquote : '"'.isAlpha = false := by decide
  have hpercent : '%'.isAlpha = false := by decide
  rcases hmcases with ⟨rfl, t, rfl, ht⟩ | ⟨rfl, t, rfl, ht⟩ | ⟨hc, hm⟩
  · rcases hncases with ⟨-, w, rfl, hw⟩ | ⟨hc, -⟩ | ⟨hc, -⟩
    · simp only [chars_literal, List.cons_append, List.append_assoc, List.nil_append] at h
      obtain ⟨heq, hrest⟩ := quoted_append_inj ht hw (List.cons.inj h).2
      exact ⟨by rw [String.toList_injective heq], hrest⟩
    · cases hc
    · rw [hquote] at hc
      cases hc
  · rcases hncases with ⟨hc, -⟩ | ⟨-, w, rfl, hw⟩ | ⟨hc, -⟩
    · cases hc
    · rw [chars_type_of_isNumbers ht, chars_type_of_isNumbers hw] at h
      obtain ⟨heq, hrest⟩ := Marked.append_inj ht hw hr.2 hs.2 (List.cons.inj h).2
      exact ⟨by rw [String.toList_injective heq], hrest⟩
    · rw [hpercent] at hc
      cases hc
  · rcases hncases with ⟨rfl, -⟩ | ⟨rfl, -⟩ | ⟨-, hn⟩
    · rw [hquote] at hc
      cases hc
    · rw [hpercent] at hc
      cases hc
    · obtain ⟨heq, hrest⟩ := hm.marked.1.append_inj hn.marked.1 hr.1 hs.1 h
      exact ⟨hm.eq_of_chars hn heq, hrest⟩

end SymName

end Names

end TypeTag
