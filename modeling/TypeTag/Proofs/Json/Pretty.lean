import Mathlib.Tactic.IntervalCases
import TypeTag.Json.Pretty

namespace TypeTag.Json

section Quote

variable {c d : Char} {r s : List Char}

def hexValue (c : Char) : Nat :=
  if c.isDigit then c.toNat - '0'.toNat else c.toNat - 'a'.toNat + 10

def unescape : List Char → Option (Char × List Char)
  | '\\' :: '"' :: r => some ('"', r)
  | '\\' :: '\\' :: r => some ('\\', r)
  | '\\' :: 'n' :: r => some ('\n', r)
  | '\\' :: 'r' :: r => some ('\r', r)
  | '\\' :: 't' :: r => some ('\t', r)
  | '\\' :: 'b' :: r => some ('\x08', r)
  | '\\' :: 'f' :: r => some ('\x0c', r)
  | '\\' :: 'u' :: '0' :: '0' :: a :: b :: r =>
    some (Char.ofNat (16 * hexValue a + hexValue b), r)
  | c :: r => some (c, r)
  | [] => none

theorem hexValue_control (hc : c.toNat < 0x20) :
    Char.ofNat (16 * hexValue (hexDigit (c.toNat / 16)) + hexValue (hexDigit (c.toNat % 16))) = c := by
  conv_rhs => rw [← Char.ofNat_toNat c]
  generalize c.toNat = n at hc
  interval_cases n <;> rfl

theorem unescape_escape : unescape (escape c ++ r) = some (c, r) := by
  unfold escape
  split
  iterate 7 rfl
  next hquote hbackslash _ _ _ _ _ =>
    split
    · next hc => simp [unescape, hexValue_control hc]
    · unfold unescape
      split <;> simp_all

theorem escape_append_inj (h : escape c ++ r = escape d ++ s) : c = d ∧ r = s := by
  have heq := congrArg unescape h
  rw [unescape_escape, unescape_escape, Option.some.injEq, Prod.mk.injEq] at heq
  exact heq

theorem escape_append_ne : escape c ++ r ≠ '"' :: s := by
  intro h
  have heq := congrArg unescape h
  rw [unescape_escape] at heq
  obtain ⟨rfl, -⟩ : c = '"' ∧ r = s := by simpa [unescape] using heq
  cases h

theorem flatMap_escape_append_inj {cs ds : List Char}
    (h : cs.flatMap escape ++ '"' :: r = ds.flatMap escape ++ '"' :: s) : cs = ds ∧ r = s := by
  induction cs generalizing ds with
  | nil =>
    cases ds with
    | nil => simpa using h
    | cons d ds =>
      rw [List.flatMap_cons, List.append_assoc] at h
      exact absurd h.symm escape_append_ne
  | cons c cs ih =>
    rw [List.flatMap_cons, List.append_assoc] at h
    cases ds with
    | nil => exact absurd h escape_append_ne
    | cons d ds =>
      rw [List.flatMap_cons, List.append_assoc] at h
      obtain ⟨rfl, hrest⟩ := escape_append_inj h
      obtain ⟨rfl, rfl⟩ := ih hrest
      exact ⟨rfl, rfl⟩

theorem quote_append_inj {k l : String} (h : (quote k).toList ++ r = (quote l).toList ++ s) :
    k = l ∧ r = s := by
  simp only [quote, String.toList_ofList, List.cons_append, List.cons.injEq, true_and,
    List.append_assoc, List.nil_append] at h
  obtain ⟨hkl, rfl⟩ := flatMap_escape_append_inj h
  exact ⟨String.toList_injective hkl, rfl⟩

end Quote

section Number

variable {m n : Int} {r s : List Char}

def readInt : List Char → Int
  | '-' :: cs => -(Nat.ofDigitChars 10 cs 0 : Nat)
  | cs => (Nat.ofDigitChars 10 cs 0 : Nat)

theorem toList_toString (n : Int) : (toString n).toList =
    if 0 ≤ n then Nat.toDigits 10 n.toNat else '-' :: Nat.toDigits 10 (-n).toNat := by
  change n.repr.toList = _
  rw [Int.repr_eq_if]
  split <;> simp [Nat.repr_eq_ofList_toDigits]

theorem readInt_toString (n : Int) : readInt (toString n).toList = n := by
  rw [toList_toString]
  split
  · next hn =>
    unfold readInt
    split
    · next cs heq =>
      have hdigit : '-'.isDigit = true :=
        Nat.isDigit_of_mem_toDigits (by decide) (by decide) (heq ▸ List.mem_cons_self)
      cases hdigit
    · rw [Nat.ofDigitChars_ten_toDigits, Int.toNat_of_nonneg hn]
  · simp only [readInt, Nat.ofDigitChars_ten_toDigits]
    omega

def isNumeric (c : Char) : Bool :=
  c == '-' || c.isDigit

/-- The text of a number ends before such a rest. -/
def EndsNumber (r : List Char) : Prop :=
  ∀ c ∈ r.head?, isNumeric c = false

theorem isNumeric_of_mem_toString {c : Char} (h : c ∈ (toString n).toList) : isNumeric c = true := by
  have hdigits {k : Nat} (h : c ∈ Nat.toDigits 10 k) : isNumeric c = true := by
    simp [isNumeric, Nat.isDigit_of_mem_toDigits (by decide) (by decide) h]
  rw [toList_toString] at h
  split at h
  · exact hdigits h
  · rcases List.mem_cons.1 h with rfl | h
    · rfl
    · exact hdigits h

theorem takeWhile_isNumeric (h : EndsNumber r) :
    ((toString n).toList ++ r).takeWhile isNumeric = (toString n).toList := by
  rw [List.takeWhile_append_of_pos fun c hc ↦ isNumeric_of_mem_toString hc]
  cases r with
  | nil => simp
  | cons c r => simp [h c rfl]

theorem toString_append_inj (hr : EndsNumber r) (hs : EndsNumber s)
    (h : (toString m).toList ++ r = (toString n).toList ++ s) : m = n ∧ r = s := by
  have htext := congrArg (List.takeWhile isNumeric) h
  rw [takeWhile_isNumeric hr, takeWhile_isNumeric hs] at htext
  have hread := congrArg readInt htext
  rw [readInt_toString, readInt_toString] at hread
  subst hread
  exact ⟨rfl, List.append_cancel_left h⟩

theorem toString_ne_nil : (toString n).toList ≠ [] := by
  rw [toList_toString]
  split
  · exact Nat.toDigits_ne_nil
  · exact List.cons_ne_nil _ _

end Number

section Values

variable {depth : Nat} {r s : List Char}

def kind : Json → Nat
  | null => 0
  | bool _ => 1
  | num _ => 2
  | str _ => 3
  | arr _ => 4
  | obj _ => 5

def startKind (c : Char) : Nat :=
  if isNumeric c then 2
  else match c with
    | 'n' => 0
    | '"' => 3
    | '[' => 4
    | '\x7b' => 5
    | _ => 1

theorem startKind_prettyAt (j : Json) :
    (j.prettyAt depth).toList.head?.map startKind = some j.kind := by
  cases j with
  | null => simp [prettyAt, startKind, kind, isNumeric]
  | bool b => cases b <;> simp [prettyAt, startKind, kind, isNumeric]
  | num n =>
    cases htext : (toString n).toList with
    | nil => exact absurd htext toString_ne_nil
    | cons c cs =>
      have hnumeric : isNumeric c = true :=
        isNumeric_of_mem_toString (n := n) (htext ▸ List.mem_cons_self)
      rw [prettyAt, htext]
      simp [startKind, hnumeric, kind]
  | str t => simp [prettyAt, quote, startKind, kind, isNumeric]
  | arr xs => cases xs <;> simp [prettyAt, startKind, kind, isNumeric]
  | obj fs => rcases fs with _ | ⟨⟨k, v⟩, fs⟩ <;> simp [prettyAt, startKind, kind, isNumeric]

theorem kind_eq {j k : Json} (h : (j.prettyAt depth).toList ++ r = (k.prettyAt depth).toList ++ s) :
    j.kind = k.kind := by
  obtain ⟨c, hc, hj⟩ := Option.map_eq_some_iff.1 (startKind_prettyAt j)
  obtain ⟨d, hd, hk⟩ := Option.map_eq_some_iff.1 (startKind_prettyAt k)
  have hhead := congrArg List.head? h
  rw [List.head?_append, List.head?_append, hc, hd] at hhead
  cases hhead
  exact hj.symm.trans hk

theorem endsNumber_newline : EndsNumber ((newline depth).toList ++ r) := by
  intro c hc
  simp only [newline, String.toList_ofList, List.cons_append, List.head?_cons,
    Option.mem_some] at hc
  subst hc
  rfl

theorem endsNumber_comma : EndsNumber (',' :: r) := by
  intro c hc
  cases hc
  rfl

/-- The text of `j` is told from the texts of other values, whatever follows. -/
def Told (j : Json) : Prop :=
  ∀ (k : Json) (depth : Nat) (r s : List Char), EndsNumber r → EndsNumber s →
    (j.prettyAt depth).toList ++ r = (k.prettyAt depth).toList ++ s → j = k ∧ r = s

theorem endsNumber_items {xs : List Json} :
    EndsNumber ((prettyItems (depth + 1) xs).toList ++ ((newline depth).toList ++ r)) := by
  cases xs with
  | nil => simpa [prettyItems] using endsNumber_newline
  | cons x xs => simpa [prettyItems] using endsNumber_comma

theorem endsNumber_fields {fs : List (String × Json)} :
    EndsNumber ((prettyFields (depth + 1) fs).toList ++ ((newline depth).toList ++ r)) := by
  rcases fs with _ | ⟨⟨k, v⟩, fs⟩
  · simpa [prettyFields] using endsNumber_newline
  · simpa [prettyFields] using endsNumber_comma

theorem prettyItems_append_inj {xs ys : List Json} (htold : ∀ x ∈ xs, x.Told)
    (h : (prettyItems (depth + 1) xs).toList ++ ((newline depth).toList ++ r) =
      (prettyItems (depth + 1) ys).toList ++ ((newline depth).toList ++ s)) :
    xs = ys ∧ r = s := by
  induction xs generalizing ys with
  | nil =>
    cases ys with
    | nil => simpa [prettyItems] using h
    | cons y ys => simp [prettyItems, newline] at h
  | cons x xs ih =>
    cases ys with
    | nil => simp [prettyItems, newline] at h
    | cons y ys =>
      simp only [prettyItems, String.toList_append, List.append_assoc] at h
      have hvalue := List.append_cancel_left (List.append_cancel_left h)
      obtain ⟨rfl, hrest⟩ := htold x List.mem_cons_self y _ _ _ endsNumber_items endsNumber_items
        hvalue
      obtain ⟨rfl, rfl⟩ := ih (fun z hz ↦ htold z (List.mem_cons_of_mem x hz)) hrest
      exact ⟨rfl, rfl⟩

theorem prettyFields_append_inj {fs gs : List (String × Json)} (htold : ∀ f ∈ fs, f.2.Told)
    (h : (prettyFields (depth + 1) fs).toList ++ ((newline depth).toList ++ r) =
      (prettyFields (depth + 1) gs).toList ++ ((newline depth).toList ++ s)) :
    fs = gs ∧ r = s := by
  induction fs generalizing gs with
  | nil =>
    rcases gs with _ | ⟨⟨k, v⟩, gs⟩
    · simpa [prettyFields] using h
    · simp [prettyFields, newline] at h
  | cons f fs ih =>
    obtain ⟨k, v⟩ := f
    rcases gs with _ | ⟨⟨l, w⟩, gs⟩
    · simp [prettyFields, newline] at h
    · simp only [prettyFields, String.toList_append, List.append_assoc] at h
      obtain ⟨rfl, hvalue⟩ := quote_append_inj
        (List.append_cancel_left (List.append_cancel_left h))
      obtain ⟨rfl, hrest⟩ := htold (k, v) List.mem_cons_self w _ _ _ endsNumber_fields
        endsNumber_fields (List.append_cancel_left hvalue)
      obtain ⟨rfl, rfl⟩ := ih (fun g hg ↦ htold g (List.mem_cons_of_mem _ hg)) hrest
      exact ⟨rfl, rfl⟩

theorem told_arr {xs : List Json} (htold : ∀ x ∈ xs, x.Told) : (arr xs).Told := by
  intro k depth r s hr hs h
  have hkind := kind_eq h
  cases k with
  | arr ys =>
    cases xs with
    | nil =>
      cases ys with
      | nil => simpa [prettyAt] using h
      | cons y ys => simp [prettyAt, newline] at h
    | cons x xs =>
      cases ys with
      | nil => simp [prettyAt, newline] at h
      | cons y ys =>
        simp only [prettyAt, String.toList_append, List.append_assoc] at h
        have hvalue := List.append_cancel_left (List.append_cancel_left h)
        obtain ⟨rfl, hrest⟩ := htold x List.mem_cons_self y _ _ _ endsNumber_items
          endsNumber_items hvalue
        obtain ⟨rfl, hend⟩ := prettyItems_append_inj
          (fun z hz ↦ htold z (List.mem_cons_of_mem x hz)) hrest
        exact ⟨rfl, List.append_cancel_left hend⟩
  | _ => cases hkind

theorem told_obj {fs : List (String × Json)} (htold : ∀ f ∈ fs, f.2.Told) : (obj fs).Told := by
  intro k depth r s hr hs h
  have hkind := kind_eq h
  cases k with
  | obj gs =>
    rcases fs with _ | ⟨⟨k, v⟩, fs⟩ <;> rcases gs with _ | ⟨⟨l, w⟩, gs⟩
    · simpa [prettyAt] using h
    · simp [prettyAt, newline] at h
    · simp [prettyAt, newline] at h
    · simp only [prettyAt, String.toList_append, List.append_assoc] at h
      obtain ⟨rfl, hvalue⟩ := quote_append_inj
        (List.append_cancel_left (List.append_cancel_left h))
      obtain ⟨rfl, hrest⟩ := htold (k, v) List.mem_cons_self w _ _ _ endsNumber_fields
        endsNumber_fields (List.append_cancel_left hvalue)
      obtain ⟨rfl, hend⟩ := prettyFields_append_inj
        (fun g hg ↦ htold g (List.mem_cons_of_mem _ hg)) hrest
      exact ⟨rfl, List.append_cancel_left hend⟩
  | _ => cases hkind

theorem told : ∀ j : Json, j.Told
  | null => by
    intro k depth r s hr hs h
    have hkind := kind_eq h
    cases k with
    | null => exact ⟨rfl, List.append_cancel_left h⟩
    | _ => cases hkind
  | bool b => by
    intro k depth r s hr hs h
    have hkind := kind_eq h
    cases k with
    | bool c =>
      cases b <;> cases c
      · exact ⟨rfl, List.append_cancel_left h⟩
      · simp [prettyAt] at h
      · simp [prettyAt] at h
      · exact ⟨rfl, List.append_cancel_left h⟩
    | _ => cases hkind
  | num n => by
    intro k depth r s hr hs h
    have hkind := kind_eq h
    cases k with
    | num m =>
      obtain ⟨rfl, hrest⟩ := toString_append_inj hr hs h
      exact ⟨rfl, hrest⟩
    | _ => cases hkind
  | str t => by
    intro k depth r s hr hs h
    have hkind := kind_eq h
    cases k with
    | str u =>
      obtain ⟨rfl, hrest⟩ := quote_append_inj h
      exact ⟨rfl, hrest⟩
    | _ => cases hkind
  | arr xs => told_arr fun x _ ↦ told x
  | obj fs => told_obj fun f _ ↦ told f.2
termination_by j => sizeOf j
decreasing_by
  · next hx =>
    rw [arr.sizeOf_spec]
    have hlt := List.sizeOf_lt_of_mem hx
    omega
  · next hf =>
    rw [obj.sizeOf_spec]
    have hlt := List.sizeOf_lt_of_mem hf
    rw [Prod.mk.sizeOf_spec] at hlt
    omega

/-- No two values have the same text. -/
theorem pretty_injective {j k : Json} (h : j.pretty = k.pretty) : j = k := by
  have hend : EndsNumber [] := fun _ hc ↦ nomatch hc
  exact (told j k 0 [] [] hend hend (by rw [← pretty, ← pretty, h])).1

end Values

end TypeTag.Json
