import TypeTag.Proofs.Descriptor.RoundTrip
import TypeTag.Proofs.Steps.Loops

namespace TypeTag

namespace Json

def value (fs : List (String × Json)) (k : String) : Json :=
  (lookup k fs).elim .null (·.1)

/-- The values of the fields of a record, in the order of their names. Not every record may be
written as an array. -/
def values? (asArray : Bool) (names : List String) : Json → Option (List Json)
  | arr xs => if asArray ∧ xs.length = names.length then some xs else none
  | obj fs => some (names.map (value fs))
  | _ => none

def partValue {j : Json} (p : Option j.Part) : Json :=
  p.elim .null (·.1)

theorem partValue_field? (fs : List (String × Json)) (k : String) :
    partValue (field? (obj fs) k) = value fs k := by
  rw [field?, value, partValue]
  cases lookup k fs <;> rfl

theorem record?_eq (names : List String) (j : Json) :
    (j.record? names).map (·.map partValue) = j.values? true names := by
  cases j with
  | arr xs =>
    by_cases h : xs.length = names.length <;>
      simp [record?, values?, items?, h, partValue, Function.comp_def]
  | obj fs => simp [record?, values?, partValue_field?, Function.comp_def]
  | _ => rfl

theorem object?_eq (names : List String) (j : Json) :
    (j.object? names).map (·.map partValue) = j.values? false names := by
  cases j with
  | arr xs => simp [object?, values?]
  | obj fs => simp [object?, values?, partValue_field?, Function.comp_def]
  | _ => rfl

end Json

section Fields

variable {α δ : Type}

def readField (read : Json → Option α) (rest : α → List Json → Option δ) :
    List Json → Option δ
  | [] => none
  | x :: xs => (read x).bind fun a ↦ rest a xs

def readEnd (d : δ) : List Json → Option δ
  | [] => some d
  | _ :: _ => none

variable {j : Json} {read : Json → Option α} {rest : α → List Json → Option δ}

theorem readField_part (h : read .null = none) (p : Option j.Part) (xs : List Json) :
    readField read rest (Json.partValue p :: xs) =
      p.bind fun x ↦ (read x.1).bind fun a ↦ rest a xs := by
  cases p with
  | none => simp [readField, Json.partValue, h]
  | some x => rfl

end Fields

def readQualifier : Json → Option (Option Descriptor)
  | .null => some none
  | j => (Descriptor.ofJson? j).map some

theorem readField_qualifier {δ : Type} {rest : Option Descriptor → List Json → Option δ} {j : Json}
    (p : Option j.Part) (xs : List Json) :
    readField readQualifier rest (Json.partValue p :: xs) =
      (readQualifier? (fun x _ ↦ Descriptor.ofJson? x) p).bind fun q ↦ rest q xs := by
  match p with
  | none => rfl
  | some ⟨x, hx⟩ => cases x <;> rfl

def Boundaries.ofJson? (j : Json) : Option (Boundaries Descriptor) :=
  read? j fun x _ ↦ Descriptor.ofJson? x

def TypeArg.ofJson? (j : Json) : Option (TypeArg Descriptor) :=
  read? j fun x _ ↦ Descriptor.ofJson? x

def Decl.ofJson? (j : Json) : Option (Decl Descriptor) :=
  read? j fun x _ ↦ Descriptor.ofJson? x

def readItems {α : Type} (read : Json → Option α) (j : Json) : Option (List α) :=
  readList? j fun x _ ↦ read x

def readSet {α : Type} [Ord α] (read : Json → Option α) (j : Json) : Option (List α) :=
  (readItems read j).map SortedSet.ofList

theorem Descriptor.ofJson?_null : Descriptor.ofJson? .null = none :=
  ofJson?.eq_1 .null

theorem Boundaries.ofJson?_null : ofJson? .null = none := by
  simp [ofJson?, read?, Json.bareVariant?, Json.variant?]

theorem SymName.ofJson?_null : ofJson? .null = none :=
  rfl

theorem Variance.ofJson?_null : ofJson? .null = none :=
  rfl

theorem Json.string?_null : string? .null = none :=
  rfl

theorem readItems_null {α : Type} (read : Json → Option α) : readItems read .null = none :=
  rfl

theorem readField_set {α δ : Type} [Ord α] (read : Json → Option α)
    (rest : List α → List Json → Option δ) : readField (readSet read) rest =
      readField (readItems read) fun as ↦ rest (SortedSet.ofList as) := by
  funext xs
  cases xs with
  | nil => rfl
  | cons x xs =>
    rw [readField, readField, readSet]
    exact Option.bind_map ..

section Records

variable {α β γ δ : Type} {j : Json} {readA : Json → Option α} {readB : Json → Option β}
  {readC : Json → Option γ}

theorem bind_fields₂ (o : Option (List (Option j.Part))) (hA : readA .null = none)
    (hB : readB .null = none) (make : α → β → δ) :
    (do
      let [some a, some b] ← o | none
      return make (← readA a.1) (← readB b.1)) =
    (o.map (·.map Json.partValue)).bind
      (readField readA fun a ↦ readField readB fun b ↦ readEnd (make a b)) := by
  rcases o with _ | _ | ⟨a, _ | ⟨b, _ | ⟨c, ps⟩⟩⟩
  · rfl
  · rfl
  · simp [readField]
  · cases a <;> cases b <;> simp [readField_part hA, readField_part hB, readEnd]
  · simp [readField, readEnd]

theorem bind_fields₃ (o : Option (List (Option j.Part))) (hA : readA .null = none)
    (hB : readB .null = none) (hC : readC .null = none) (make : α → β → γ → δ) :
    (do
      let [some a, some b, some c] ← o | none
      return make (← readA a.1) (← readB b.1) (← readC c.1)) =
    (o.map (·.map Json.partValue)).bind
      (readField readA fun a ↦ readField readB fun b ↦ readField readC fun c ↦
        readEnd (make a b c)) := by
  rcases o with _ | _ | ⟨a, _ | ⟨b, _ | ⟨c, _ | ⟨d, ps⟩⟩⟩⟩
  · rfl
  · rfl
  · simp [readField]
  · simp [readField]
  · cases a <;> cases b <;> cases c <;>
      simp [readField_part hA, readField_part hB, readField_part hC, readEnd]
  · simp [readField, readEnd]

theorem bind_fields_qualifier (o : Option (List (Option j.Part))) (hA : readA .null = none)
    (hB : readB .null = none) (make : α → β → Option Descriptor → δ) :
    (do
      let [some a, some b, q] ← o | none
      return make (← readA a.1) (← readB b.1)
        (← readQualifier? (fun x _ ↦ Descriptor.ofJson? x) q)) =
    (o.map (·.map Json.partValue)).bind
      (readField readA fun a ↦ readField readB fun b ↦ readField readQualifier fun q ↦
        readEnd (make a b q)) := by
  rcases o with _ | _ | ⟨a, _ | ⟨b, _ | ⟨q, _ | ⟨d, ps⟩⟩⟩⟩
  · rfl
  · rfl
  · simp [readField]
  · simp [readField]
  · cases a <;> cases b <;>
      simp [readField_part hA, readField_part hB, readField_qualifier, readEnd]
  · simp [readField, readEnd]

end Records

theorem TypeArg.ofJson?_eq (j : Json) : ofJson? j =
    (j.values? true ["reference", "variance"]).bind
      (readField Descriptor.ofJson? fun r ↦ readField Variance.ofJson? fun v ↦
        readEnd { reference := r, variance := v }) := by
  rw [← Json.record?_eq]
  exact bind_fields₂ _ Descriptor.ofJson?_null Variance.ofJson?_null mk

theorem NameRef.ofJson?_eq (j : Json) : ofJson? j =
    (j.values? true ["name", "boundaries", "prefix"]).bind
      (readField SymName.ofJson? fun s ↦ readField Boundaries.ofJson? fun b ↦
        readField readQualifier fun q ↦ readEnd { name := s, boundaries := b, qualifier := q }) := by
  rw [← Json.record?_eq]
  exact bind_fields_qualifier _ SymName.ofJson?_null Boundaries.ofJson?_null mk

theorem Boundaries.ofJson?_defined (j : Json) : ofJson? (.obj [("Defined", j)]) =
    (j.values? false ["lower", "upper"]).bind
      (readField Descriptor.ofJson? fun l ↦ readField Descriptor.ofJson? fun u ↦
        readEnd (defined l u)) := by
  have hbare : ¬(Json.obj [("Defined", j)]).bareVariant? = some "Empty" := by
    cases j <;> simp [Json.bareVariant?]
  rw [← Json.object?_eq, ofJson?, read?, if_neg hbare]
  exact bind_fields₂ _ Descriptor.ofJson?_null Descriptor.ofJson?_null defined

namespace Decl

theorem ofJson?_signature (j : Json) : ofJson? (.obj [("Signature", j)]) =
    (j.values? false ["name", "params", "result"]).bind
      (readField Json.string? fun s ↦ readField (readItems Descriptor.ofJson?) fun ps ↦
        readField Descriptor.ofJson? fun r ↦ readEnd (signature s ps r)) := by
  rw [← Json.object?_eq]
  exact bind_fields₃ _ Json.string?_null (readItems_null _) Descriptor.ofJson?_null signature

theorem ofJson?_typeMember (j : Json) : ofJson? (.obj [("TypeMember", j)]) =
    (j.values? false ["name", "reference"]).bind
      (readField Json.string? fun s ↦ readField Descriptor.ofJson? fun r ↦
        readEnd (typeMember s r)) := by
  rw [← Json.object?_eq]
  exact bind_fields₂ _ Json.string?_null Descriptor.ofJson?_null typeMember

end Decl

namespace Descriptor

theorem ofJson?_name (j : Json) : ofJson? (.obj [("Name", j)]) = (NameRef.ofJson? j).map name := by
  rw [ofJson?]
  cases h : NameRef.ofJson? j <;> simp_all [NameRef.ofJson?, Json.variant?]

theorem ofJson?_full (j : Json) : ofJson? (.obj [("Full", j)]) =
    (j.values? true ["name", "parameters", "prefix"]).bind
      (readField SymName.ofJson? fun s ↦ readField (readItems TypeArg.ofJson?) fun as ↦
        readField readQualifier fun q ↦ readEnd (full s as q)) := by
  rw [← Json.record?_eq, ofJson?]
  exact bind_fields_qualifier _ SymName.ofJson?_null (readItems_null _) full

theorem ofJson?_lambda (j : Json) : ofJson? (.obj [("Lambda", j)]) =
    (j.values? true ["params", "body"]).bind
      (readField (readItems Json.string?) fun ps ↦ readField ofJson? fun b ↦
        readEnd (lambda ps b)) := by
  rw [← Json.record?_eq, ofJson?]
  exact bind_fields₂ _ (readItems_null _) ofJson?_null lambda

theorem ofJson?_intersection (j : Json) : ofJson? (.obj [("Intersection", j)]) =
    (j.values? true ["parts"]).bind
      (readField (readSet ofJson?) fun ps ↦ readEnd (intersection ps)) := by
  rw [← Json.record?_eq, ofJson?, readField_set]
  simp only [Json.variant?, Option.bind_eq_bind, Option.bind_some]
  rcases j.record? ["parts"] with _ | _ | ⟨ps, _ | ⟨w, rest⟩⟩
  · rfl
  · rfl
  · cases ps <;> simp [readField_part (readItems_null _), readEnd, readItems]
  · simp [readField, readEnd]

theorem ofJson?_refinement (j : Json) : ofJson? (.obj [("Refinement", j)]) =
    (j.values? true ["parent", "decls"]).bind
      (readField ofJson? fun p ↦ readField (readSet Decl.ofJson?) fun ds ↦
        readEnd (refinement p ds)) := by
  simp only [readField_set]
  rw [← Json.record?_eq, ofJson?]
  exact bind_fields₂ _ ofJson?_null (readItems_null _) fun p ds ↦ refinement p (SortedSet.ofList ds)

end Descriptor

section Parts

variable {α : Type} {j : Json} {read : (x : Json) → sizeOf x < sizeOf j → Option α} {a : α}

theorem mem_readList? {as : List α} (h : readList? j read = some as) (ha : a ∈ as) :
    ∃ x hx, read x hx = some a := by
  obtain ⟨ps, -, hps⟩ := Option.bind_eq_some_iff.1 h
  obtain ⟨⟨x, hx⟩, -, hread⟩ := mem_mapM hps ha
  exact ⟨x, hx, hread⟩

theorem mem_readQualifier? {p : Option j.Part} (h : readQualifier? read p = some (some a)) :
    ∃ x hx, read x hx = some a := by
  match p with
  | none => cases h
  | some ⟨x, hx⟩ =>
    cases x with
    | null => cases h
    | _ =>
      obtain ⟨b, hb, hba⟩ := Option.map_eq_some_iff.1 h
      cases hba
      exact ⟨_, hx, hb⟩

theorem Boundaries.mem_types_read? {b : Boundaries α} (h : read? j read = some b)
    (ha : a ∈ b.types) : ∃ x hx, read x hx = some a := by
  unfold read? at h
  split at h
  · cases h
    cases ha
  · simp only [Option.bind_eq_bind, Option.bind_eq_some_iff] at h
    obtain ⟨⟨k, y, hy⟩, -, h⟩ := h
    split at h
    · obtain ⟨ps, -, h⟩ := Option.bind_eq_some_iff.1 h
      split at h
      · obtain ⟨l, hl, h⟩ := Option.bind_eq_some_iff.1 h
        obtain ⟨u, hu, h⟩ := Option.bind_eq_some_iff.1 h
        cases h
        rcases List.mem_cons.1 ha with rfl | ha
        · exact ⟨_, _, hl⟩
        · obtain rfl := List.mem_singleton.1 ha
          exact ⟨_, _, hu⟩
      · cases h
    · cases h

theorem NameRef.mem_types_read? {n : NameRef α} (h : read? j read = some n) (ha : a ∈ n.types) :
    ∃ x hx, read x hx = some a := by
  obtain ⟨ps, -, h⟩ := Option.bind_eq_some_iff.1 h
  split at h
  · obtain ⟨s, -, h⟩ := Option.bind_eq_some_iff.1 h
    obtain ⟨b, hb, h⟩ := Option.bind_eq_some_iff.1 h
    obtain ⟨q, hq, h⟩ := Option.bind_eq_some_iff.1 h
    cases h
    rcases List.mem_append.1 ha with ha | ha
    · obtain ⟨x, hx, hread⟩ := Boundaries.mem_types_read? hb ha
      exact ⟨x, _, hread⟩
    · obtain rfl := Option.mem_toList.1 ha
      exact mem_readQualifier? hq
  · cases h

theorem TypeArg.reference_read? {b : TypeArg α} (h : read? j read = some b) :
    ∃ x hx, read x hx = some b.reference := by
  obtain ⟨ps, -, h⟩ := Option.bind_eq_some_iff.1 h
  split at h
  · obtain ⟨r, hr, h⟩ := Option.bind_eq_some_iff.1 h
    obtain ⟨v, -, h⟩ := Option.bind_eq_some_iff.1 h
    cases h
    exact ⟨_, _, hr⟩
  · cases h

theorem Decl.mem_types_read? {d : Decl α} (h : read? j read = some d) (ha : a ∈ d.types) :
    ∃ x hx, read x hx = some a := by
  obtain ⟨⟨k, y, hy⟩, -, h⟩ := Option.bind_eq_some_iff.1 h
  dsimp only at h
  split at h
  · obtain ⟨ps, -, h⟩ := Option.bind_eq_some_iff.1 h
    split at h
    · obtain ⟨s, -, h⟩ := Option.bind_eq_some_iff.1 h
      obtain ⟨qs, hqs, h⟩ := Option.bind_eq_some_iff.1 h
      obtain ⟨r, hr, h⟩ := Option.bind_eq_some_iff.1 h
      cases h
      rcases List.mem_append.1 ha with ha | ha
      · obtain ⟨x, hx, hread⟩ := mem_readList? hqs ha
        exact ⟨x, _, hread⟩
      · obtain rfl := List.mem_singleton.1 ha
        exact ⟨_, _, hr⟩
    · cases h
  · obtain ⟨ps, -, h⟩ := Option.bind_eq_some_iff.1 h
    split at h
    · obtain ⟨s, -, h⟩ := Option.bind_eq_some_iff.1 h
      obtain ⟨r, hr, h⟩ := Option.bind_eq_some_iff.1 h
      cases h
      obtain rfl := List.mem_singleton.1 ha
      exact ⟨_, _, hr⟩
    · cases h
  · cases h

end Parts

namespace Descriptor

variable {j : Json} {d e : Descriptor}

/-- The sets of the descriptor are in order, and each part of it was read from a smaller value. -/
structure ReadFrom (j : Json) (d : Descriptor) : Prop where
  increasing : d.SetIncreasing
  parts : ∀ e ∈ d.parts, ∃ x, sizeOf x < sizeOf j ∧ ofJson? x = some e

theorem readFrom_name {b : Json} (hb : sizeOf b < sizeOf j) {n : NameRef Descriptor}
    (h : NameRef.read? b (fun x _ ↦ ofJson? x) = some n) : ReadFrom j (.name n) := by
  refine ⟨trivial, fun e he ↦ ?_⟩
  obtain ⟨x, hx, hread⟩ := NameRef.mem_types_read? h he
  exact ⟨x, Nat.lt_trans hx hb, hread⟩

theorem readFrom_full {b : Json} (hb : sizeOf b < sizeOf j) (s : SymName) {as : b.Part}
    {as' : List (TypeArg Descriptor)} {q : Option b.Part} {q' : Option Descriptor}
    (has : readList? as.1 (fun x _ ↦ TypeArg.read? x fun y _ ↦ ofJson? y) = some as')
    (hq : readQualifier? (fun x _ ↦ ofJson? x) q = some q') : ReadFrom j (.full s as' q') := by
  refine ⟨trivial, fun e he ↦ ?_⟩
  rcases List.mem_append.1 he with he | he
  · obtain ⟨a, ha, rfl⟩ := List.mem_map.1 he
    obtain ⟨x, hx, hread⟩ := mem_readList? has ha
    obtain ⟨y, hy, hread⟩ := TypeArg.reference_read? hread
    exact ⟨y, Nat.lt_trans hy (Nat.lt_trans hx (Nat.lt_trans as.2 hb)), hread⟩
  · obtain rfl := Option.mem_toList.1 he
    obtain ⟨x, hx, hread⟩ := mem_readQualifier? hq
    exact ⟨x, Nat.lt_trans hx hb, hread⟩

theorem readFrom_lambda {b : Json} (hb : sizeOf b < sizeOf j) (ps : List String) {r : b.Part}
    {r' : Descriptor} (hr : ofJson? r.1 = some r') : ReadFrom j (.lambda ps r') := by
  refine ⟨trivial, fun e he ↦ ?_⟩
  obtain rfl := List.mem_singleton.1 he
  exact ⟨r.1, Nat.lt_trans r.2 hb, hr⟩

theorem readFrom_intersection {b : Json} (hb : sizeOf b < sizeOf j) {ps : b.Part}
    {ps' : List Descriptor} (hps : readList? ps.1 (fun x _ ↦ ofJson? x) = some ps') :
    ReadFrom j (.intersection (SortedSet.ofList ps')) := by
  refine ⟨SortedSet.increasing_ofList, fun e he ↦ ?_⟩
  obtain ⟨x, hx, hread⟩ := mem_readList? hps (SortedSet.mem_ofList_iff.1 he)
  exact ⟨x, Nat.lt_trans hx (Nat.lt_trans ps.2 hb), hread⟩

theorem readFrom_refinement {b : Json} (hb : sizeOf b < sizeOf j) {p ds : b.Part}
    {p' : Descriptor} {ds' : List (Decl Descriptor)} (hp : ofJson? p.1 = some p')
    (hds : readList? ds.1 (fun x _ ↦ Decl.read? x fun y _ ↦ ofJson? y) = some ds') :
    ReadFrom j (.refinement p' (SortedSet.ofList ds')) := by
  refine ⟨SortedSet.increasing_ofList, fun e he ↦ ?_⟩
  rcases List.mem_cons.1 he with rfl | he
  · exact ⟨p.1, Nat.lt_trans p.2 hb, hp⟩
  · obtain ⟨d, hd, he⟩ := List.mem_flatMap.1 he
    obtain ⟨x, hx, hread⟩ := mem_readList? hds (SortedSet.mem_ofList_iff.1 hd)
    obtain ⟨y, hy, hread⟩ := Decl.mem_types_read? hread he
    exact ⟨y, Nat.lt_trans hy (Nat.lt_trans hx (Nat.lt_trans ds.2 hb)), hread⟩

theorem readFrom_of_ofJson? (h : ofJson? j = some d) : ReadFrom j d := by
  rw [ofJson?] at h
  obtain ⟨⟨k, b, hb⟩, -, h⟩ := Option.bind_eq_some_iff.1 h
  dsimp only at h
  split at h
  · obtain ⟨n, hn, h⟩ := Option.bind_eq_some_iff.1 h
    cases h
    exact readFrom_name hb hn
  · obtain ⟨ps, -, h⟩ := Option.bind_eq_some_iff.1 h
    split at h
    · obtain ⟨s, -, h⟩ := Option.bind_eq_some_iff.1 h
      obtain ⟨as, has, h⟩ := Option.bind_eq_some_iff.1 h
      obtain ⟨q, hq, h⟩ := Option.bind_eq_some_iff.1 h
      cases h
      exact readFrom_full hb s has hq
    · cases h
  · obtain ⟨ps, -, h⟩ := Option.bind_eq_some_iff.1 h
    split at h
    · obtain ⟨ps, -, h⟩ := Option.bind_eq_some_iff.1 h
      obtain ⟨r, hr, h⟩ := Option.bind_eq_some_iff.1 h
      cases h
      exact readFrom_lambda hb ps hr
    · cases h
  · obtain ⟨ps, -, h⟩ := Option.bind_eq_some_iff.1 h
    split at h
    · obtain ⟨ps, hps, h⟩ := Option.bind_eq_some_iff.1 h
      cases h
      exact readFrom_intersection hb hps
    · cases h
  · obtain ⟨ps, -, h⟩ := Option.bind_eq_some_iff.1 h
    split at h
    · obtain ⟨p, hp, h⟩ := Option.bind_eq_some_iff.1 h
      obtain ⟨ds, hds, h⟩ := Option.bind_eq_some_iff.1 h
      cases h
      exact readFrom_refinement hb hp hds
    · cases h
  · cases h

theorem canonical_of_ofJson? {j : Json} {d : Descriptor} (h : ofJson? j = some d) :
    d.Canonical := by
  obtain ⟨hset, hparts⟩ := readFrom_of_ofJson? h
  refine canonical_iff.2 ⟨hset, fun e he ↦ ?_⟩
  obtain ⟨x, hx, hread⟩ := hparts e he
  exact canonical_of_ofJson? hread
termination_by sizeOf j

end Descriptor

theorem NameRef.canonical_of_ofJson? {j : Json} {n : NameRef Descriptor} (h : ofJson? j = some n) :
    n.Canonical := by
  intro d hd
  obtain ⟨x, -, hread⟩ := mem_types_read? h hd
  exact Descriptor.canonical_of_ofJson? hread

end TypeTag
