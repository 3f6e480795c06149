import TypeTag.Proofs.Descriptor.Parts
import TypeTag.Proofs.Descriptor.TotalOrder
import TypeTag.Proofs.Tags.Ordered
import TypeTag.Descriptor.Codec

namespace TypeTag

theorem Variance.ofJson?_toJson (v : Variance) : ofJson? v.toJson = some v := by
  cases v <;> rfl

theorem SymName.ofJson?_toJson (s : SymName) : ofJson? s.toJson = some s := by
  cases s <;> rfl

section Readers

variable {α : Type} {write : α → Json} {j : Json}
  {read : (x : Json) → sizeOf x < sizeOf j → Option α}

theorem mapM_parts {ps : List j.Part} {as : List α} (hps : ps.map Subtype.val = as.map write)
    (h : ∀ a ∈ as, ∀ hlt, read (write a) hlt = some a) :
    ps.mapM (fun x ↦ read x.1 x.2) = some as := by
  induction as generalizing ps with
  | nil =>
    obtain rfl := List.map_eq_nil_iff.1 hps
    rfl
  | cons a as ih =>
    obtain ⟨⟨x, hx⟩, ps, rfl, rfl, htail⟩ := List.map_eq_cons_iff.1 hps
    rw [List.mapM_cons, h a List.mem_cons_self hx,
      ih htail fun b hb ↦ h b (List.mem_cons_of_mem a hb)]
    rfl

theorem readList?_arr {as : List α} (hj : j = .arr (as.map write))
    (h : ∀ a ∈ as, ∀ hlt, read (write a) hlt = some a) : readList? j read = some as := by
  subst hj
  refine mapM_parts ?_ h
  rw [List.map_map]
  exact List.attach_map_subtype_val _

theorem readQualifier?_getD {q : Option α} {hlt : sizeOf ((q.map write).getD .null) < sizeOf j}
    (h : ∀ a ∈ q, ∀ hlt, read (write a) hlt = some a) (hnull : ∀ a, write a ≠ .null) :
    readQualifier? read (some ⟨(q.map write).getD .null, hlt⟩) = some q := by
  cases q with
  | none => rfl
  | some a =>
    have hread : (read (write a) hlt).map some = some (some a) := by
      rw [h a rfl hlt]
      rfl
    rw [← hread]
    exact readQualifier?.eq_3 read _ hlt (hnull a)

theorem Boundaries.read?_toJson {b : Boundaries α} (hj : j = (b.map write).toJson)
    (h : ∀ a ∈ b.types, ∀ hlt, read (write a) hlt = some a) : read? j read = some b := by
  subst hj
  cases b with
  | empty => rfl
  | defined l u =>
    have hl := h l (by simp [types])
    have hu := h u (by simp [types])
    simp [read?, map, toJson, Json.bareVariant?, Json.variant?, Json.object?, Json.field?,
      Json.lookup, hl, hu]

theorem NameRef.read?_json {n : NameRef α} (hj : j = (n.map write).json)
    (h : ∀ a ∈ n.types, ∀ hlt, read (write a) hlt = some a) (hnull : ∀ a, write a ≠ .null) :
    read? j read = some n := by
  subst hj
  obtain ⟨s, b, q⟩ := n
  have hb (lt : ∀ x, sizeOf x < sizeOf (b.map write).toJson → _) :
      Boundaries.read? (b.map write).toJson (fun x hx ↦ read x (lt x hx)) = some b :=
    Boundaries.read?_toJson rfl fun a ha _ ↦ h a (List.mem_append_left _ ha) _
  have hq (hlt) : readQualifier? read (some ⟨(q.map write).getD .null, hlt⟩) = some q :=
    readQualifier?_getD
      (fun a ha ↦ h a (List.mem_append_right _ (Option.mem_toList.2 ha))) hnull
  simp only [read?, map, json, Json.record?, List.map_cons, Json.field?, Json.lookup, ↓reduceIte,
    Option.map_some, String.reduceEq, List.map_nil, Option.pure_def, Option.bind_eq_bind,
    Option.bind_some, SymName.ofJson?_toJson, hb]
  exact Option.bind_eq_some_iff.2 ⟨q, hq _, rfl⟩

theorem TypeArg.read?_toJson {a : TypeArg α} (hj : j = (a.map write).toJson)
    (h : ∀ hlt, read (write a.reference) hlt = some a.reference) : read? j read = some a := by
  subst hj
  simp [read?, map, toJson, Json.record?, Json.field?, Json.lookup, h, Variance.ofJson?_toJson]

theorem Decl.read?_toJson {d : Decl α} (hj : j = (d.map write).toJson)
    (h : ∀ a ∈ d.types, ∀ hlt, read (write a) hlt = some a) : read? j read = some d := by
  subst hj
  cases d with
  | signature s ps r =>
    have hps (lt : ∀ x, sizeOf x < sizeOf (Json.arr (ps.map write)) → _) :
        readList? (.arr (ps.map write)) (fun x hx ↦ read x (lt x hx)) = some ps :=
      readList?_arr rfl fun a ha _ ↦ h a (List.mem_append_left _ ha) _
    have hr := h r (List.mem_append_right _ (List.mem_singleton_self r))
    simp [read?, map, toJson, Json.variant?, Json.object?, Json.field?, Json.lookup, Json.string?,
      hps, hr]
  | typeMember s r =>
    have hr := h r (List.mem_singleton_self r)
    simp [read?, map, toJson, Json.variant?, Json.object?, Json.field?, Json.lookup, Json.string?,
      hr]

end Readers

namespace Descriptor

def SetIncreasing : Descriptor → Prop
  | intersection ps => SortedSet.Increasing ps
  | refinement _ ds => SortedSet.Increasing ds
  | _ => True

/-- The sets of a descriptor increase at every depth, as those of all descriptors that are data of
the program do. -/
def Canonical (d : Descriptor) : Prop :=
  ∀ e : Descriptor, e.OccursIn d → e.SetIncreasing

variable {d e : Descriptor}

theorem Canonical.part (h : d.Canonical) (he : e ∈ d.parts) : e.Canonical :=
  fun a ha ↦ h a (ha.of_part he)

theorem canonical_iff : d.Canonical ↔ d.SetIncreasing ∧ ∀ e ∈ d.parts, e.Canonical := by
  constructor
  · exact fun h ↦ ⟨h d (.refl d), fun _ he ↦ h.part he⟩
  · rintro ⟨hset, hparts⟩ e he
    rcases occursIn_iff.1 he with rfl | ⟨a, ha, he⟩
    · exact hset
    · exact hparts a ha e he

theorem canonical_typeName (s : String) : (typeName s).Canonical :=
  canonical_iff.2 ⟨trivial, fun _ he ↦ (nomatch he)⟩

theorem toJson_name (n : NameRef Descriptor) :
    (name n).toJson = .obj [("Name", n.toJson)] := by
  rw [toJson, fold_name]
  rfl

theorem toJson_full (s : SymName) (as : List (TypeArg Descriptor)) (q : Option Descriptor) :
    (full s as q).toJson = .obj [("Full", .obj [("name", s.toJson),
      ("parameters", .arr (as.map fun a ↦ (a.map toJson).toJson)),
      ("prefix", (q.map toJson).getD .null)])] := by
  rw [toJson, fold_full]
  simp only [writing, List.map_map]
  rfl

theorem toJson_lambda (ps : List String) (b : Descriptor) : (lambda ps b).toJson =
    .obj [("Lambda", .obj [("params", .arr (ps.map .str)), ("body", b.toJson)])] := by
  rw [toJson, fold_lambda]
  rfl

theorem toJson_intersection (ps : List Descriptor) : (intersection ps).toJson =
    .obj [("Intersection", .obj [("parts", .arr (ps.map toJson))])] := by
  rw [toJson, fold_intersection]
  rfl

theorem toJson_refinement (p : Descriptor) (ds : List (Decl Descriptor)) :
    (refinement p ds).toJson = .obj [("Refinement", .obj [("parent", p.toJson),
      ("decls", .arr (ds.map fun d ↦ (d.map toJson).toJson))])] := by
  rw [toJson, fold_refinement]
  simp only [writing, List.map_map]
  rfl

theorem toJson_ne_null (d : Descriptor) : d.toJson ≠ .null := by
  cases d <;> simp [toJson_name, toJson_full, toJson_lambda, toJson_intersection,
    toJson_refinement]

theorem ofJson?_toJson_of_canonical : d.Canonical → ofJson? d.toJson = some d := by
  induction d using parts_induction with
  | step d ih =>
  intro h
  have read (e : Descriptor) (he : e ∈ d.parts) : ofJson? e.toJson = some e :=
    ih e he (h.part he)
  have hset : d.SetIncreasing := h d (.refl d)
  cases d with
  | name n =>
    have hn : NameRef.read? n.toJson (fun x _ ↦ ofJson? x) = some n :=
      NameRef.read?_json rfl (fun a ha _ ↦ read a ha) toJson_ne_null
    rw [toJson_name, ofJson?]
    simp [Json.variant?, hn]
  | full s as q =>
    have has : readList? (.arr (as.map fun a ↦ (a.map toJson).toJson))
        (fun x _ ↦ TypeArg.read? x fun y _ ↦ ofJson? y) = some as :=
      readList?_arr rfl fun a ha _ ↦ TypeArg.read?_toJson rfl fun _ ↦
        read _ (List.mem_append_left _ (List.mem_map_of_mem ha))
    have hq {j : Json} (hlt : sizeOf ((q.map toJson).getD .null) < sizeOf j) :
        readQualifier? (fun x _ ↦ ofJson? x) (some ⟨(q.map toJson).getD .null, hlt⟩) = some q :=
      readQualifier?_getD
        (fun a ha _ ↦ read a (List.mem_append_right _ (Option.mem_toList.2 ha))) toJson_ne_null
    rw [toJson_full, ofJson?]
    simp [Json.variant?, Json.record?, Json.field?, Json.lookup, SymName.ofJson?_toJson, has, hq]
  | lambda ps b =>
    have hps : readList? (.arr (ps.map .str)) (fun x _ ↦ x.string?) = some ps :=
      readList?_arr rfl fun _ _ _ ↦ rfl
    rw [toJson_lambda, ofJson?]
    simp [Json.variant?, Json.record?, Json.field?, Json.lookup, hps,
      read b (List.mem_singleton_self b)]
  | intersection ps =>
    have hps : readList? (.arr (ps.map toJson)) (fun x _ ↦ ofJson? x) = some ps :=
      readList?_arr rfl fun a ha _ ↦ read a ha
    rw [toJson_intersection, ofJson?]
    simp [Json.variant?, Json.record?, Json.field?, Json.lookup, hps,
      SortedSet.ofList_eq_self hset]
  | refinement p ds =>
    have hds : readList? (.arr (ds.map fun d ↦ (d.map toJson).toJson))
        (fun x _ ↦ Decl.read? x fun y _ ↦ ofJson? y) = some ds :=
      readList?_arr rfl fun d hd _ ↦ Decl.read?_toJson rfl fun a ha _ ↦
        read a (List.mem_cons_of_mem p (List.mem_flatMap.2 ⟨d, hd, ha⟩))
    rw [toJson_refinement, ofJson?]
    simp [Json.variant?, Json.record?, Json.field?, Json.lookup, hds,
      read p List.mem_cons_self, SortedSet.ofList_eq_self hset]

end Descriptor

def NameRef.Canonical (n : NameRef Descriptor) : Prop :=
  ∀ d ∈ n.types, d.Canonical

theorem NameRef.ofJson?_toJson_of_canonical {n : NameRef Descriptor} (h : n.Canonical) :
    ofJson? n.toJson = some n :=
  read?_json rfl (fun a ha _ ↦ Descriptor.ofJson?_toJson_of_canonical (h a ha))
    Descriptor.toJson_ne_null

end TypeTag
