import TypeTag.Proofs.Descriptor.RoundTrip
import TypeTag.Tag

namespace TypeTag

open Std

namespace MultiMap

variable {K V : Type} [Ord K] [Ord V] {m : MultiMap K V} {writeKey : K → Json}
  {writeValue : V → Json} {readKey : Json → Option K} {readValue : Json → Option V}

theorem Ordered.ofJson?_toJson [TransOrd K] [TransOrd V] (h : m.Ordered)
    (hk : ∀ e ∈ m.entries, readKey (writeKey e.1) = some e.1)
    (hv : ∀ e ∈ m.entries, ∀ v ∈ e.2, readValue (writeValue v) = some v) :
    ofJson? readKey readValue (m.toJson writeKey writeValue) = some m := by
  have hentries : readList? (m.toJson writeKey writeValue)
      (fun x _ ↦ readPair? readKey readValue x) = some m.entries := by
    refine readList?_arr rfl fun e he _ ↦ ?_
    have hvalues : readList? (.arr (e.2.map writeValue)) (fun v _ ↦ readValue v) = some e.2 :=
      readList?_arr rfl fun v hv' _ ↦ hv e he v hv'
    simp [readPair?, Json.items?, hk e he, hvalues]
  simp [ofJson?, hentries, ofEntries_entries h]

theorem Reached.ofJson?_toJson [TransOrd K] [LawfulEqOrd K] [TransOrd V] [LawfulEqOrd V]
    {P : K → Prop} {Q : V → Prop} (h : Reached P Q m)
    (hk : ∀ k, P k → readKey (writeKey k) = some k)
    (hv : ∀ v, Q v → readValue (writeValue v) = some v) :
    ofJson? readKey readValue (m.toJson writeKey writeValue) = some m :=
  h.ordered.ofJson?_toJson (fun e he ↦ hk e.1 (h.key he)) fun _ he v hv' ↦ hv v (h.value he hv')

end MultiMap

theorem Tag.ofJson?_toJson_of_canonical {t : Tag} (hr : t.reference.Canonical)
    (hs : t.stableBases.Reached Descriptor.Canonical Descriptor.Canonical)
    (hu : t.unapplied.Reached NameRef.Canonical NameRef.Canonical) :
    ofJson? t.toJson = some t := by
  have hr' := Descriptor.ofJson?_toJson_of_canonical hr
  have hs' := hs.ofJson?_toJson (fun _ ↦ Descriptor.ofJson?_toJson_of_canonical)
    fun _ ↦ Descriptor.ofJson?_toJson_of_canonical
  have hu' := hu.ofJson?_toJson (fun _ ↦ NameRef.ofJson?_toJson_of_canonical)
    fun _ ↦ NameRef.ofJson?_toJson_of_canonical
  simp [ofJson?, toJson, Json.record?, Json.field?, Json.lookup, hr', hs', hu']

/-- Descriptors, multimaps whose elements are read back, and tags are all read back from what they
are written as, without failure. -/
theorem json_round_trip :
    (∀ d : Descriptor, d.Canonical → Descriptor.ofJson? d.toJson = some d) ∧
    (∀ (K V : Type) [Ord K] [TransOrd K] [LawfulEqOrd K] [Ord V] [TransOrd V] [LawfulEqOrd V]
      (P : K → Prop) (Q : V → Prop) (writeKey : K → Json) (readKey : Json → Option K)
      (writeValue : V → Json) (readValue : Json → Option V) (m : MultiMap K V),
      (∀ k, P k → readKey (writeKey k) = some k) →
      (∀ v, Q v → readValue (writeValue v) = some v) → m.Reached P Q →
      MultiMap.ofJson? readKey readValue (m.toJson writeKey writeValue) = some m) ∧
    ∀ t : Tag, t.reference.Canonical →
      t.stableBases.Reached Descriptor.Canonical Descriptor.Canonical →
      t.unapplied.Reached NameRef.Canonical NameRef.Canonical → Tag.ofJson? t.toJson = some t :=
  ⟨fun _ ↦ Descriptor.ofJson?_toJson_of_canonical,
    fun _ _ _ _ _ _ _ _ _ _ _ _ _ _ _ hk hv h ↦ h.ofJson?_toJson hk hv,
    fun _ ↦ Tag.ofJson?_toJson_of_canonical⟩

section Sample

open Descriptor

def sampleDescriptor : Descriptor :=
  lambda ["0"] (intersection [typeName "0", typeName "A"])

def sampleTag : Tag where
  reference := sampleDescriptor
  stableBases := .ofList [(sampleDescriptor, typeName "B"), (sampleDescriptor, sampleDescriptor)]
  unapplied := .insert .empty { name := .type "A" }
    { name := .type "B", boundaries := .defined (typeName "0") sampleDescriptor }

theorem canonical_sampleDescriptor : sampleDescriptor.Canonical := by
  refine canonical_iff.2 ⟨trivial, fun e he ↦ ?_⟩
  obtain rfl := List.mem_singleton.1 he
  refine canonical_iff.2 ⟨?_, fun e he ↦ ?_⟩
  · have hset : SortedSet.Increasing [typeName "0", typeName "A"] := by
      unfold SortedSet.Increasing
      decide +kernel
    exact hset
  · rcases List.mem_cons.1 he with rfl | he
    · exact canonical_typeName _
    · obtain rfl := List.mem_singleton.1 he
      exact canonical_typeName _

theorem json_round_trip_sampleTag :
    ofJson? sampleDescriptor.toJson = some sampleDescriptor ∧
    MultiMap.ofJson? Json.string? Json.string?
      ((MultiMap.ofList [("a", "c"), ("a", "b")]).toJson .str .str) =
        some (.ofList [("a", "c"), ("a", "b")]) ∧
    Tag.ofJson? sampleTag.toJson = some sampleTag := by
  have hs := canonical_sampleDescriptor
  refine ⟨json_round_trip.1 _ hs, json_round_trip.2.1 String String (fun _ ↦ True) (fun _ ↦ True)
    .str Json.string? .str Json.string? _ (fun _ _ ↦ rfl) (fun _ _ ↦ rfl)
    (.ofList fun _ _ ↦ ⟨trivial, trivial⟩), json_round_trip.2.2 sampleTag hs (.ofList ?_)
    (.insert .empty (fun _ h ↦ (nomatch h)) ?_)⟩
  · simp [hs, canonical_typeName]
  · simp [NameRef.Canonical, NameRef.types, Boundaries.types, hs, canonical_typeName]

end Sample

end TypeTag
