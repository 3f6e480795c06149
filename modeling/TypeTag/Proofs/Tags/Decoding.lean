import TypeTag.Proofs.Builds.Sets
import TypeTag.Proofs.Tags.Grammar
import TypeTag.Proofs.Tags.RoundTrip

namespace TypeTag

open Build
open Descriptor (Canonical)

namespace Descriptor

variable {d : Descriptor}

theorem Canonical.collapsed (h : d.Canonical) : d.collapsed.Canonical := by
  unfold Descriptor.collapsed
  split
  · next l hl =>
    split
    · exact h
    · rw [lambda?_eq_some_iff.1 hl] at h
      exact h.part (List.mem_singleton_self _)
  · exact h

theorem Canonical.bareName (h : d.Canonical) {m : NameRef Descriptor} (hm : d.asName? = some m) :
    NameRef.Canonical { m with boundaries := .empty } := by
  intro e he
  have hq : e ∈ m.qualifier := Option.mem_toList.1 he
  cases d with
  | name n =>
    cases hm
    exact h.part (List.mem_append_right _ (Option.mem_toList.2 hq))
  | full s as q =>
    cases hm
    exact h.part (List.mem_append_right _ (Option.mem_toList.2 hq))
  | _ => cases hm

end Descriptor

namespace SymbolTable

variable {u : SymbolTable} {n : Nat} {t : Ty}

theorem ownName_canonical {m : NameRef Descriptor}
    (h : (u.ownName n t).value? = some (some m)) : m.Canonical := by
  unfold ownName at h
  split at h
  · cases h
  · obtain ⟨q, hq, h⟩ := value?_bind_iff.1 h
    cases h
    exact canonical_nameRef (fun _ hd ↦ nomatch hd) (qualifierOf_canonical (canonizing u n) q hq)

/-- A tag that is built is read back from what it is written as. -/
theorem ofJson?_toJson_tag {tag : Tag} (h : Ends (u.tag · t) (some tag)) :
    Tag.ofJson? tag.toJson = some tag := by
  obtain ⟨n, hn⟩ := h
  have htag := outcome_eq_some_some_iff.1 (hn n (Nat.le_refl n))
  obtain ⟨d, ts, cs, -, ⟨m, hm⟩, -, -, hstable, hunapplied⟩ := tag_value? htag
  have hreference := outcome_eq_some_some_iff.1 (hm m (Nat.le_refl m))
  exact Tag.ofJson?_toJson_of_canonical (describeAlone_canonical _ hreference)
    (stableBases_reached (describeAlone_canonical _) Canonical.collapsed hstable)
    (unappliedInheritance_reached ownName_canonical
      (fun hd hm ↦ (describeAlone_canonical _ hd).bareName hm) hunapplied)

end SymbolTable

end TypeTag
