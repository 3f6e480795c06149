import TypeTag.Descriptor.Mention
import TypeTag.Proofs.Descriptor.Order
import TypeTag.Proofs.Descriptor.Parts
import TypeTag.Proofs.Tags.MultiMap

namespace TypeTag

namespace Descriptor

variable {x : String} {d : Descriptor}

theorem lambda?_eq_some_iff {l : Lambda} : d.lambda? = some l ↔ d = l.toDescriptor := by
  cases l
  cases d <;> simp [lambda?, Lambda.toDescriptor]

theorem mem_typeNames_iff : x ∈ d.typeNames ↔ x ∈ d.mentions :=
  SortedSet.mem_ofList_iff

/-- What is mentioned if type functions make of the mentions in their bodies what is given. -/
def mentioningWith (lambda : List String → List String → List String) : Algebra (List String) :=
  { mentioning with lambda }

section MentioningWith

variable {f : List String → List String → List String}

theorem fold_mentioningWith (h : d.isApplied = true) : d.fold (mentioningWith f) =
    (d.symName?.map ownMention).getD [] ++ d.parts.flatMap (fold (mentioningWith f)) := by
  cases d with
  | name n =>
    obtain ⟨s, b, q⟩ := n
    cases b <;> cases q <;>
      simp [mentioningWith, mentioning, NameRef.map, Boundaries.map, symName?, parts,
        NameRef.types, Boundaries.types]
  | full s as q =>
    cases q <;> simp [mentioningWith, mentioning, TypeArg.map, symName?, parts, List.flatMap_map]
  | lambda ps b => cases h
  | intersection ps => simp [mentioningWith, mentioning, symName?, parts, List.flatMap_def]
  | refinement p ds =>
    simp only [fold_refinement, mentioningWith, mentioning, symName?, parts, Option.map_none,
      Option.getD_none, List.nil_append, List.flatMap_cons, List.flatMap_map, List.flatMap_assoc]
    congr 2
    funext c
    cases c <;> simp [Decl.map, Decl.types, List.flatMap_def]

theorem mem_fold_mentioningWith_iff (h : d.isApplied = true) :
    x ∈ d.fold (mentioningWith f) ↔
      d.symName? = some (.type x) ∨ ∃ e ∈ d.parts, x ∈ e.fold (mentioningWith f) := by
  rw [fold_mentioningWith h, List.mem_append, List.mem_flatMap]
  refine or_congr_left ?_
  cases d.symName? with
  | none => simp
  | some s => cases s <;> simp [ownMention, eq_comm]

end MentioningWith

theorem mem_mentions_iff :
    x ∈ d.mentions ↔ d.symName? = some (.type x) ∨ ∃ e ∈ d.parts, x ∈ e.mentions := by
  cases d with
  | lambda ps b => simp [mentions, mentioning, symName?, parts]
  | _ => exact mem_fold_mentioningWith_iff rfl

def Omits (x : String) (d : Descriptor) : Prop :=
  x ∉ d.mentions

theorem omits_iff : d.Omits x ↔ d.symName? ≠ some (.type x) ∧ ∀ e ∈ d.parts, e.Omits x := by
  simp [Omits, mem_mentions_iff (d := d)]

def opened : Descriptor → List Descriptor
  | intersection ps => ps
  | d => [d]

theorem intersect_eq (ps : List Descriptor) : intersect ps =
    match SortedSet.ofList (ps.flatMap opened) with
    | [d] => d
    | ds => intersection ds :=
  rfl

theorem intersect_parts (ps : List Descriptor) : ∃ ds : List Descriptor,
    (∀ d, d ∈ ds ↔ ∃ p ∈ ps, d ∈ p.opened) ∧
      (ds = [intersect ps] ∨ ds.length ≠ 1 ∧ intersect ps = intersection ds) := by
  refine ⟨SortedSet.ofList (ps.flatMap opened), fun d ↦ ?_, ?_⟩
  · rw [SortedSet.mem_ofList_iff, List.mem_flatMap]
  · rw [intersect_eq]
    split
    · next heq => exact .inl heq
    · next hne => exact .inr ⟨fun hlen ↦ (List.length_eq_one_iff.1 hlen).elim hne, rfl⟩

/-- What is intersected are the given parts and the parts of those that are intersections. -/
theorem intersect_cases (ps : List Descriptor) : ∃ opened : List Descriptor,
    (∀ d ∈ opened, d ∈ ps ∨ ∃ ds, intersection ds ∈ ps ∧ d ∈ ds) ∧
      (opened = [intersect ps] ∨ intersect ps = intersection opened) := by
  obtain ⟨ds, hds, hcases⟩ := intersect_parts ps
  refine ⟨ds, fun d hd ↦ ?_, hcases.imp_right And.right⟩
  obtain ⟨p, hp, hd⟩ := (hds d).1 hd
  cases p with
  | intersection es => exact .inr ⟨es, hp, hd⟩
  | _ => exact .inl (List.mem_singleton.1 hd ▸ hp)

end Descriptor

end TypeTag
