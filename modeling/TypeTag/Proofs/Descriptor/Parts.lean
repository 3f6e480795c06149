import Mathlib.Logic.Relation
import TypeTag.Descriptor.Basic

namespace TypeTag

section Types

variable {α : Type}

def Boundaries.types : Boundaries α → List α
  | empty => []
  | defined l u => [l, u]

def NameRef.types (n : NameRef α) : List α :=
  n.boundaries.types ++ n.qualifier.toList

def Decl.types : Decl α → List α
  | signature _ ps r => ps ++ [r]
  | typeMember _ r => [r]

variable [SizeOf α] {a : α}

theorem Boundaries.sizeOf_lt_of_mem_types {b : Boundaries α} (h : a ∈ b.types) :
    sizeOf a < sizeOf b := by
  cases b with
  | empty => cases h
  | defined l u =>
    rw [defined.sizeOf_spec]
    rcases List.mem_cons.1 h with rfl | h
    · omega
    · obtain rfl := List.mem_singleton.1 h
      omega

theorem NameRef.sizeOf_lt_of_mem_types {n : NameRef α} (h : a ∈ n.types) :
    sizeOf a < sizeOf n := by
  obtain ⟨s, b, q⟩ := n
  rw [mk.sizeOf_spec]
  rcases List.mem_append.1 h with h | h
  · have hlt : sizeOf a < sizeOf b := Boundaries.sizeOf_lt_of_mem_types h
    omega
  · obtain rfl := Option.mem_toList.1 h
    simp only [Option.some.sizeOf_spec]
    omega

theorem Decl.sizeOf_lt_of_mem_types {d : Decl α} (h : a ∈ d.types) : sizeOf a < sizeOf d := by
  cases d with
  | signature s ps r =>
    rw [signature.sizeOf_spec]
    rcases List.mem_append.1 h with h | h
    · have hlt := List.sizeOf_lt_of_mem h
      omega
    · obtain rfl := List.mem_singleton.1 h
      omega
  | typeMember s r =>
    obtain rfl := List.mem_singleton.1 h
    rw [typeMember.sizeOf_spec]
    omega

end Types

namespace Descriptor

/-- The descriptors directly inside: bounds, qualifiers, arguments, bodies, parts, the parent and
the types of the members. -/
def parts : Descriptor → List Descriptor
  | name n => n.types
  | full _ as q => as.map (·.reference) ++ q.toList
  | lambda _ b => [b]
  | intersection ps => ps
  | refinement p ds => p :: ds.flatMap Decl.types

theorem sizeOf_lt_of_mem_parts {d e : Descriptor} (h : e ∈ d.parts) : sizeOf e < sizeOf d := by
  cases d with
  | name n => exact Nat.lt_trans (NameRef.sizeOf_lt_of_mem_types h) (by simp)
  | full s as q =>
    rcases List.mem_append.1 h with h | h
    · obtain ⟨a, ha, rfl⟩ := List.mem_map.1 h
      have hlt := List.sizeOf_lt_of_mem ha
      cases a
      simp only [TypeArg.mk.sizeOf_spec, full.sizeOf_spec] at hlt ⊢
      omega
    · obtain rfl := Option.mem_toList.1 h
      simp only [full.sizeOf_spec, Option.some.sizeOf_spec]
      omega
  | lambda ps b =>
    obtain rfl := List.mem_singleton.1 h
    simp only [lambda.sizeOf_spec]
    omega
  | intersection ps =>
    have hlt : sizeOf e < sizeOf ps := List.sizeOf_lt_of_mem h
    simp only [intersection.sizeOf_spec]
    omega
  | refinement p ds =>
    simp only [refinement.sizeOf_spec]
    rcases List.mem_cons.1 h with rfl | h
    · omega
    · obtain ⟨m, hm, he⟩ := List.mem_flatMap.1 h
      have hlt := List.sizeOf_lt_of_mem hm
      have hlt' := Decl.sizeOf_lt_of_mem_types he
      omega

theorem parts_induction {P : Descriptor → Prop} (step : ∀ d, (∀ e ∈ d.parts, P e) → P d)
    (d : Descriptor) : P d :=
  step d fun e _ ↦ parts_induction step e
termination_by sizeOf d
decreasing_by exact sizeOf_lt_of_mem_parts ‹_›

def OccursIn (e d : Descriptor) : Prop :=
  Relation.ReflTransGen (fun a b ↦ a ∈ b.parts) e d

theorem OccursIn.refl (d : Descriptor) : d.OccursIn d :=
  Relation.ReflTransGen.refl

theorem OccursIn.of_part {a d e : Descriptor} (h : e.OccursIn a) (ha : a ∈ d.parts) :
    e.OccursIn d :=
  Relation.ReflTransGen.tail h ha

theorem occursIn_iff {d e : Descriptor} : e.OccursIn d ↔ e = d ∨ ∃ a ∈ d.parts, e.OccursIn a := by
  constructor
  · intro h
    rcases Relation.ReflTransGen.cases_tail h with h | ⟨a, ha, had⟩
    · exact .inl h.symm
    · exact .inr ⟨a, had, ha⟩
  · rintro (rfl | ⟨a, had, ha⟩)
    · exact .refl _
    · exact ha.of_part had

end Descriptor

end TypeTag
