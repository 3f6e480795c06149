import Mathlib.Data.Finset.Range
import Mathlib.Data.Set.Finite.Lattice
import TypeTag.Proofs.Builds.Trails
import TypeTag.Proofs.SymbolTable.Within
import TypeTag.Proofs.Ty.Occurrences

namespace TypeTag.SymbolTable

open Relation

/-- The types that a table has for the symbols below a number: those that they stand for, the
references to them, and those that their entries speak of. -/
def typesBelow (u : SymbolTable) (n : Nat) : List Ty :=
  (List.range n).flatMap fun s ↦ u.symbolType s :: u.typeRef s :: (u.entry s).types

def Known (u : SymbolTable) (n : Nat) (root x : Ty) : Prop :=
  ∃ b ∈ root :: u.typesBelow n, x.OccursIn b

variable {u : SymbolTable} {n : Nat} {root t x y : Ty}

theorem finite_known (u : SymbolTable) (n : Nat) (root : Ty) : {x | u.Known n root x}.Finite := by
  have heq : {x | u.Known n root x} =
      ⋃ b ∈ {b | b ∈ root :: u.typesBelow n}, {x : Ty | x.OccursIn b} := by
    ext x
    simp [Known]
  rw [heq]
  exact (List.finite_toSet _).biUnion fun b _ ↦ Ty.finite_occursIn b

theorem Known.of_occursIn (h : u.Known n root y) (hx : x.OccursIn y) : u.Known n root x := by
  obtain ⟨b, hb, hy⟩ := h
  exact ⟨b, hb, hx.trans hy⟩

theorem known_of_mem_typesBelow {s : SymbolId} (hs : s < n)
    (hx : x ∈ u.symbolType s :: u.typeRef s :: (u.entry s).types) : u.Known n root x :=
  ⟨x, List.mem_cons_of_mem root (List.mem_flatMap.2 ⟨s, List.mem_range.2 hs, hx⟩), .refl x⟩

variable (hu : u.WellFormed) (hn : u.size ≤ n) (hroot : root.Within n)

include hu hn

theorem typesBelow_within : ∀ b ∈ u.typesBelow n, b.Within n := by
  have happlied {s : SymbolId} (hs : s < n) {as : List Ty} (has : ∀ a ∈ as, a.Within n) :
      (u.applied s as).Within n :=
    Ty.within_ref_iff.2 ⟨hs, fun q hq ↦ (hu.defaultQualifier s q hq).mono hn, has⟩
  intro b hb
  obtain ⟨s, hs, hb⟩ := List.mem_flatMap.1 hb
  have hs : s < n := List.mem_range.1 hs
  rcases List.mem_cons.1 hb with rfl | hb
  · have hparams : ∀ a ∈ (u.entry s).typeParams.map u.typeRef, a.Within n := by
      intro a ha
      obtain ⟨p, hp, rfl⟩ := List.mem_map.1 ha
      exact happlied (((hu.within s).typeParams p hp).trans_le hn) (by simp)
    unfold symbolType
    dsimp only
    split
    · cases hb : (u.entry s).body with
      | none => exact happlied hs hparams
      | some b => exact ((hu.within s).types b (by simp [SymbolEntry.types, hb])).mono hn
    · exact happlied hs hparams
  · rcases List.mem_cons.1 hb with rfl | hb
    · exact happlied hs (by simp)
    · exact ((hu.within s).types b hb).mono hn

theorem known_boundTypes (h : x ∈ u.boundTypes t) : u.Known n root x := by
  obtain ⟨s, -, hx⟩ := mem_boundTypes h
  unfold boundsOf at hx
  cases hb : (u.entry s).bounds with
  | none =>
    rw [hb] at hx
    rcases hx with rfl | rfl
    · exact known_of_mem_typesBelow (hu.nothing.trans_le hn) (by simp [nothingType])
    · exact known_of_mem_typesBelow (hu.any.trans_le hn) (by simp [anyType])
  | some b =>
    rw [hb] at hx
    have hs : s < u.size := Nat.lt_of_not_le fun hle ↦ by
      rw [entry_of_size_le u hle] at hb
      cases hb
    refine known_of_mem_typesBelow (Nat.lt_of_lt_of_le hs hn) ?_
    rcases hx with rfl | rfl <;> simp [SymbolEntry.types, hb]

include hroot

theorem known_within (h : u.Known n root x) : x.Within n := by
  obtain ⟨b, hb, hx⟩ := h
  refine hx.keeps (fun t ht c hc ↦ ht.of_mem_children hc) ?_
  rcases List.mem_cons.1 hb with rfl | hb
  · exact hroot
  · exact typesBelow_within hu hn b hb

theorem known_qualifierTypes (ht : ∀ q, t.qualifier? = some q → u.Known n root q)
    (h : x ∈ u.qualifierTypes t) : u.Known n root x := by
  rcases mem_qualifierTypes h with hq | ⟨s, hq, -, rfl⟩
  · exact ht x hq
  · have hs : s < n := Ty.within_self_iff.1 (known_within hu hn hroot (ht _ hq))
    exact known_of_mem_typesBelow hs (by simp)

end TypeTag.SymbolTable
