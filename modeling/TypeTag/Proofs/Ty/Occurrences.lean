import Mathlib.Data.Set.Finite.Lattice
import Mathlib.Logic.Relation
import TypeTag.Proofs.Ty.Confined
import TypeTag.Ty.Size

namespace TypeTag.Ty

open Relation

/-- One type occurs in another, at any depth; each occurs in itself. -/
def OccursIn : Ty → Ty → Prop :=
  ReflTransGen fun c t ↦ c ∈ t.children

def Inside : Ty → Ty → Prop :=
  TransGen fun c t ↦ c ∈ t.children

variable {c s t x : Ty}

theorem OccursIn.refl (t : Ty) : t.OccursIn t :=
  ReflTransGen.refl

theorem OccursIn.trans (hx : x.OccursIn s) (hs : s.OccursIn t) : x.OccursIn t :=
  ReflTransGen.trans hx hs

theorem Inside.of_child (h : c ∈ t.children) : c.Inside t :=
  TransGen.single h

theorem Inside.occursIn (h : x.Inside t) : x.OccursIn t :=
  TransGen.to_reflTransGen h

theorem Inside.of_occursIn (h : x.Inside s) (hs : s.OccursIn t) : x.Inside t :=
  TransGen.trans_left h hs

theorem Inside.trans (h : x.Inside s) (hs : s.Inside t) : x.Inside t :=
  TransGen.trans h hs

theorem Inside.sizeOf_lt (h : x.Inside t) : sizeOf x < sizeOf t := by
  induction h with
  | single h => exact sizeOf_lt_of_mem_children h
  | tail _ h ih => exact Nat.lt_trans ih (sizeOf_lt_of_mem_children h)

theorem occursIn_iff : x.OccursIn t ↔ x = t ∨ ∃ c ∈ t.children, x.OccursIn c := by
  constructor
  · intro h
    rcases ReflTransGen.cases_tail h with h | ⟨c, hc, hct⟩
    · exact .inl h.symm
    · exact .inr ⟨c, hct, hc⟩
  · rintro (rfl | ⟨c, hct, hc⟩)
    · exact .refl x
    · exact ReflTransGen.tail hc hct

theorem OccursIn.keeps {P : Ty → Prop} (hP : ∀ t, P t → ∀ c ∈ t.children, P c)
    (h : x.OccursIn t) (ht : P t) : P x := by
  induction h using ReflTransGen.head_induction_on with
  | refl => exact ht
  | head hc _ ih => exact hP _ ih _ hc

theorem finite_occursIn (t : Ty) : {x : Ty | x.OccursIn t}.Finite := by
  have heq : {x : Ty | x.OccursIn t} =
      insert t (⋃ c ∈ {c | c ∈ t.children}, {x : Ty | x.OccursIn c}) := by
    ext x
    simp [occursIn_iff (t := t)]
  rw [heq]
  refine ((List.finite_toSet t.children).biUnion fun c hc ↦ ?_).insert t
  have hlt : sizeOf c < sizeOf t := sizeOf_lt_of_mem_children hc
  exact finite_occursIn c
termination_by sizeOf t

theorem size_pos (t : Ty) : 0 < t.size := by
  cases t <;> exact Nat.succ_pos _

theorem sizeList_append (ts us : List Ty) : sizeList (ts ++ us) = sizeList ts + sizeList us := by
  induction ts with
  | nil => simp [sizeList]
  | cons t ts ih => rw [List.cons_append, sizeList, sizeList, ih, Nat.add_assoc]

theorem occursIn_resultType (t : Ty) : t.resultType.OccursIn t := by
  cases t with
  | poly ps r => exact (Inside.of_child (List.mem_singleton_self r)).occursIn
  | _ => exact .refl _

end TypeTag.Ty
