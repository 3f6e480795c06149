import TypeTag.Proofs.SymbolTable.AliasFree
import TypeTag.Proofs.SymbolTable.Known

namespace TypeTag.SymbolTable

open Relation

section Foreseen

/-- A known type, or what one becomes as a type function. -/
def Foreseen (u : SymbolTable) (n : Nat) (root x : Ty) : Prop :=
  u.Known n root x ∨ ∃ y, u.Known n root y ∧ x = (u.etaExpand y).resultType

variable {u : SymbolTable} {n : Nat} {root x y : Ty} (hu : u.WellFormed) (hn : u.size ≤ n) (hroot : root.Within n)

include hu hn

theorem known_of_inside (hy : u.Foreseen n root y) (h : x.Inside y) : u.Known n root x := by
  rcases hy with hy | ⟨z, hz, rfl⟩
  · exact hy.of_occursIn h.occursIn
  · rcases resultType_etaExpand u z with heq | ⟨q, s, rfl, heq⟩
    · rw [heq] at h
      exact hz.of_occursIn (h.occursIn.trans z.occursIn_resultType)
    · rw [heq] at h
      obtain ⟨c, hxc, hc⟩ := TransGen.tail'_iff.1 h
      rcases List.mem_append.1 hc with hc | hc
      · exact hz.of_occursIn (Ty.OccursIn.trans hxc
          (Ty.Inside.of_child (List.mem_append_left _ hc)).occursIn)
      · obtain ⟨p, hp, rfl⟩ := List.mem_map.1 hc
        have hlt : p < n := ((hu.within s).typeParams p hp).trans_le hn
        exact (known_of_mem_typesBelow hlt (by simp)).of_occursIn hxc

include hroot

theorem Foreseen.asks (halias : u.AliasFree) (hy : u.Foreseen n root y) (h : u.Asks y x) :
    u.Foreseen n root x := by
  rcases halias.asks_cases h with rfl | hx | ⟨e, he, hx⟩
  · rcases resultType_etaExpand u y with heq | ⟨q, s, rfl, heq⟩
    · rw [heq]
      rcases reflTransGen_iff_eq_or_transGen.1 y.occursIn_resultType with hsame | hinside
      · exact hsame ▸ hy
      · exact .inl (known_of_inside hu hn hy hinside)
    · refine .inr ⟨.ref q s [], ?_, rfl⟩
      rcases hy with hy | ⟨z, hz, hy⟩
      · exact hy
      · rcases resultType_etaExpand u z with hz' | ⟨q', s', rfl, hz'⟩
        · exact hz.of_occursIn (hy ▸ hz' ▸ z.occursIn_resultType)
        · rw [hz'] at hy
          obtain ⟨rfl, rfl, -⟩ := Ty.ref.inj hy
          exact hz
  · exact .inl (known_of_inside hu hn hy hx)
  · rcases hx with hx | hx
    · refine .inl (known_qualifierTypes hu hn hroot (fun q hq ↦ ?_) hx)
      have hinside : q.Inside e := .of_child (Ty.mem_children_of_qualifier? hq)
      exact known_of_inside hu hn hy (hinside.of_occursIn he)
    · exact .inl (known_boundTypes hu hn hx)

end Foreseen

/-- A description asks for finitely many types, directly and through others. -/
theorem AliasFree.finite_asked {u : SymbolTable} (halias : u.AliasFree) (hu : u.WellFormed) (root : Ty) :
    {x | ReflTransGen u.Asks root x}.Finite := by
  obtain ⟨k, hk⟩ := root.symbols.toFinset.exists_nat_subset_range
  let n := max u.size k
  have hn : u.size ≤ n := Nat.le_max_left u.size k
  have hroot : root.Within n := fun s hs ↦
    (Finset.mem_range.1 (hk (List.mem_toFinset.2 hs))).trans_le (Nat.le_max_right u.size k)
  have hforeseen {x : Ty} (hx : ReflTransGen u.Asks root x) : u.Foreseen n root x := by
    induction hx with
    | refl => exact .inl ⟨root, List.mem_cons_self, .refl root⟩
    | tail _ hstep ih => exact ih.asks hu hn hroot halias hstep
  refine ((finite_known u n root).union ((finite_known u n root).image
    fun x ↦ (u.etaExpand x).resultType)).subset fun x hx ↦ (hforeseen hx).imp_right ?_
  rintro ⟨y, hy, rfl⟩
  exact ⟨y, hy, rfl⟩

end TypeTag.SymbolTable
