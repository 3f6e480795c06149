import TypeTag.Proofs.SymbolTable.Constructible
import TypeTag.Proofs.Ty.Rules

namespace TypeTag

section Within

variable {n : Nat} {q : Option Ty} {s : SymbolId} {as ps : List Ty}

namespace Ty

theorem within_ref_iff : (ref q s as).Within n ↔
    s < n ∧ (∀ t ∈ q, t.Within n) ∧ ∀ t ∈ as, t.Within n := by
  simp only [Within, symbols, List.cons_append, List.mem_cons, List.mem_append, forall_eq_or_imp,
    mem_symbolsQualifier, mem_symbolsList]
  grind

theorem within_single_iff : (single q s).Within n ↔ s < n ∧ ∀ t ∈ q, t.Within n := by
  simp only [Within, symbols, List.mem_cons, forall_eq_or_imp, mem_symbolsQualifier]
  grind

theorem within_self_iff : (self s).Within n ↔ s < n := by
  simp [Within, symbols]

theorem within_constant (v : String) : (constant v).Within n := by
  simp [Within, symbols]

theorem within_refined_iff {ms : List (Member Ty)} : (refined ps ms).Within n ↔
    (∀ t ∈ ps, t.Within n) ∧ ∀ m ∈ ms, ∀ t ∈ m.types, t.Within n := by
  simp only [Within, symbols, List.mem_append, mem_symbolsList, mem_symbolsMembers]
  grind

theorem within_poly_iff {ss : List SymbolId} {r : Ty} :
    (poly ss r).Within n ↔ (∀ s ∈ ss, s < n) ∧ r.Within n := by
  simp only [Within, symbols, List.mem_append]
  grind

theorem within_bounds_iff {l h : Ty} : (bounds l h).Within n ↔ l.Within n ∧ h.Within n := by
  simp only [Within, symbols, List.mem_append]
  grind

theorem Within.mono {m : Nat} {t : Ty} (ht : t.Within n) (h : n ≤ m) : t.Within m :=
  fun s hs ↦ (ht s hs).trans_le h

theorem Within.of_mem_children {c t : Ty} (ht : t.Within n) (hc : c ∈ t.children) : c.Within n := by
  cases t with
  | ref q s as =>
    obtain ⟨-, hq, has⟩ := within_ref_iff.1 ht
    exact (List.mem_append.1 hc).elim (fun h ↦ hq c (Option.mem_toList.1 h)) (has c)
  | single q s => exact (within_single_iff.1 ht).2 c (Option.mem_toList.1 hc)
  | self s => cases hc
  | constant v => cases hc
  | refined ps ms =>
    obtain ⟨hps, hms⟩ := within_refined_iff.1 ht
    rcases List.mem_append.1 hc with hc | hc
    · exact hps c hc
    · obtain ⟨m, hm, hc⟩ := List.mem_flatMap.1 hc
      exact hms m hm c hc
  | poly ps r => exact List.mem_singleton.1 hc ▸ (within_poly_iff.1 ht).2
  | bounds l h =>
    obtain ⟨hl, hh⟩ := within_bounds_iff.1 ht
    rcases List.mem_cons.1 hc with rfl | hc
    · exact hl
    · exact List.mem_singleton.1 hc ▸ hh

end Ty

end Within

namespace SymbolTable.WellFormed

variable {u : SymbolTable} (hu : u.WellFormed) {s : Nat}

include hu

theorem defaultQualifier (s : SymbolId) : ∀ q ∈ u.defaultQualifier s, q.Within u.size := by
  have howner {s o : SymbolId} (ho : (u.entry s).owner = some o) : o < u.size :=
    (hu.within s).owner o ho
  refine defaultQualifier_induction (fun ho _ ↦ ?_) (fun ho _ hq ↦ ?_) (fun ho ↦ ?_) s
  · exact Ty.within_ref_iff.2 ⟨howner ho, by simp, by simp⟩
  · exact Ty.within_single_iff.2 ⟨howner ho, hq⟩
  · exact Ty.within_self_iff.2 (howner ho)

theorem applied (hs : s < u.size) {as : List Ty} (h : ∀ a ∈ as, a.Within u.size) :
    (u.applied s as).Within u.size :=
  Ty.within_ref_iff.2 ⟨hs, hu.defaultQualifier s, h⟩

theorem single (hs : s < u.size) : (u.single s).Within u.size :=
  Ty.within_single_iff.2 ⟨hs, hu.defaultQualifier s⟩

end SymbolTable.WellFormed

end TypeTag
