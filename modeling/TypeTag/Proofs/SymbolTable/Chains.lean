import TypeTag.SymbolTable.Types
import Mathlib.Data.List.Nodup
import Mathlib.Data.List.Perm.Subperm
import Mathlib.Order.Nat

namespace TypeTag.SymbolTable

/-- An owner is created before what it owns. -/
def OwnersPrecede (u : SymbolTable) : Prop :=
  ∀ s o : Nat, (u.entry s).owner = some o → o < s

section Chains

variable {u : SymbolTable}

theorem OwnersPrecede.lt (h : u.OwnersPrecede) {s o n : Nat} (ho : (u.entry s).owner = some o)
    (hs : s < n + 1) : o < n :=
  Nat.lt_of_lt_of_le (h s o ho) (Nat.le_of_lt_succ hs)

theorem ownerNames_eq (h : u.OwnersPrecede) {n m s : Nat} (hn : s < n) (hm : s < m) :
    u.ownerNames n s = u.ownerNames m s := by
  induction n generalizing m s with
  | zero => omega
  | succ n ih =>
    obtain ⟨m, rfl⟩ : ∃ k, m = k + 1 := ⟨m - 1, by omega⟩
    unfold ownerNames
    dsimp only
    split
    · next o ho =>
      rw [ih (h.lt ho hn) (h.lt ho hm)]
    · rfl

open defaultQualifier in
theorem defaultQualifier_go_eq (h : u.OwnersPrecede) {n m s : Nat} (hn : s < n)
    (hm : s < m) : go u n s = go u m s := by
  induction n generalizing m s with
  | zero => omega
  | succ n ih =>
    obtain ⟨m, rfl⟩ : ∃ k, m = k + 1 := ⟨m - 1, by omega⟩
    unfold go
    split
    · rfl
    · cases ho : (u.entry s).owner with
      | none => rfl
      | some o =>
        simp only [Option.bind_eq_bind, Option.bind_some, ih (h.lt ho hn) (h.lt ho hm)]

theorem mem_defaultQualifier_go {n : Nat} {s : SymbolId} {q : Ty}
    (h : q ∈ defaultQualifier.go u (n + 1) s) : ∃ o, (u.entry s).owner = some o ∧
      ((u.kind o = .package ∧ q = .ref none o []) ∨
        (u.isTerm o = true ∧ q = .single (defaultQualifier.go u n o) o) ∨
        (u.isPackage o = false ∧ q = .self o)) := by
  unfold defaultQualifier.go at h
  split at h
  · cases h
  · obtain ⟨o, ho, h⟩ := Option.bind_eq_some_iff.1 h
    refine ⟨o, ho, ?_⟩
    cases hk : u.kind o with
    | package =>
      rw [hk] at h
      cases h
      exact .inl ⟨rfl, rfl⟩
    | object | term =>
      rw [hk] at h
      cases h
      exact .inr (.inl ⟨by simp [isTerm, hk], rfl⟩)
    | typeParam | typeAlias =>
      rw [hk] at h
      cases h
    | cls | abstractType | refinement =>
      rw [hk] at h
      cases h
      exact .inr (.inr ⟨by simp [isPackage, hk], rfl⟩)

theorem defaultQualifier_induction {P : Ty → Prop}
    (package : ∀ {s o}, (u.entry s).owner = some o → u.kind o = .package → P (.ref none o []))
    (term : ∀ {s o q}, (u.entry s).owner = some o → u.isTerm o = true → (∀ t ∈ q, P t) →
      P (.single q o))
    (inside : ∀ {s o}, (u.entry s).owner = some o → P (.self o)) (s : SymbolId) :
    ∀ q ∈ u.defaultQualifier s, P q := by
  have hgo (n s : Nat) : ∀ q ∈ defaultQualifier.go u n s, P q := by
    induction n generalizing s with
    | zero => exact fun q hq ↦ (nomatch hq)
    | succ n ih =>
      intro q hq
      obtain ⟨o, ho, ⟨hk, rfl⟩ | ⟨hk, rfl⟩ | ⟨-, rfl⟩⟩ := mem_defaultQualifier_go hq
      · exact package ho hk
      · exact term ho hk (ih o)
      · exact inside ho
  exact hgo (s + 1) s

theorem defaultQualifier_of_package {s o : SymbolId} (hs : u.kind s ≠ .typeParam)
    (ho : (u.entry s).owner = some o) (hk : u.kind o = .package) :
    u.defaultQualifier s = some (.ref none o []) := by
  unfold defaultQualifier defaultQualifier.go
  rw [if_neg hs, ho]
  simp [hk]

theorem length_le_of_nodup {seen : List SymbolId} {n : Nat} (hd : seen.Nodup)
    (hs : ∀ x ∈ seen, x < n) : seen.length ≤ n := by
  have hsub : seen ⊆ List.range n := fun x hx ↦ List.mem_range.2 (hs x hx)
  simpa using (List.subperm_of_subset hd hsub).length_le

theorem resolveTerm_of_termAlias? {s : SymbolId} (h : u.termAlias? s = none) :
    u.resolveTerm s = s := by
  unfold resolveTerm resolveTerm.go
  simp [h]

theorem resolveTerm_object {s : SymbolId} (hs : u.kind s = .object) : u.resolveTerm s = s := by
  refine resolveTerm_of_termAlias? ?_
  unfold termAlias?
  dsimp only
  split
  · next hk _ => simp [kind, hk] at hs
  · rfl

end Chains

end TypeTag.SymbolTable
