import TypeTag.Proofs.Descriptor.TotalOrder
import TypeTag.Proofs.Tags.Ordered

namespace TypeTag

open Std

structure TotallyOrders {α : Type} (cmp : α → α → Ordering) : Prop where
  refl : ∀ a, (cmp a a).isLE
  antisymm : ∀ a b, (cmp a b).isLE → (cmp b a).isLE → a = b
  trans : ∀ a b c, (cmp a b).isLE → (cmp b c).isLE → (cmp a c).isLE
  total : ∀ a b, (cmp a b).isLE ∨ (cmp b a).isLE
  swap : ∀ a b, cmp b a = (cmp a b).swap
  eq_iff : ∀ a b, cmp a b = .eq ↔ a = b

namespace TotallyOrders

variable {α : Type}

theorem of_transCmp {cmp : α → α → Ordering} [TransCmp cmp] (h : ∀ a b, cmp a b = .eq ↔ a = b) :
    TotallyOrders cmp where
  refl a := by simp [(h a a).2 rfl]
  antisymm a b hab hba := (h a b).1 (OrientedCmp.isLE_antisymm hab hba)
  trans _ _ _ := TransCmp.isLE_trans
  total a b := by
    have hswap : cmp b a = (cmp a b).swap := OrientedCmp.eq_swap
    rw [hswap]
    cases cmp a b <;> simp
  swap _ _ := OrientedCmp.eq_swap
  eq_iff := h

theorem of_spells {cmp : α → α → Ordering} (word : α → Word)
    (hword : ∀ a b, Spells (cmp a b) (word a) (word b)) (h : ∀ a b, cmp a b = .eq ↔ a = b) :
    TotallyOrders cmp :=
  have := transCmp_of_spells word hword
  of_transCmp h

end TotallyOrders

theorem eq_compareLex {α : Type} {f : List α → List α → Ordering} {cmp : α → α → Ordering}
    (hnil : f [] [] = .eq) (hlt : ∀ b bs, f [] (b :: bs) = .lt) (hgt : ∀ a as, f (a :: as) [] = .gt)
    (hcons : ∀ a as b bs, f (a :: as) (b :: bs) = (cmp a b).then (f as bs)) (as bs : List α) :
    f as bs = List.compareLex cmp as bs := by
  induction as generalizing bs with
  | nil =>
    cases bs with
    | nil => rw [hnil, List.compareLex_nil_nil]
    | cons b bs => rw [hlt, List.compareLex_nil_cons]
  | cons a as ih =>
    cases bs with
    | nil => rw [hgt, List.compareLex_cons_nil]
    | cons b bs => rw [hcons, ih, List.compareLex_cons_cons]

namespace Descriptor

theorem cmpArgs_eq_compareLex (as bs : List (TypeArg Descriptor)) :
    cmpArgs as bs = List.compareLex
      (fun a b ↦ (cmp a.reference b.reference).then (compare a.variance b.variance)) as bs :=
  eq_compareLex (by simp [cmpArgs]) (fun _ _ ↦ by simp [cmpArgs]) (fun _ _ ↦ by simp [cmpArgs])
    (fun _ _ _ _ ↦ by rw [cmpArgs]) as bs

theorem cmpList_eq_compareLex (ds es : List Descriptor) :
    cmpList ds es = List.compareLex cmp ds es :=
  eq_compareLex (by simp [cmpList]) (fun _ _ ↦ by simp [cmpList]) (fun _ _ ↦ by simp [cmpList])
    (fun _ _ _ _ ↦ by rw [cmpList]) ds es

theorem cmpDecls_eq_compareLex (ds es : List (Decl Descriptor)) :
    cmpDecls ds es = List.compareLex cmpDecl ds es :=
  eq_compareLex (by simp [cmpDecls]) (fun _ _ ↦ by simp [cmpDecls])
    (fun _ _ ↦ by simp [cmpDecls]) (fun _ _ _ _ ↦ by rw [cmpDecls]) ds es

/-- Descriptors and all that they are made of are totally ordered, sequences lexicographically; and
a set of descriptors, declarations or names depends on its elements alone, not on the order in which
they were inserted nor on how often. -/
theorem comparisons_totallyOrder :
    (TotallyOrders cmp ∧ TotallyOrders cmpName ∧ TotallyOrders cmpBoundaries ∧
      TotallyOrders cmpQualifier ∧ TotallyOrders cmpArgs ∧ TotallyOrders cmpList ∧
      TotallyOrders cmpDecl ∧ TotallyOrders cmpDecls ∧
      TotallyOrders (compare : SymName → SymName → Ordering) ∧
      TotallyOrders (compare : Variance → Variance → Ordering) ∧
      TotallyOrders (compare : List String → List String → Ordering)) ∧
    ((∀ as bs, cmpArgs as bs = List.compareLex
        (fun a b ↦ (cmp a.reference b.reference).then (compare a.variance b.variance)) as bs) ∧
      (∀ ds es, cmpList ds es = List.compareLex cmp ds es) ∧
      ∀ ds es, cmpDecls ds es = List.compareLex cmpDecl ds es) ∧
    (∀ l m : List Descriptor, SortedSet.ofList l = SortedSet.ofList m ↔ ∀ a, a ∈ l ↔ a ∈ m) ∧
    (∀ l m : List (Decl Descriptor),
      SortedSet.ofList l = SortedSet.ofList m ↔ ∀ a, a ∈ l ↔ a ∈ m) ∧
    ∀ l m : List (NameRef Descriptor),
      SortedSet.ofList l = SortedSet.ofList m ↔ ∀ a, a ∈ l ↔ a ∈ m := by
  refine ⟨⟨.of_spells _ spells_cmp cmp_eq_iff, .of_spells _ spells_cmpName cmpName_eq_iff,
    .of_spells _ spells_cmpBoundaries cmpBoundaries_eq_iff,
    .of_spells _ spells_cmpQualifier cmpQualifier_eq_iff,
    .of_spells _ spells_cmpArgs cmpArgs_eq_iff, .of_spells _ spells_cmpList cmpList_eq_iff,
    .of_spells _ spells_cmpDecl cmpDecl_eq_iff, .of_spells _ spells_cmpDecls cmpDecls_eq_iff,
    .of_spells _ Spells.symName SymName.compare_eq_iff,
    .of_spells _ Spells.variance Variance.compare_eq_iff,
    .of_transCmp fun _ _ ↦ compare_eq_iff_eq⟩,
    ⟨cmpArgs_eq_compareLex, cmpList_eq_compareLex, cmpDecls_eq_compareLex⟩, ?_⟩
  exact ⟨fun _ _ ↦ SortedSet.ofList_eq_iff, fun _ _ ↦ SortedSet.ofList_eq_iff,
    fun _ _ ↦ SortedSet.ofList_eq_iff⟩

end Descriptor

end TypeTag
