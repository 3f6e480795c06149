import TypeTag.Descriptor.Order

namespace TypeTag

theorem Variance.compare_eq_iff (v w : Variance) : compare v w = .eq ↔ v = w := by
  cases v <;> cases w <;> decide

theorem SymName.compare_eq_iff (s t : SymName) : compare s t = .eq ↔ s = t := by
  have hdef : compare s t = (compare s.rank t.rank).then (compare s.text t.text) := rfl
  rw [hdef, Ordering.then_eq_eq, Nat.compare_eq_eq, Std.compare_eq_iff_eq]
  cases s <;> cases t <;> simp [rank, text]

namespace Descriptor

mutual

theorem cmp_eq_iff : ∀ d e : Descriptor, cmp d e = .eq ↔ d = e
  | name m, e => by cases e <;> simp [cmp, rank, cmpName_eq_iff m]
  | full s as p, e => by
    cases e <;> simp [cmp, rank, SymName.compare_eq_iff, cmpArgs_eq_iff as, cmpQualifier_eq_iff p]
  | lambda ps b, e => by cases e <;> simp [cmp, rank, cmp_eq_iff b]
  | intersection ps, e => by cases e <;> simp [cmp, rank, cmpList_eq_iff ps]
  | refinement p ds, e => by cases e <;> simp [cmp, rank, cmp_eq_iff p, cmpDecls_eq_iff ds]

theorem cmpName_eq_iff : ∀ m n : NameRef Descriptor, cmpName m n = .eq ↔ m = n
  | ⟨s, b, p⟩, ⟨t, c, q⟩ => by
    simp [cmpName, SymName.compare_eq_iff, cmpBoundaries_eq_iff b, cmpQualifier_eq_iff p]

theorem cmpBoundaries_eq_iff : ∀ b c : Boundaries Descriptor, cmpBoundaries b c = .eq ↔ b = c
  | .empty, c => by cases c <;> simp [cmpBoundaries]
  | .defined l u, c => by cases c <;> simp [cmpBoundaries, cmp_eq_iff l, cmp_eq_iff u]

theorem cmpQualifier_eq_iff : ∀ p q : Option Descriptor, cmpQualifier p q = .eq ↔ p = q
  | none, q => by cases q <;> simp [cmpQualifier]
  | some p, q => by cases q <;> simp [cmpQualifier, cmp_eq_iff p]

theorem cmpArgs_eq_iff : ∀ as bs : List (TypeArg Descriptor), cmpArgs as bs = .eq ↔ as = bs
  | [], bs => by cases bs <;> simp [cmpArgs]
  | ⟨r, v⟩ :: as, [] => by simp [cmpArgs]
  | ⟨r, v⟩ :: as, ⟨s, w⟩ :: bs => by
    simp [cmpArgs, cmp_eq_iff r, Variance.compare_eq_iff, cmpArgs_eq_iff as]

theorem cmpList_eq_iff : ∀ ds es : List Descriptor, cmpList ds es = .eq ↔ ds = es
  | [], es => by cases es <;> simp [cmpList]
  | d :: ds, es => by cases es <;> simp [cmpList, cmp_eq_iff d, cmpList_eq_iff ds]

theorem cmpDecl_eq_iff : ∀ d e : Decl Descriptor, cmpDecl d e = .eq ↔ d = e
  | .signature s ps r, e => by
    cases e <;> simp [cmpDecl, cmpList_eq_iff ps, cmp_eq_iff r]
  | .typeMember s r, e => by cases e <;> simp [cmpDecl, cmp_eq_iff r]

theorem cmpDecls_eq_iff : ∀ ds es : List (Decl Descriptor), cmpDecls ds es = .eq ↔ ds = es
  | [], es => by cases es <;> simp [cmpDecls]
  | d :: ds, es => by cases es <;> simp [cmpDecls, cmpDecl_eq_iff d, cmpDecls_eq_iff ds]

end

instance : Std.LawfulEqOrd Descriptor where
  compare_self := (cmp_eq_iff _ _).2 rfl
  eq_of_compare := (cmp_eq_iff _ _).1

instance : Std.LawfulEqOrd (NameRef Descriptor) where
  compare_self := (cmpName_eq_iff _ _).2 rfl
  eq_of_compare := (cmpName_eq_iff _ _).1

instance : Std.LawfulEqOrd (Decl Descriptor) where
  compare_self := (cmpDecl_eq_iff _ _).2 rfl
  eq_of_compare := (cmpDecl_eq_iff _ _).1

instance : DecidableEq Descriptor :=
  fun d e ↦ decidable_of_iff _ (cmp_eq_iff d e)

instance : LawfulBEq Descriptor where
  rfl := by simp [BEq.beq, (cmp_eq_iff _ _).2]
  eq_of_beq h := (cmp_eq_iff _ _).1 (by simpa [BEq.beq] using h)

instance : LawfulBEq (NameRef Descriptor) where
  rfl := by simp [BEq.beq, (cmpName_eq_iff _ _).2]
  eq_of_beq h := (cmpName_eq_iff _ _).1 (by simpa [BEq.beq] using h)

end Descriptor

end TypeTag
