import TypeTag.Build.Tag
import TypeTag.Proofs.Steps.Queries
import TypeTag.SymbolTable.Standard

namespace TypeTag

open Stepped

/-- What is inside a type is described alike, if its description ends at all. -/
structure Recursion.Keeps (r r' : Recursion) : Prop where
  nested : ∀ trail ρ t, Stepped.Keeps (r.nested trail ρ t) (r'.nested trail ρ t)
  termQualifier : ∀ s, Stepped.Keeps (r.termQualifier s) (r'.termQualifier s)

namespace SymbolTable

variable (u : SymbolTable) {n m : Nat} (h : n ≤ m)

section Describe

variable {r r' : Recursion} (hr : r.Keeps r') (trail : Trail Measured) (ρ : Bindings)

include hr

theorem termName_keeps (s : SymbolId) : Keeps (u.termName r s) (u.termName r' s) :=
  (hr.termQualifier _).bind fun _ ↦ .refl _

theorem describeQualifier_keeps (t q : Ty) :
    Keeps (describeQualifier r trail ρ t q) (describeQualifier r' trail ρ t q) :=
  (hr.nested trail ρ q).bind fun _ ↦ .refl _

theorem qualifierOf_keeps (t : Ty) :
    Keeps (u.qualifierOf r trail ρ t) (u.qualifierOf r' trail ρ t) := by
  unfold qualifierOf
  split
  · exact .refl _
  · split
    · exact .refl _
    · split
      · dsimp only
        split
        · exact .refl _
        · exact (describeQualifier_keeps hr trail ρ t _).bind fun _ ↦ .refl _
      · exact (u.termName_keeps hr _).bind fun _ ↦ .refl _
      · exact (describeQualifier_keeps hr trail ρ t _).bind fun _ ↦ .refl _

theorem describeBounds_keeps (l h : Ty) :
    Keeps (u.describeBounds r trail ρ l h) (u.describeBounds r' trail ρ l h) := by
  unfold describeBounds
  split
  · exact .refl _
  · split
    · exact .refl _
    · exact (hr.nested trail ρ l).bind fun _ ↦ (hr.nested trail ρ h).bind fun _ ↦ .refl _

theorem nameOf_keeps (t : Ty) (b : Boundaries Descriptor) (q : Option Descriptor) :
    Keeps (u.nameOf r t b q) (u.nameOf r' t b q) := by
  unfold nameOf
  split
  · exact .refl _
  · exact (u.termName_keeps hr _).bind fun _ ↦ .refl _
  · exact .refl _

theorem describeCut_keeps (t : Ty) :
    Keeps (u.describeCut r trail ρ t) (u.describeCut r' trail ρ t) := by
  unfold describeCut
  split
  · exact .refl _
  · exact (u.qualifierOf_keeps hr trail ρ t).bind fun q ↦
      (u.nameOf_keeps hr t _ q).bind fun _ ↦ .refl _

include h

omit h in
theorem boundariesOf_keeps (t : Ty) :
    Keeps (u.boundariesOf r trail ρ t) (u.boundariesOf r' trail ρ t) := by
  unfold boundariesOf
  split
  · exact u.describeBounds_keeps hr trail ρ _ _
  · exact .refl _

omit h in
theorem headName_keeps (t : Ty) (q : Option Descriptor) :
    Keeps (u.headName r trail ρ t q) (u.headName r' trail ρ t q) := by
  unfold headName
  split
  · exact .refl _
  · exact (u.boundariesOf_keeps hr trail ρ t).bind fun b ↦ u.nameOf_keeps hr t b q

theorem describeArgs_keeps (t : Ty) :
    Keeps (u.describeArgs n r trail ρ t) (u.describeArgs m r' trail ρ t) :=
  (u.headParams_keeps h t).lift.bind fun _ ↦
    Keeps.mapM (fun a : Ty × Nat ↦ (hr.nested trail ρ a.1).bind fun _ ↦ .refl _) _

theorem describeNamed_keeps (t : Ty) :
    Keeps (u.describeNamed n r trail ρ t) (u.describeNamed m r' trail ρ t) := by
  refine (u.dealiasResult_keeps h t).lift.bind fun d ↦ ?_
  refine (u.qualifierOf_keeps hr trail ρ d).bind fun q ↦ ?_
  refine (u.headName_keeps hr trail ρ d q).bind fun name ↦ ?_
  split
  · exact .refl _
  · exact (u.describeArgs_keeps h hr trail ρ d).bind fun _ ↦ .refl _

omit h in
theorem describeSignatureType_keeps (member : String) (t : Ty) :
    Keeps (describeSignatureType r trail ρ member t) (describeSignatureType r' trail ρ member t) :=
  (hr.nested trail ρ t).bind fun _ ↦ .refl _

omit h in
theorem describeMember_keeps (member : Member Ty) :
    Keeps (u.describeMember r trail ρ member) (u.describeMember r' trail ρ member) := by
  cases member with
  | method name lists result =>
    refine (describeSignatureType_keeps hr trail ρ name result).bind fun d ↦ ?_
    split
    · exact .refl _
    · exact Keeps.mapM (fun ps ↦ (Keeps.mapM
        (fun p ↦ describeSignatureType_keeps hr trail ρ name p) ps).bind fun _ ↦ .refl _) _
  | type name t =>
    unfold describeMember
    dsimp only
    split
    · exact (u.describeBounds_keeps hr trail ρ _ _).bind fun _ ↦ .refl _
    · exact (hr.nested trail ρ _).bind fun _ ↦ .refl _

omit hr in
theorem leaf_keeps (t : Ty) : Keeps (u.leaf n t) (u.leaf m t) := by
  unfold leaf
  split
  · exact .refl _
  · exact u.dealias_keeps h t

theorem describeProper_keeps (t : Ty) :
    Keeps (u.describeProper n r trail ρ t) (u.describeProper m r' trail ρ t) := by
  refine (u.flatten_keeps h t).lift.bind fun f ↦ ?_
  cases f with
  | single t => exact (u.leaf_keeps h t).lift.bind fun d ↦ u.describeNamed_keeps h hr trail ρ d
  | compound parts members =>
    refine (Keeps.mapM (fun p ↦ hr.nested trail ρ p) _).bind fun ps ↦ ?_
    dsimp only
    split
    · exact .refl _
    · exact (Keeps.mapM (fun m ↦ u.describeMember_keeps hr trail ρ m) _).bind fun _ ↦ .refl _

theorem describeBody_keeps (t result : Ty) :
    Keeps (u.describeBody n r trail ρ t result) (u.describeBody m r' trail ρ t result) := by
  unfold describeBody
  split
  · exact u.describeProper_keeps h hr trail ρ result
  · exact hr.nested trail ρ result

theorem describeLambda_keeps (t : Ty) :
    Keeps (u.describeLambda n r trail ρ t) (u.describeLambda m r' trail ρ t) :=
  (u.dealiasResult_keeps h _).lift.bind fun d ↦
    (u.describeBody_keeps h hr trail _ t d).bind fun _ ↦ .refl _

theorem describe_keeps (force : Bool) (t : Ty) :
    Keeps (u.describe n r trail ρ force t) (u.describe m r' trail ρ force t) := by
  refine Keeps.bind (.refl _) fun _ ↦ ?_
  split
  · exact (u.describeProper_keeps h hr trail ρ t).bind fun _ ↦ .refl _
  · split
    · exact u.describeLambda_keeps h hr trail ρ t
    · exact u.describeProper_keeps h hr trail ρ t

omit hr in
theorem isExpanding_keeps (t : Ty) :
    Keeps (u.isExpanding n trail t) (u.isExpanding m trail t) := by
  unfold isExpanding
  split
  · exact .refl _
  · split
    · exact .refl _
    · exact (u.dealias_keeps h t).bind fun _ ↦ .refl _

theorem describeNested_keeps (t : Ty) :
    Keeps (u.describeNested n r trail ρ t) (u.describeNested m r' trail ρ t) := by
  refine (u.isExpanding_keeps h trail t).lift.bind fun cut ↦ ?_
  split
  · exact Keeps.bind (.refl _) fun _ ↦ u.describeCut_keeps hr trail ρ t
  · exact u.describe_keeps h hr _ ρ false t

end Describe

include h

theorem recursion_keeps : (u.recursion n).Keeps (u.recursion m) := by
  induction n generalizing m with
  | zero =>
    constructor
    · intro trail ρ t
      simpa only [recursion, nested] using .exhausted _
    · intro s
      simpa only [recursion, termQualifier] using .exhausted _
  | succ n ih =>
    obtain ⟨m, rfl⟩ : ∃ k, m = k + 1 := ⟨m - 1, by omega⟩
    have hr := ih (m := m) (by omega)
    constructor
    · intro trail ρ t
      simpa only [recursion, nested] using u.describeNested_keeps (by omega) hr trail ρ t
    · intro s
      simpa only [recursion, termQualifier] using u.qualifierOf_keeps hr _ [] (u.single s)

theorem describeAlone_keeps (ρ : Bindings) (force : Bool) (t : Ty) :
    Keeps (u.describeAlone n ρ force t) (u.describeAlone m ρ force t) :=
  u.describe_keeps h (u.recursion_keeps h) _ ρ force t

theorem descriptor_keeps (t : Ty) : Keeps (u.descriptor n t) (u.descriptor m t) :=
  u.describeAlone_keeps h [] false t

theorem rootDescriptor_keeps (t : Ty) : Keeps (u.rootDescriptor n t) (u.rootDescriptor m t) :=
  (u.dealias_keeps h t).lift.bind fun d ↦ u.descriptor_keeps h d

theorem stableBindings_keeps (t : Ty) :
    Keeps (u.stableBindings n t) (u.stableBindings m t) := by
  unfold stableBindings
  dsimp only
  split
  · exact .refl _
  · exact (u.dealiasResult_keeps h _).map _

theorem stableEdge_keeps (ρ : Bindings) (child : Descriptor) (base : Ty) :
    Keeps (u.stableEdge n ρ child base) (u.stableEdge m ρ child base) :=
  (u.describeAlone_keeps h ρ _ base).bind fun _ ↦ .refl _

theorem stableEdges_keeps (t : Ty) : Keeps (u.stableEdges n t) (u.stableEdges m t) :=
  (u.stableBindings_keeps h t).lift.bind fun p ↦
    (u.describeAlone_keeps h p.1 _ p.2).bind fun child ↦
      (u.ancestors_keeps h p.2).lift.bind fun bases ↦
        (Keeps.mapM (fun b ↦ u.stableEdge_keeps h p.1 child b) bases).bind fun _ ↦ .refl _

theorem stableBases_keeps (ts : List Ty) : Keeps (u.stableBases n ts) (u.stableBases m ts) :=
  (Keeps.mapM (fun t ↦ u.stableEdges_keeps h t) ts).bind fun _ ↦ .refl _

theorem ownName_keeps (t : Ty) : Keeps (u.ownName n t) (u.ownName m t) := by
  unfold ownName
  split
  · exact .refl _
  · exact (u.qualifierOf_keeps (u.recursion_keeps h) _ [] t).bind fun _ ↦ .refl _

theorem aliasEdge_keeps (t target : Ty) :
    Keeps (u.aliasEdge n t target) (u.aliasEdge m t target) := by
  unfold aliasEdge
  split
  · exact (u.ownName_keeps h t).bind fun _ ↦ (u.ownName_keeps h target).bind fun _ ↦ .refl _
  · exact .refl _

theorem unappliedEdge_keeps (child : NameRef Descriptor) (base : Ty) :
    Keeps (u.unappliedEdge n child base) (u.unappliedEdge m child base) := by
  unfold unappliedEdge
  split
  · exact .refl _
  · exact (u.descriptor_keeps h base).bind fun _ ↦ .refl _

theorem unappliedEdges_keeps (t : Ty) : Keeps (u.unappliedEdges n t) (u.unappliedEdges m t) := by
  refine (u.dealiasResult_keeps h _).lift.bind fun target ↦ ?_
  refine (u.aliasEdge_keeps h t target).bind fun edges ↦ ?_
  refine (u.ownName_keeps h target).bind fun child ↦ ?_
  cases child with
  | none => exact .refl _
  | some child =>
    exact (u.ancestors_keeps h t).lift.bind fun bases ↦
      (Keeps.mapM (fun b ↦ u.unappliedEdge_keeps h child b) bases).bind fun _ ↦ .refl _

theorem unappliedInheritance_keeps (ts : List Ty) :
    Keeps (u.unappliedInheritance n ts) (u.unappliedInheritance m ts) :=
  (Keeps.mapM (fun t ↦ u.unappliedEdges_keeps h t) ts).bind fun _ ↦ .refl _

theorem tagOf_keeps (d : Descriptor) (t : Ty) : Keeps (u.tagOf n d t) (u.tagOf m d t) :=
  (u.reachable_keeps h t).lift.bind fun ts ↦ (u.closeOverAncestors_keeps h ts).lift.bind fun cs ↦
    (u.stableBases_keeps h cs).bind fun _ ↦ (u.unappliedInheritance_keeps h cs).bind fun _ ↦ .refl _

theorem tag_keeps (t : Ty) : Keeps (u.tag n t) (u.tag m t) :=
  (u.rootDescriptor_keeps h t).bind fun d ↦ u.tagOf_keeps h d t

end SymbolTable

/-- Nine steps are enough for the tag of each sample. -/
theorem Standard.samples_build :
    ∀ p ∈ standard.samples, (standard.table.tag 9 p.2).value?.isSome = true := by
  decide +kernel

end TypeTag
