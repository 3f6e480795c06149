import TypeTag.Build.Tag
import TypeTag.Proofs.Renaming.Builds

namespace TypeTag

namespace SymbolTable.Renaming

open Ty

variable {u v : SymbolTable} {f : SymbolId → SymbolId} (hf : Renaming u v f) (n : Nat)

omit hf in
theorem collapseBase (d : Descriptor) :
    SymbolTable.collapseBase d = (SymbolTable.collapseBase d).rename f id := by
  unfold SymbolTable.collapseBase
  split
  · split
    · rfl
    · exact Build.bind_renamed (Build.emit_renamed rfl) fun _ ↦ rfl
  · rfl

include hf

theorem rootDescriptor (t : Ty) :
    v.rootDescriptor n (t.rename f) = (u.rootDescriptor n t).rename f id :=
  Build.bind_renamed (Build.lift_renamed (hf.dealias n t)) fun d ↦ hf.descriptor n d

theorem stableBindings (t : Ty) :
    v.stableBindings n (t.rename f) =
      (u.stableBindings n t).map fun p ↦ (p.1, p.2.rename f) := by
  have hb (ps : List SymbolId) : ((ps.map f).zipIdx.map fun p ↦ (v.fullName p.1, toString p.2)) =
      ps.zipIdx.map fun p ↦ (u.fullName p.1, toString p.2) := by
    rw [List.zipIdx_map, List.map_map]
    refine List.map_congr_left fun p _ ↦ ?_
    simp [hf.fullName]
  unfold SymbolTable.stableBindings
  simp only [hf.etaExpand, hf.typeParams, hb, List.isEmpty_map, hf.dealiasResult]
  split
  · rfl
  · simp [Function.comp_def]

theorem stableEdge (ρ : Bindings) (child : Descriptor) (base : Ty) :
    v.stableEdge n ρ child (base.rename f) = (u.stableEdge n ρ child base).rename f id := by
  refine Build.bind_renamed (hf.describeAlone n ρ _ base) fun d ↦ ?_
  refine Build.bind_renamed (collapseBase d) fun parent ↦ ?_
  simp only [id]
  split
  · rfl
  · exact Build.bind_renamed (Build.emit_renamed rfl) fun _ ↦ rfl

theorem stableEdges (t : Ty) :
    v.stableEdges n (t.rename f) = (u.stableEdges n t).rename f id := by
  refine Build.bind_renamed (Build.lift_renamed (hf.stableBindings n t)) fun p ↦ ?_
  refine Build.bind_renamed (hf.describeAlone n p.1 _ p.2) fun child ↦ ?_
  refine Build.bind_renamed (Build.lift_renamed (hf.ancestors n p.2)) fun bases ↦ ?_
  exact Build.bind_renamed (Build.mapM_same (hf.stableEdge n p.1 child) bases) fun _ ↦ rfl

theorem stableBases (ts : List Ty) :
    v.stableBases n (ts.map (Ty.rename f)) = (u.stableBases n ts).rename f id :=
  Build.bind_renamed (Build.mapM_same (hf.stableEdges n) ts) fun _ ↦ rfl

theorem ownName (t : Ty) : v.ownName n (t.rename f) = (u.ownName n t).rename f id := by
  unfold SymbolTable.ownName
  rw [symbol?_rename]
  cases t.symbol? with
  | none => rfl
  | some s =>
    have he : Trail.empty.enter (t.rename f).measured =
        (Trail.empty.enter t.measured).rename f := by
      rw [Measured.measured_rename, ← Trail.enter_rename hf.injective]
      rfl
    simp only [Option.map_some, he]
    exact Build.bind_renamed (hf.qualifierOf (hf.recursion n) _ [] t) fun q ↦ by
      rw [hf.symName]
      rfl

theorem aliasEdge (t target : Ty) :
    v.aliasEdge n (t.rename f) (target.rename f) = (u.aliasEdge n t target).rename f id := by
  unfold SymbolTable.aliasEdge
  have hc : ((t.symbol?.map f).isSome && t.symbol?.map f != target.symbol?.map f) =
      (t.symbol?.isSome && t.symbol? != target.symbol?) := by
    cases t.symbol? <;> cases target.symbol? <;> simp [bne, hf.beq]
  rw [symbol?_rename, symbol?_rename, hc]
  split
  · exact Build.bind_renamed (hf.ownName n t) fun c ↦
      Build.bind_renamed (hf.ownName n target) fun p ↦ by cases c <;> cases p <;> rfl
  · rfl

theorem unappliedEdge (child : NameRef Descriptor) (base : Ty) :
    v.unappliedEdge n child (base.rename f) = (u.unappliedEdge n child base).rename f id := by
  unfold SymbolTable.unappliedEdge
  rw [hf.takesTypeArgs]
  split
  · rfl
  · exact Build.bind_renamed (hf.descriptor n base) fun d ↦ rfl

theorem unappliedEdges (t : Ty) :
    v.unappliedEdges n (t.rename f) = (u.unappliedEdges n t).rename f id := by
  unfold SymbolTable.unappliedEdges
  rw [hf.etaExpand]
  refine Build.bind_renamed (Build.lift_renamed (hf.dealiasResult n _)) fun target ↦ ?_
  refine Build.bind_renamed (hf.aliasEdge n t target) fun edges ↦ ?_
  refine Build.bind_renamed (hf.ownName n target) fun child ↦ ?_
  cases child with
  | none => rfl
  | some child =>
    refine Build.bind_renamed (Build.lift_renamed (hf.ancestors n t)) fun bases ↦ ?_
    exact Build.bind_renamed (Build.mapM_same (hf.unappliedEdge n child) bases) fun _ ↦ rfl

theorem unappliedInheritance (ts : List Ty) :
    v.unappliedInheritance n (ts.map (Ty.rename f)) =
      (u.unappliedInheritance n ts).rename f id :=
  Build.bind_renamed (Build.mapM_same (hf.unappliedEdges n) ts) fun _ ↦ rfl

theorem tagOf (d : Descriptor) (t : Ty) :
    v.tagOf n d (t.rename f) = (u.tagOf n d t).rename f id := by
  refine Build.bind_renamed (Build.lift_renamed (hf.reachable n t)) fun ts ↦ ?_
  refine Build.bind_renamed (Build.lift_renamed (hf.closeOverAncestors n ts)) fun cs ↦ ?_
  refine Build.bind_renamed (hf.stableBases n cs) fun stable ↦ ?_
  refine Build.bind_renamed (hf.unappliedInheritance n cs) fun unapplied ↦ ?_
  rw [List.length_map]
  exact Build.bind_renamed (Build.emit_renamed rfl) fun _ ↦ rfl

theorem tag (t : Ty) : v.tag n (t.rename f) = (u.tag n t).rename f id :=
  Build.bind_renamed (hf.rootDescriptor n t) fun d ↦ hf.tagOf n d t

end SymbolTable.Renaming

end TypeTag
