import TypeTag.Proofs.Renaming.Ty
import TypeTag.Proofs.SymbolTable.TermChains

namespace TypeTag

namespace SymbolEntry

def rename (f : SymbolId → SymbolId) (i : SymbolEntry) : SymbolEntry where
  name := i.name
  owner := i.owner.map f
  kind := i.kind
  typeParams := i.typeParams.map f
  variance := i.variance
  parents := i.parents.map (Ty.rename f)
  bounds := i.bounds.map fun b ↦ (b.1.rename f, b.2.rename f)
  body := i.body.map (Ty.rename f)

end SymbolEntry

def Signature.rename (f : SymbolId → SymbolId) : Signature → Signature
  | bounds l u => bounds (l.rename f) (u.rename f)
  | singleton => singleton
  | concrete t => concrete (t.rename f)

namespace SymbolTable

/-- `f` renumbers the symbols of `u` within `v`. -/
structure Renaming (u v : SymbolTable) (f : SymbolId → SymbolId) : Prop where
  injective : Function.Injective f
  entry : ∀ s, v.entry (f s) = (u.entry s).rename f
  any : v.any = f u.any
  anyRef : v.anyRef = f u.anyRef
  nothing : v.nothing = f u.nothing
  source : u.OwnersPrecede
  target : v.OwnersPrecede

namespace Renaming

open Ty

variable {u v : SymbolTable} {f : SymbolId → SymbolId} (hf : Renaming u v f)

include hf

theorem kind (s : SymbolId) : v.kind (f s) = u.kind s := by
  rw [SymbolTable.kind, hf.entry]
  rfl

theorem owner (s : SymbolId) : (v.entry (f s)).owner = (u.entry s).owner.map f := by
  rw [hf.entry]
  rfl

theorem typeParams_entry (s : SymbolId) :
    (v.entry (f s)).typeParams = (u.entry s).typeParams.map f := by
  rw [hf.entry]
  rfl

theorem ownerNames (n : Nat) (s : SymbolId) : v.ownerNames n (f s) = u.ownerNames n s := by
  induction n generalizing s with
  | zero => rfl
  | succ n ih =>
    simp only [SymbolTable.ownerNames, hf.entry, SymbolEntry.rename]
    cases (u.entry s).owner with
    | none => rfl
    | some o => simp [ih]

theorem fullName (s : SymbolId) : v.fullName (f s) = u.fullName s := by
  have hv : v.ownerNames (f s + 1) (f s) = v.ownerNames (f s + s + 1) (f s) :=
    ownerNames_eq hf.target (by omega) (by omega)
  have hu : u.ownerNames (s + 1) s = u.ownerNames (f s + s + 1) s :=
    ownerNames_eq hf.source (by omega) (by omega)
  rw [SymbolTable.fullName, SymbolTable.fullName, hv, hu, hf.ownerNames]

theorem defaultQualifier_go (n : Nat) (s : SymbolId) :
    defaultQualifier.go v n (f s) = (defaultQualifier.go u n s).map (rename f) := by
  induction n generalizing s with
  | zero => rfl
  | succ n ih =>
    unfold defaultQualifier.go
    rw [hf.kind, hf.owner]
    split
    · rfl
    · cases (u.entry s).owner with
      | none => rfl
      | some o =>
        simp only [Option.map_some, Option.bind_eq_bind, Option.bind_some, hf.kind, ih]
        cases u.kind o <;> simp

theorem defaultQualifier (s : SymbolId) :
    v.defaultQualifier (f s) = (u.defaultQualifier s).map (rename f) := by
  have hv : defaultQualifier.go v (f s + 1) (f s) = defaultQualifier.go v (f s + s + 1) (f s) :=
    defaultQualifier_go_eq hf.target (by omega) (by omega)
  have hu : defaultQualifier.go u (s + 1) s = defaultQualifier.go u (f s + s + 1) s :=
    defaultQualifier_go_eq hf.source (by omega) (by omega)
  rw [SymbolTable.defaultQualifier, SymbolTable.defaultQualifier, hv, hu, hf.defaultQualifier_go]

theorem applied (s : SymbolId) (as : List Ty) :
    v.applied (f s) (as.map (rename f)) = (u.applied s as).rename f := by
  simp [SymbolTable.applied, hf.defaultQualifier]

theorem typeRef (s : SymbolId) : v.typeRef (f s) = (u.typeRef s).rename f :=
  hf.applied s []

theorem map_typeRef (ps : List SymbolId) :
    (ps.map f).map v.typeRef = (ps.map u.typeRef).map (rename f) := by
  simp [Function.comp_def, hf.typeRef]

theorem single (s : SymbolId) : v.single (f s) = (u.single s).rename f := by
  simp [SymbolTable.single, hf.defaultQualifier]

theorem beq (s t : SymbolId) : (f s == f t) = (s == t) := by
  simp [hf.injective.eq_iff]

theorem isUniversal (s : SymbolId) : v.isUniversal (f s) = u.isUniversal s := by
  simp only [SymbolTable.isUniversal, hf.any, hf.anyRef, hf.nothing, hf.beq]

theorem isTop (t : Ty) : v.isTop (t.rename f) = u.isTop t := by
  cases t <;> simp [SymbolTable.isTop, hf.any, hf.injective.eq_iff]

theorem isBottom (t : Ty) : v.isBottom (t.rename f) = u.isBottom t := by
  cases t <;> simp [SymbolTable.isBottom, hf.nothing, hf.injective.eq_iff]

theorem isPackage (s : SymbolId) : v.isPackage (f s) = u.isPackage s := by
  simp only [SymbolTable.isPackage, hf.kind]

theorem isTerm (s : SymbolId) : v.isTerm (f s) = u.isTerm s := by
  simp only [SymbolTable.isTerm, hf.kind]

theorem isTransparent (s : SymbolId) : v.isTransparent (f s) = u.isTransparent s := by
  simp only [SymbolTable.isTransparent, hf.kind]

theorem boundsOf (s : SymbolId) :
    v.boundsOf (f s) = ((u.boundsOf s).1.rename f, (u.boundsOf s).2.rename f) := by
  simp only [SymbolTable.boundsOf, hf.entry, SymbolEntry.rename, nothingType, anyType, hf.any,
    hf.nothing, hf.typeRef]
  cases (u.entry s).bounds <;> rfl

theorem symbolType (s : SymbolId) : v.symbolType (f s) = (u.symbolType s).rename f := by
  simp only [SymbolTable.symbolType, hf.entry, SymbolEntry.rename, hf.map_typeRef, hf.applied]
  split
  · cases (u.entry s).body <;> rfl
  · rfl

theorem signature (s : SymbolId) : v.signature (f s) = (u.signature s).rename f := by
  simp only [SymbolTable.signature, hf.entry, SymbolEntry.rename, hf.boundsOf, hf.typeRef,
    hf.symbolType]
  cases (u.entry s).kind with
  | term =>
    cases (u.entry s).body with
    | none => rfl
    | some t =>
      simp only [Option.map_some, isSingle_rename]
      split <;> rfl
  | typeAlias => cases (u.entry s).body <;> rfl
  | _ => rfl

theorem termType (s : SymbolId) : v.termType (f s) = (u.termType s).rename f := by
  simp only [SymbolTable.termType, hf.entry, SymbolEntry.rename, hf.single]
  cases (u.entry s).kind <;> cases (u.entry s).body <;> rfl

theorem termAlias? (s : SymbolId) : v.termAlias? (f s) = (u.termAlias? s).map f := by
  simp only [SymbolTable.termAlias?, hf.entry, SymbolEntry.rename]
  cases (u.entry s).kind with
  | term =>
    cases (u.entry s).body with
    | none => rfl
    | some t => cases t <;> simp
  | _ => rfl

theorem contains (seen : List SymbolId) (s : SymbolId) :
    (seen.map f).contains (f s) = seen.contains s := by
  simp [hf.injective.eq_iff]

theorem resolveTerm_go (n : Nat) (seen : List SymbolId) (s : SymbolId) :
    resolveTerm.go v n (seen.map f) (f s) = f (resolveTerm.go u n seen s) := by
  induction n generalizing seen s with
  | zero => rfl
  | succ n ih =>
    rw [resolveTerm.go, resolveTerm.go, hf.contains, hf.termAlias?]
    split
    · rfl
    · cases u.termAlias? s with
      | none => rfl
      | some t => exact ih (s :: seen) t

theorem resolveTerm (s : SymbolId) : v.resolveTerm (f s) = f (u.resolveTerm s) := by
  have hv : resolveTerm.go v (u.size + v.size + 1) [] (f s) = v.resolveTerm (f s) :=
    resolveTerm_go_eq (by omega) (f s)
  have hu : resolveTerm.go u (u.size + v.size + 1) [] s = u.resolveTerm s :=
    resolveTerm_go_eq (by omega) s
  rw [← hv, ← hu]
  exact hf.resolveTerm_go _ [] s

theorem typeParams (t : Ty) : v.typeParams (t.rename f) = (u.typeParams t).map f := by
  cases t with
  | ref q s as => cases as <;> simp [SymbolTable.typeParams, hf.typeParams_entry]
  | _ => simp [SymbolTable.typeParams]

theorem takesTypeArgs (t : Ty) : v.takesTypeArgs (t.rename f) = u.takesTypeArgs t := by
  simp only [SymbolTable.takesTypeArgs, hf.typeParams, List.isEmpty_map]

theorem etaExpand (t : Ty) : v.etaExpand (t.rename f) = (u.etaExpand t).rename f := by
  cases t with
  | ref q s as =>
    cases as with
    | nil =>
      simp only [rename_ref, List.map_nil, SymbolTable.etaExpand, hf.typeParams_entry,
        List.isEmpty_map, hf.map_typeRef]
      split <;> simp
    | cons a as => simp [SymbolTable.etaExpand]
  | _ => simp [SymbolTable.etaExpand]

end Renaming

end SymbolTable

end TypeTag
