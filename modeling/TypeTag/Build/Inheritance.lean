import TypeTag.Build.Exploration
import TypeTag.Build.Reference
import TypeTag.MultiMap

namespace TypeTag.SymbolTable

variable (u : SymbolTable) (n : Nat)

/-- A base that is a function of parameters it does not all use loses them. -/
def collapseBase (d : Descriptor) : Build Descriptor := do
  match d.lambda? with
  | some l =>
    if l.allReferenced then return d
    else
      .emit (.collapsed l.body)
      return l.body
  | none => return d

/-- The type to describe for a component of a tag, and the placeholders of its own parameters,
which are their places. A component that is not generic is described as it is. -/
def stableBindings (t : Ty) : Option (Bindings × Ty) :=
  let poly := u.etaExpand t
  let params := u.typeParams poly
  let ρ := Bindings.bindAll [] (params.zipIdx.map fun (p, i) ↦ (u.fullName p, toString i))
  (if params.isEmpty then some t else u.dealiasResult n poly).map (ρ, ·)

def stableEdge (ρ : Bindings) (child : Descriptor) (base : Ty) :
    Build (Option (Descriptor × Descriptor)) := do
  let parent ← collapseBase (← u.describeAlone n ρ (!ρ.isEmpty) base)
  if parent == child then return none
  .emit (.stableBase child parent)
  return some (child, parent)

def stableEdges (t : Ty) : Build (List (Descriptor × Descriptor)) := do
  let (ρ, own) ← u.stableBindings n t
  let child ← u.describeAlone n ρ (!ρ.isEmpty) own
  return (← (← u.ancestors n own).mapM (u.stableEdge n ρ child)).filterMap id

def stableBases (components : List Ty) : Build (MultiMap Descriptor Descriptor) := do
  return .ofList (← components.mapM (u.stableEdges n)).flatten

def ownName (t : Ty) : Build (Option (NameRef Descriptor)) := do
  match t.symbol? with
  | none => return none
  | some s =>
    let qualifier ← u.qualifierOf (u.recursion n) (Trail.empty.enter t.measured) [] t
    return some { name := u.symName s, qualifier }

def aliasEdge (t target : Ty) : Build (List (NameRef Descriptor × NameRef Descriptor)) := do
  if t.symbol?.isSome && t.symbol? != target.symbol? then
    match ← u.ownName n t, ← u.ownName n target with
    | some c, some p => return [(c, p)]
    | _, _ => return []
  else return []

def unappliedEdge (child : NameRef Descriptor) (base : Ty) :
    Build (Option (NameRef Descriptor × NameRef Descriptor)) := do
  if u.takesTypeArgs base then return none
  let parent := (← u.descriptor n base).asName?
  return parent.map fun p ↦ (child, { p with boundaries := .empty })

def unappliedEdges (t : Ty) : Build (List (NameRef Descriptor × NameRef Descriptor)) := do
  let target ← u.dealiasResult n (u.etaExpand t)
  let edges ← u.aliasEdge n t target
  match ← u.ownName n target with
  | none => return edges
  | some child =>
    return edges ++ (← (← u.ancestors n t).mapM (u.unappliedEdge n child)).filterMap id

def unappliedInheritance (components : List Ty) :
    Build (MultiMap (NameRef Descriptor) (NameRef Descriptor)) := do
  let edges ← components.mapM (u.unappliedEdges n)
  return (MultiMap.ofList edges.flatten).filter fun c p ↦ c != p

end TypeTag.SymbolTable
