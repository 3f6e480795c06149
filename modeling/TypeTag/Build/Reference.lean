import TypeTag.Build.Flattening
import TypeTag.Build.Outcome
import TypeTag.SymbolTable.Dealias
import TypeTag.Trail

namespace TypeTag

abbrev Bindings := List (String × String)

/-- A name that is bound again keeps its place. -/
def Bindings.bind (ρ : Bindings) (name placeholder : String) : Bindings :=
  if ρ.any (·.1 == name) then
    ρ.map fun e ↦ if e.1 == name then (name, placeholder) else e
  else ρ ++ [(name, placeholder)]

def Bindings.bindAll (ρ : Bindings) (bindings : List (String × String)) : Bindings :=
  bindings.foldl (fun r b ↦ Bindings.bind r b.1 b.2) ρ

/-- How to describe the types inside a type and the paths to terms. The functions below describe one
type, given that; `nested` and `termQualifier` close the circle. -/
structure Recursion where
  nested : Trail Measured → Bindings → Ty → Build Descriptor
  termQualifier : SymbolId → Build (Option Descriptor)

namespace SymbolTable

/-- The name of a symbol: in full, unless its owner's name means nothing. -/
def symName (u : SymbolTable) (s : SymbolId) : SymName :=
  let i := u.entry s
  let text := if i.owner.any u.isTransparent then i.name else u.fullName s
  if u.isTerm s then .term text else .type text

def placeholder? (u : SymbolTable) (ρ : Bindings) (t : Ty) : Option String := do
  ρ.lookup (u.fullName (← t.symbol?))

section Describe

variable (u : SymbolTable) (n : Nat) (r : Recursion) (trail : Trail Measured) (ρ : Bindings)

def termName (s : SymbolId) : Build (NameRef Descriptor) := do
  let s := u.resolveTerm s
  return { name := u.symName s, qualifier := ← r.termQualifier s }

def describeQualifier (t qualifier : Ty) : Build Descriptor := do
  let d ← r.nested trail ρ qualifier
  if d.isApplied then return d else .fail (.improperQualifier t d)

/-- The qualifier of a type's name. Packages and the insides of refinements do not count. -/
def qualifierOf (t : Ty) : Build (Option Descriptor) := do
  match t.qualifier? with
  | none => return none
  | some q =>
    if q.symbol?.any u.isPackage then return none
    else match q with
      | .self s =>
        let own := u.symbolType s
        if own.isRefined then return none
        else return some (← describeQualifier r trail ρ t own)
      | .single _ s => return some (.name (← u.termName r s))
      | _ => return some (← describeQualifier r trail ρ t q)

/-- Bounds that allow every type, or that are already being expanded, are left out. -/
def describeBounds (lower upper : Ty) : Build (Boundaries Descriptor) := do
  if u.isBottom lower && u.isTop upper then return .empty
  else if trail.contains lower.measured || trail.contains upper.measured then
    .emit (.boundsSuppressed lower upper)
    return .empty
  else return .defined (← r.nested trail ρ lower) (← r.nested trail ρ upper)

def nameOf (t : Ty) (boundaries : Boundaries Descriptor) (qualifier : Option Descriptor) :
    Build (NameRef Descriptor) := do
  match t with
  | .constant v => return { name := .literal v, boundaries, qualifier }
  | .single _ s => return { ← u.termName r s with boundaries }
  | _ =>
    match t.symbol? with
    | some s => return { name := u.symName s, boundaries, qualifier }
    | none => .fail (.nameless t)

def describeCut (t : Ty) : Build Descriptor := do
  match u.placeholder? ρ t with
  | some p => return .typeName p
  | none => return .name (← u.nameOf r t .empty (← u.qualifierOf r trail ρ t))

def boundariesOf (t : Ty) : Build (Boundaries Descriptor) :=
  match t.symbol?.map u.signature with
  | some (.bounds l h) => u.describeBounds r trail ρ l h
  | _ => pure .empty

def headName (t : Ty) (qualifier : Option Descriptor) : Build (NameRef Descriptor) :=
  match u.placeholder? ρ t with
  | some p => pure { name := .type p }
  | none => do u.nameOf r t (← u.boundariesOf r trail ρ t) qualifier

def argVariance (params : List SymbolId) (i : Nat) : Variance :=
  (params[i]?.map fun p ↦ (u.entry p).variance).getD .invariant

def describeArgs (t : Ty) : Build (List (TypeArg Descriptor)) := do
  let params ← u.headParams n t
  t.args.zipIdx.mapM fun (a, i) ↦ return ⟨← r.nested trail ρ a, u.argVariance params i⟩

def describeNamed (t : Ty) : Build Descriptor := do
  let t ← u.dealiasResult n t
  let qualifier ← u.qualifierOf r trail ρ t
  let name ← u.headName r trail ρ t qualifier
  if t.args.isEmpty then return .name name
  return .full name.name (← u.describeArgs n r trail ρ t) qualifier

def describeSignatureType (member : String) (t : Ty) : Build Descriptor := do
  let d ← r.nested trail ρ t
  if d.isApplied then return d else .fail (.improperMember t member d)

def describeMember : Member Ty → Build (List (Decl Descriptor))
  | .method m lists result => do
    let d ← describeSignatureType r trail ρ m result
    if lists.isEmpty then return [.signature m [] d]
    lists.mapM fun ps ↦ do
      return .signature m (← ps.mapM (describeSignatureType r trail ρ m)) d
  | .type m t => do
    match t with
    | .bounds l h =>
      let boundaries ← u.describeBounds r trail ρ l h
      return [.typeMember m (.name { name := .type m, boundaries })]
    | t => return [.typeMember m (← r.nested trail ρ t)]

def leaf (t : Ty) : Option Ty :=
  if u.takesTypeArgs t then some t else u.dealias n t

def describeProper (t : Ty) : Build Descriptor := do
  match ← u.flatten n t with
  | .single t => u.describeNamed n r trail ρ (← u.leaf n t)
  | .compound parts members =>
    let parent := Descriptor.intersect (← parts.mapM (r.nested trail ρ))
    if members.isEmpty then return parent
    let decls ← members.mapM (u.describeMember r trail ρ)
    return .refinement parent (SortedSet.ofList decls.flatten)

/-- The placeholders of the parameters of a type function: their places, behind the level. -/
def placeholders (level : Nat) (params : List SymbolId) : List (String × String) :=
  params.zipIdx.map fun (p, i) ↦ (u.fullName p, toString level ++ ":" ++ toString i)

/-- The body of the type function that `t` becomes. A type that returns itself is described in
place. -/
def describeBody (t result : Ty) : Build Descriptor :=
  if result = t then u.describeProper n r trail ρ result else r.nested trail ρ result

def reportUnused (t : Ty) (l : Lambda) : Build Unit :=
  if l.allReferenced then pure () else .emit (.unusedParams t l)

def describeLambda (t : Ty) : Build Descriptor := do
  let poly := u.etaExpand t
  let bindings := u.placeholders trail.level (u.typeParams poly)
  let result ← u.dealiasResult n poly
  let lambda := Lambda.mk (bindings.map (·.2))
    (← u.describeBody n r trail (ρ.bindAll bindings) t result)
  reportUnused t lambda
  return lambda.toDescriptor

/-- Describes a type, which is the last on the trail; `force` makes it a function of the bound
parameters. -/
def describe (force : Bool) (t : Ty) : Build Descriptor := do
  .emit (.describing t trail.level force)
  if force then return .lambda (ρ.map (·.2)) (← u.describeProper n r trail ρ t)
  else if t.isPoly || (u.takesTypeArgs t && (u.placeholder? ρ t).isNone) then
    u.describeLambda n r trail ρ t
  else u.describeProper n r trail ρ t

/-- Whether a type with a symbol is already being expanded, as it stands or as what it is an alias
of. -/
def isExpanding (t : Ty) : Option Bool := do
  if t.symbol?.isNone then return false
  else if trail.contains t.measured then return true
  else return trail.contains (← u.dealias n t).measured

def describeNested (t : Ty) : Build Descriptor := do
  if ← u.isExpanding n trail t then
    .emit (.cut t)
    u.describeCut r trail ρ t
  else u.describe n r (trail.enter t.measured) ρ false t

end Describe

mutual

def nested (u : SymbolTable) : Nat → Trail Measured → Bindings → Ty → Build Descriptor
  | 0, _, _, _ => .exhausted
  | n + 1, trail, ρ, t =>
    u.describeNested n ⟨nested u n, termQualifier u n⟩ trail ρ t

def termQualifier (u : SymbolTable) : Nat → SymbolId → Build (Option Descriptor)
  | 0, _ => .exhausted
  | n + 1, s =>
    u.qualifierOf ⟨nested u n, termQualifier u n⟩ (Trail.empty.enter (u.single s).measured) [] (u.single s)

end

def recursion (u : SymbolTable) (n : Nat) : Recursion :=
  ⟨u.nested n, u.termQualifier n⟩

def describeAlone (u : SymbolTable) (n : Nat) (ρ : Bindings) (force : Bool) (t : Ty) :
    Build Descriptor :=
  u.describe n (u.recursion n) (Trail.empty.enter t.measured) ρ force t

def descriptor (u : SymbolTable) (n : Nat) (t : Ty) : Build Descriptor :=
  u.describeAlone n [] false t

end SymbolTable

end TypeTag
