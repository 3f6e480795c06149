import TypeTag.SymbolTable.Ancestry

namespace TypeTag

/-- Adds to `seen` the types on the stack and those reachable from them by `next`, in preorder. -/
def explore (next : Ty → Option (List Ty)) :
    Nat → List Measured → List Measured → Option (List Ty)
  | _, [], seen => some (seen.map (·.type))
  | 0, _ :: _, _ => none
  | n + 1, t :: stack, seen =>
    if seen.contains t then explore next n stack seen
    else do
      let seen' := seen ++ [t]
      let found := (← next t.type).map Ty.measured
      explore next n (found.filter (!seen'.contains ·) ++ stack) seen'

namespace SymbolTable

variable (u : SymbolTable) (n : Nat)

def expansionArgs (t : Ty) : Option (List Ty) := do
  let own := u.typeParams t
  if own.isEmpty then return []
  let expanded ← u.dealias n (u.etaExpand t).resultType
  return expanded.args.filter fun a ↦ !a.symbol?.any own.contains

/-- An argument, followed by the bounds of the symbol that its expansion stands for, if it has
any. -/
def withBounds (arg : Ty) : Option (List Ty) := do
  let resolved := (← u.dealias n arg).resultType
  match resolved.symbol?.map u.signature with
  | some (.bounds l h) => return [arg, l, h]
  | _ => return [arg]

def successors (t : Ty) : Option (List Ty) := do
  let target := (← u.dealias n t).resultType
  let args := t.args ++ target.args ++ (← u.expansionArgs n t)
  return target :: (← args.mapM (u.withBounds n)).flatten ++ target.parents

def reachable (root : Ty) : Option (List Ty) :=
  explore (u.successors n) n [root.measured] []

/-- The forms in which a type inherits from its ancestors, itself and the universal classes left
out. A generic type without arguments answers for its expansion. -/
def ancestors (t : Ty) : Option (List Ty) := do
  let t ← u.dealiasResult n (u.etaExpand t)
  let bases := (← u.baseClasses n t).filter fun b ↦ !u.isUniversal b && t.symbol? != some b
  let forms ← bases.mapM (u.baseType n t)
  return (forms.filterMap id).filter (· ≠ t)

def closeOverAncestors (types : List Ty) : Option (List Ty) :=
  explore (u.ancestors n) n (types.map Ty.measured) []

end SymbolTable

end TypeTag
