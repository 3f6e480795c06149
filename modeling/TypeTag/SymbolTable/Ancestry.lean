import TypeTag.SymbolTable.Dealias

namespace TypeTag.SymbolTable

variable (u : SymbolTable)

section Linearize

variable (visit : List SymbolId → Ty → Option (List SymbolId))

/-- The classes that a symbol inherits from, in order and with repetitions, itself first if it is
one; `visiting` are the symbols on the way to it, and `visit` finds the classes of a type. -/
def linearize (visiting : List SymbolId) (s : SymbolId) : Option (List SymbolId) :=
  if visiting.contains s then some []
  else
    let i := u.entry s
    match i.kind with
    | .typeParam | .abstractType => visit (s :: visiting) (u.boundsOf s).2
    | .typeAlias =>
      match i.body with
      | some b => visit (s :: visiting) b
      | none => some []
    | .cls | .object | .refinement => do
      return s :: (← i.parents.mapM (visit (s :: visiting))).flatten
    | .package | .term => some []

end Linearize

def lineage : Nat → List SymbolId → Ty → Option (List SymbolId)
  | 0, _, _ => none
  | n + 1, visiting, t => do
    match ← u.dealias n t with
    | .ref _ s _ => u.linearize (lineage n) visiting s
    | .single _ s =>
      if u.kind s = .object then u.linearize (lineage n) visiting s
      else
        let declared := u.termType s
        if declared.isSingle then return [] else lineage n visiting declared
    | .self s => u.linearize (lineage n) visiting s
    | .refined ps _ => return (← ps.mapM (lineage n visiting)).flatten
    | .poly _ r => lineage n visiting r
    | .constant _ | .bounds .. => return []

/-- Moves the object root, if any class is not universal, and the top class, if there is any class,
to the end. -/
def closeBases (bases : List SymbolId) : List SymbolId :=
  let bases :=
    if bases.any (!u.isUniversal ·) then bases.filter (· != u.anyRef) ++ [u.anyRef] else bases
  if bases.isEmpty then [] else bases.filter (· != u.any) ++ [u.any]

def baseClasses (n : Nat) (t : Ty) : Option (List SymbolId) := do
  return u.closeBases (← u.lineage n [] t).eraseDups

section Find

variable (find : List SymbolId → Ty → Option (Option Ty))

def findInParents (visiting : List SymbolId) (s : SymbolId) (specialise : Ty → Option Ty) :
    Option (Option Ty) :=
  if visiting.contains s then some none
  else (u.entry s).parents.findSomeM? fun p ↦ do find (s :: visiting) (← specialise p)

/-- A parent of a class as it is for the arguments given to the class, if these are as many as its
parameters. -/
def specialise (n : Nat) (s : SymbolId) (args : List Ty) (parent : Ty) : Option Ty :=
  let params := (u.entry s).typeParams
  if args.length = params.length then parent.substitute n params args else some parent

def findAboveRef (n : Nat) (visiting : List SymbolId) (s : SymbolId) (args : List Ty) :
    Option (Option Ty) :=
  match u.kind s with
  | .typeParam | .abstractType => find visiting (u.boundsOf s).2
  | .cls | .refinement => u.findInParents find visiting s (u.specialise n s args)
  | _ => return none

def findAboveSingle (visiting : List SymbolId) (s : SymbolId) : Option (Option Ty) :=
  if u.kind s = .term then
    let declared := u.termType s
    if declared.isSingle then return none else find visiting declared
  else u.findInParents find visiting s some

end Find

/-- The form in which a type inherits from `c`, from the first parent that has one; the outer
option is none when `n` steps are too few. -/
def findBase (c : SymbolId) : Nat → List SymbolId → Ty → Option (Option Ty)
  | 0, _, _ => none
  | n + 1, visiting, t => do
    let t ← u.dealias n t
    match t with
    | .ref _ s args => if s = c then return some t else u.findAboveRef (findBase c n) n visiting s args
    | .single _ s => if s = c then return some t else u.findAboveSingle (findBase c n) visiting s
    | .self s =>
      let own := u.symbolType s
      if s = c then return some own else findBase c n visiting own
    | .refined ps _ => ps.findSomeM? (findBase c n visiting)
    | .poly _ r => findBase c n visiting r
    | .constant _ | .bounds .. => return none

def baseType (n : Nat) (t : Ty) (c : SymbolId) : Option (Option Ty) := do
  match ← u.findBase c n [] t with
  | some b => return some b
  | none => return if u.isUniversal c then some (u.typeRef c) else none

end TypeTag.SymbolTable
