import TypeTag.SymbolTable.Basic

namespace TypeTag

inductive Signature where
  | bounds (lower upper : Ty)
  | singleton
  | concrete (t : Ty)

namespace SymbolTable

variable (u : SymbolTable)

/-- The qualifier that a symbol's owner implies: the package, the one object or term, or the class
seen from within. Type parameters have none, nor has what a type parameter or an alias owns. -/
def defaultQualifier (s : SymbolId) : Option Ty :=
  go (s + 1) s
where
  go : Nat → SymbolId → Option Ty
  | 0, _ => none
  | n + 1, s =>
    if u.kind s = .typeParam then none
    else do
      let o ← (u.entry s).owner
      match u.kind o with
      | .package => return .ref none o []
      | .object | .term => return .single (go n o) o
      | .typeParam | .typeAlias => none
      | .cls | .abstractType | .refinement => return .self o

def applied (s : SymbolId) (args : List Ty) : Ty :=
  .ref (u.defaultQualifier s) s args

def typeRef (s : SymbolId) : Ty :=
  u.applied s []

def single (s : SymbolId) : Ty :=
  .single (u.defaultQualifier s) s

def anyType : Ty :=
  u.typeRef u.any

def anyRefType : Ty :=
  u.typeRef u.anyRef

def nothingType : Ty :=
  u.typeRef u.nothing

def isUniversal (s : SymbolId) : Bool :=
  s == u.any || s == u.anyRef || s == u.nothing

def isTop : Ty → Bool
  | .ref _ s _ => s == u.any
  | _ => false

def isBottom : Ty → Bool
  | .ref _ s _ => s == u.nothing
  | _ => false

def isPackage (s : SymbolId) : Bool :=
  u.kind s == .package

def isTerm (s : SymbolId) : Bool :=
  u.kind s == .object || u.kind s == .term

def isTransparent (s : SymbolId) : Bool :=
  u.kind s == .refinement

def boundsOf (s : SymbolId) : Ty × Ty :=
  (u.entry s).bounds.getD (u.nothingType, u.anyType)

def symbolType (s : SymbolId) : Ty :=
  let i := u.entry s
  let own := u.applied s (i.typeParams.map u.typeRef)
  if i.kind = .refinement then i.body.getD own else own

def signature (s : SymbolId) : Signature :=
  let i := u.entry s
  match i.kind with
  | .typeParam | .abstractType => .bounds (u.boundsOf s).1 (u.boundsOf s).2
  | .object => .singleton
  | .term =>
    match i.body with
    | some t => if t.isSingle then .singleton else .concrete t
    | none => .singleton
  | .typeAlias => .concrete (i.body.getD (u.typeRef s))
  | .package | .cls | .refinement => .concrete (u.symbolType s)

def termType (s : SymbolId) : Ty :=
  let i := u.entry s
  match i.kind, i.body with
  | .term, some t => t
  | _, _ => u.single s

/-- The term that a term is declared to be the same as. -/
def termAlias? (s : SymbolId) : Option SymbolId :=
  let i := u.entry s
  match i.kind, i.body with
  | .term, some (.single _ t) => some t
  | _, _ => none

/-- The end of a chain of terms declared to be the same, or the first term met twice. -/
def resolveTerm (s : SymbolId) : SymbolId :=
  go (u.size + 1) [] s
where
  go : Nat → List SymbolId → SymbolId → SymbolId
  | 0, _, s => s
  | n + 1, seen, s =>
    if seen.contains s then s
    else match u.termAlias? s with
      | some t => go n (s :: seen) t
      | none => s

def typeParams : Ty → List SymbolId
  | .poly ps _ => ps
  | .ref _ s [] => (u.entry s).typeParams
  | _ => []

def takesTypeArgs (t : Ty) : Bool :=
  !(u.typeParams t).isEmpty

/-- Turns a generic type without arguments into the type function that applies it. -/
def etaExpand : Ty → Ty
  | .ref q s [] =>
    let ps := (u.entry s).typeParams
    if ps.isEmpty then .ref q s [] else .poly ps (.ref q s (ps.map u.typeRef))
  | t => t

end SymbolTable

end TypeTag
