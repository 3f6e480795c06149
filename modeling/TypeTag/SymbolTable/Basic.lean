import TypeTag.Descriptor.Basic
import TypeTag.Ty.Basic

namespace TypeTag

inductive SymbolKind where
  | package
  | cls
  | object
  | term
  | typeParam
  | abstractType
  | typeAlias
  /-- The class behind a refinement type; its own name means nothing. -/
  | refinement
deriving DecidableEq

def SymbolKind.label : SymbolKind → String
  | package => "Package"
  | cls => "Class"
  | object => "Module"
  | term => "Term"
  | typeParam => "TypeParam"
  | abstractType => "AbstractType"
  | typeAlias => "TypeAlias"
  | refinement => "Refinement"

structure SymbolEntry where
  name : String
  owner : Option SymbolId
  kind : SymbolKind
  typeParams : List SymbolId := []
  variance : Variance := .invariant
  parents : List Ty := []
  bounds : Option (Ty × Ty) := none
  body : Option Ty := none
deriving DecidableEq

instance : Inhabited SymbolEntry := ⟨{ name := "", owner := none, kind := .package }⟩

structure SymbolTable where
  symbols : Array SymbolEntry
  names : List (String × SymbolId)
  root : SymbolId
  any : SymbolId
  anyRef : SymbolId
  nothing : SymbolId

namespace SymbolTable

variable (u : SymbolTable)

def size : Nat :=
  u.symbols.size

def entry (s : SymbolId) : SymbolEntry :=
  u.symbols[s]?.getD default

def kind (s : SymbolId) : SymbolKind :=
  (u.entry s).kind

def ownerNames : Nat → SymbolId → List String
  | 0, _ => []
  | n + 1, s =>
    let i := u.entry s
    match i.owner with
    | some o => i.name :: ownerNames n o
    | none => if i.kind = .package then [] else [i.name]

/-- Owners have smaller numbers, so no symbol has more of them than its number. -/
def fullName (s : SymbolId) : String :=
  ".".intercalate (u.ownerNames (s + 1) s).reverse

def lookup (name : String) : Option SymbolId :=
  u.names.lookup name

def nextId : SymbolId :=
  u.symbols.size

def add (i : SymbolEntry) : SymbolTable :=
  let v := { u with symbols := u.symbols.push i }
  if i.kind = .refinement then v
  else
    let name := v.fullName u.nextId
    if (v.lookup name).isSome then v else { v with names := (name, u.nextId) :: v.names }

def define (i : SymbolEntry) : SymbolId × SymbolTable :=
  (u.nextId, u.add i)

/-- The package of a name in its owner, the root package when none is given. A symbol that already
has the full name is taken for it. -/
def package (owner : Option SymbolId) (name : String) : SymbolId × SymbolTable :=
  let owner := owner.getD u.root
  let ownerName := u.fullName owner
  match u.lookup (if ownerName.isEmpty then name else ownerName ++ "." ++ name) with
  | some s => (s, u)
  | none => u.define { name, owner, kind := .package }

def cls (owner : SymbolId) (name : String) : SymbolId × SymbolTable :=
  u.define { name, owner, kind := .cls }

def object (owner : SymbolId) (name : String) : SymbolId × SymbolTable :=
  u.define { name, owner, kind := .object }

def term (owner : SymbolId) (name : String) (declared : Option Ty) : SymbolId × SymbolTable :=
  u.define { name, owner, kind := .term, body := declared }

def freeTypeParam (owner : SymbolId) (name : String) (v : Variance) : SymbolId × SymbolTable :=
  u.define { name, owner, kind := .typeParam, variance := v }

def abstractType (owner : SymbolId) (name : String) : SymbolId × SymbolTable :=
  u.define { name, owner, kind := .abstractType }

def typeAlias (owner : SymbolId) (name : String) : SymbolId × SymbolTable :=
  u.define { name, owner, kind := .typeAlias }

def refinement (owner : SymbolId) (type : Ty) : SymbolId × SymbolTable :=
  u.define { name := "<refinement>", owner, kind := .refinement, body := type }

def update (s : SymbolId) (f : SymbolEntry → SymbolEntry) : SymbolTable :=
  { u with symbols := u.symbols.modify s f }

def typeParam (owner : SymbolId) (name : String) (v : Variance) : SymbolId × SymbolTable :=
  let (s, w) := u.freeTypeParam owner name v
  (s, w.update owner fun i ↦ { i with typeParams := i.typeParams ++ [s] })

def setParents (s : SymbolId) (parents : List Ty) : SymbolTable :=
  u.update s fun i ↦ { i with parents }

def setBounds (s : SymbolId) (lower upper : Ty) : SymbolTable :=
  u.update s fun i ↦ { i with bounds := some (lower, upper) }

def setBody (s : SymbolId) (body : Ty) : SymbolTable :=
  u.update s fun i ↦ { i with body := some body }

def initial : SymbolTable :=
  let u : SymbolTable :=
    { symbols := #[], names := [], root := 0, any := 2, anyRef := 3, nothing := 4 }
  let (_, u) := u.define { name := "<root>", owner := none, kind := .package }
  let (s, u) := u.package none "scala"
  let (_, u) := u.cls s "Any"
  let (_, u) := u.cls s "AnyRef"
  (u.cls s "Nothing").2

end SymbolTable

end TypeTag
