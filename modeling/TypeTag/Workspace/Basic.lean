import TypeTag.Build.Tag
import TypeTag.Workspace.Expr

namespace TypeTag

inductive Slot where
  | parents
  | bounds
  | body
deriving DecidableEq

/-- A symbol table that grows, named symbols and types, and a cache of descriptors. A named type is an
object, which lives as long as a name, the symbol table or a larger living object holds it. -/
structure Workspace where
  table : SymbolTable
  standard : Option Standard
  symbols : List (String × SymbolId)
  vars : List (String × Value)
  pins : List ((SymbolId × Slot) × List ObjectId)
  cache : RootCache
  nextObject : ObjectId

inductive Definition where
  | package (owner : Option String) (name : String)
  | cls (owner name : String)
  | object (owner name : String)
  | abstractType (owner name : String)
  | typeAlias (owner name : String)
  | term (owner name : String) (declared : Option TypeExpr)
  | typeParam (owner name : String) (v : Variance)
  | freeTypeParam (owner name : String) (v : Variance)
  | refinement (owner : String) (type : TypeExpr)

namespace Workspace

def ofTable (u : SymbolTable) : Workspace where
  table := u
  standard := none
  symbols := [("root", u.root), ("any", u.any), ("any_ref", u.anyRef), ("nothing", u.nothing)]
  vars := []
  pins := []
  cache := .empty
  nextObject := 0

def bare : Workspace :=
  ofTable .initial

def ofStandard (s : Standard) : Workspace :=
  let w := ofTable s.table
  { w with
    standard := some s
    symbols := w.symbols ++
      [("scala", s.scala), ("int", s.int), ("string", s.string), ("product", s.product),
       ("iterable", s.iterable), ("seq", s.seq), ("list", s.list), ("option", s.option),
       ("some", s.some), ("none", s.none), ("tuple2", s.tuple2), ("map", s.map),
       ("function1", s.function1), ("either", s.either), ("functor", s.functor),
       ("predef", s.predef), ("str_alias", s.strAlias), ("id_alias", s.idAlias),
       ("str_map_alias", s.strMapAlias)] }

variable (w : Workspace)

def env : TypeExpr.Env :=
  ⟨w.table, w.standard, w.symbols, w.vars⟩

def symbol (name : String) : Except ExprError SymbolId :=
  w.env.symbol name

def eval (e : TypeExpr) : Except ExprError Value :=
  e.eval w.env

def type (e : TypeExpr) : Except ExprError Ty :=
  return (← w.eval e).type

def nameSymbol (name : String) (s : SymbolId) : Workspace :=
  { w with symbols := (name, s) :: w.symbols.filter (·.1 != name) }

/-- Records the objects that the symbol table holds in a slot, which it held others in. -/
def pin (s : SymbolId) (slot : Slot) (keeps : List ObjectId) : Workspace :=
  { w with pins := ((s, slot), keeps) :: w.pins.filter (·.1 != (s, slot)) }

def alive (o : ObjectId) : Bool :=
  w.vars.any (·.2.keeps.contains o) || w.pins.any (·.2.contains o)

/-- The object of a value, a new one unless it has one, with all that it keeps alive. -/
def handle (v : Value) : Handle Ty × List ObjectId × Workspace :=
  match v.object with
  | some o => (⟨o, v.type⟩, v.keeps, w)
  | none =>
    (⟨w.nextObject, v.type⟩, w.nextObject :: v.keeps, { w with nextObject := w.nextObject + 1 })

def define (d : Definition) : Except ExprError (SymbolId × Workspace) := do
  let owned (owner : String) (f : SymbolTable → SymbolId → SymbolId × SymbolTable) :
      Except ExprError (SymbolId × Workspace) := do
    let (s, u) := f w.table (← w.symbol owner)
    return (s, { w with table := u })
  match d with
  | .package owner name =>
    let (s, u) := w.table.package (← owner.mapM w.symbol) name
    return (s, { w with table := u })
  | .cls owner name => owned owner fun u o ↦ u.cls o name
  | .object owner name => owned owner fun u o ↦ u.object o name
  | .abstractType owner name => owned owner fun u o ↦ u.abstractType o name
  | .typeAlias owner name => owned owner fun u o ↦ u.typeAlias o name
  | .term owner name none => owned owner fun u o ↦ u.term o name none
  | .term owner name (some e) =>
    let o ← w.symbol owner
    let v ← w.eval e
    let (s, u) := w.table.term o name v.type
    return (s, { w with table := u }.pin s .body v.keeps)
  | .typeParam owner name v => owned owner fun u o ↦ u.typeParam o name v
  | .freeTypeParam owner name v => owned owner fun u o ↦ u.freeTypeParam o name v
  | .refinement owner e =>
    let o ← w.symbol owner
    let v ← w.eval e
    let (s, u) := w.table.refinement o v.type
    return (s, { w with table := u }.pin s .body v.keeps)

def setParents (name : String) (es : List TypeExpr) : Except ExprError Workspace := do
  let s ← w.symbol name
  let vs ← es.mapM w.eval
  let u := w.table.setParents s (vs.map Value.type)
  return { w with table := u }.pin s .parents (vs.flatMap Value.keeps)

def setBounds (name : String) (lower upper : TypeExpr) : Except ExprError Workspace := do
  let s ← w.symbol name
  let l ← w.eval lower
  let h ← w.eval upper
  return { w with table := w.table.setBounds s l.type h.type }.pin s .bounds (l.keeps ++ h.keeps)

def setBody (name : String) (e : TypeExpr) : Except ExprError Workspace := do
  let s ← w.symbol name
  let v ← w.eval e
  return { w with table := w.table.setBody s v.type }.pin s .body v.keeps

def bindVar (name : String) (e : TypeExpr) : Except ExprError (Ty × Workspace) := do
  let (k, keeps, w) := w.handle (← w.eval e)
  let v : Value := ⟨k.value, keeps, some k.object⟩
  return (k.value, { w with vars := (name, v) :: w.vars.filter (·.1 != name) })

def dropVar (name : String) : Bool × Workspace :=
  (w.vars.any (·.1 == name), { w with vars := w.vars.filter (·.1 != name) })

/-- Runs an action on the cache with the object of a type, which lives while the action runs. -/
def withCache {α : Type} (e : TypeExpr)
    (act : RootCache → (ObjectId → Bool) → Handle Ty → α × RootCache) :
    Except ExprError (α × Workspace) := do
  let (k, keeps, w) := w.handle (← w.eval e)
  let (a, cache) := act w.cache (fun o ↦ keeps.contains o || w.alive o) k
  return (a, { w with cache })

structure BuildOptions where
  config : Config := {}
  fresh : Bool := false

variable (n : Nat) (options : BuildOptions)

def withBuildCache {α : Type} (e : TypeExpr)
    (act : RootCache → (ObjectId → Bool) → Handle Ty → α × RootCache) :
    Except ExprError (α × Workspace) :=
  w.withCache e fun c alive k ↦
    if options.fresh then ((act .empty alive k).1, c) else act c alive k

def makeDescriptor (e : TypeExpr) : Except ExprError (Build Descriptor × Workspace) :=
  w.withBuildCache options e (w.table.makeDescriptor n options.config)

def makeTag (e : TypeExpr) : Except ExprError (Build Tag × Workspace) :=
  w.withBuildCache options e (w.table.makeTag n options.config)

def purge : Workspace :=
  { w with cache := w.cache.purge w.alive }

def clear : Workspace :=
  { w with cache := w.cache.clear }

end Workspace

end TypeTag
