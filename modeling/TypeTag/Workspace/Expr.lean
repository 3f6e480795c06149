import TypeTag.Cache
import TypeTag.SymbolTable.Standard

namespace TypeTag

inductive TypeExpr where
  | ref (symbol : String) (args : List TypeExpr)
  | select (qualifier : Option TypeExpr) (symbol : String) (args : List TypeExpr)
  | single (symbol : String)
  | selectSingle (qualifier : Option TypeExpr) (symbol : String)
  | self (symbol : String)
  | constant (value : String)
  | refined (parents : List TypeExpr) (members : List (Member TypeExpr))
  | poly (params : List String) (result : TypeExpr)
  | bounds (lower upper : TypeExpr)
  | var (name : String)
  | sample (name : String)
  /-- A constructor applied to its own application, so many times. -/
  | nest (symbol : String) (depth : Nat) (innermost : TypeExpr)
  | malformed

inductive ExprError where
  | unknownSymbol (name : String)
  | unknownVar (name : String)
  | unknownSample (name : String)
  | noSamples
  | malformed

/-- A type, the objects that it keeps alive, and its own object if it has one already. -/
structure Value where
  type : Ty
  keeps : List ObjectId
  object : Option ObjectId

namespace TypeExpr

def both (a b : List ObjectId) : List ObjectId :=
  (a ++ b).eraseDups

structure Env where
  table : SymbolTable
  standard : Option Standard
  symbols : List (String × SymbolId)
  vars : List (String × Value)

variable (env : Env)

def Env.symbol (name : String) : Except ExprError SymbolId :=
  match env.symbols.lookup name with
  | some s => .ok s
  | none => .error (.unknownSymbol name)

def fresh (t : Ty) (keeps : List ObjectId) : Value :=
  ⟨t, keeps, none⟩

mutual

/-- Evaluates the parts of an expression from left to right. Arguments and a qualifier come before
the symbol that they are given to; the first fault is the one that is told. -/
def eval : TypeExpr → Except ExprError Value
  | ref s as => do
    let (ts, ks) ← evalList as
    let s ← env.symbol s
    return fresh (env.table.applied s ts) ks
  | select q s as => do
    let (ts, ks) ← evalList as
    let (q, ls) ← evalQualifier q
    let s ← env.symbol s
    return fresh (.ref q s ts) (both ks ls)
  | single s => do
    let s ← env.symbol s
    return fresh (env.table.single s) []
  | selectSingle q s => do
    let (q, ks) ← evalQualifier q
    let s ← env.symbol s
    return fresh (.single q s) ks
  | self s => do
    let s ← env.symbol s
    return fresh (.self s) []
  | constant v => return fresh (.constant v) []
  | refined ps ms => do
    let (ts, ks) ← evalList ps
    let (ms, ls) ← evalMembers ms
    return fresh (.refined ts ms) (both ks ls)
  | poly ps r => do
    let ss ← ps.mapM env.symbol
    let v ← eval r
    return fresh (.poly ss v.type) v.keeps
  | bounds l h => do
    let v ← eval l
    let w ← eval h
    return fresh (.bounds v.type w.type) (both v.keeps w.keeps)
  | var x =>
    match env.vars.lookup x with
    | some v => .ok v
    | none => .error (.unknownVar x)
  | sample name =>
    match env.standard with
    | none => .error .noSamples
    | some s =>
      match s.sample? name with
      | some t => .ok (fresh t [])
      | none => .error (.unknownSample name)
  | nest s depth e => do
    let s ← env.symbol s
    let v ← eval e
    if depth = 0 then return v
    return fresh (depth.repeat (fun t ↦ env.table.applied s [t]) v.type) v.keeps
  | malformed => .error .malformed

def evalQualifier : Option TypeExpr → Except ExprError (Option Ty × List ObjectId)
  | none => return (none, [])
  | some e => do
    let v ← eval e
    return (some v.type, v.keeps)

def evalList : List TypeExpr → Except ExprError (List Ty × List ObjectId)
  | [] => return ([], [])
  | e :: es => do
    let v ← eval e
    let (ts, ks) ← evalList es
    return (v.type :: ts, both v.keeps ks)

def evalLists : List (List TypeExpr) → Except ExprError (List (List Ty) × List ObjectId)
  | [] => return ([], [])
  | es :: ess => do
    let (ts, ks) ← evalList es
    let (tss, ls) ← evalLists ess
    return (ts :: tss, both ks ls)

def evalMember : Member TypeExpr → Except ExprError (Member Ty × List ObjectId)
  | .method m ess r => do
    let (tss, ks) ← evalLists ess
    let v ← eval r
    return (.method m tss v.type, both ks v.keeps)
  | .type m e => do
    let v ← eval e
    return (.type m v.type, v.keeps)

def evalMembers : List (Member TypeExpr) → Except ExprError (List (Member Ty) × List ObjectId)
  | [] => return ([], [])
  | m :: ms => do
    let (n, ks) ← evalMember m
    let (ns, ls) ← evalMembers ms
    return (n :: ns, both ks ls)

end

end TypeExpr

end TypeTag
