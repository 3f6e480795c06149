import TypeTag.SymbolTable.Types
import TypeTag.Ty.Size
import TypeTag.Ty.Substitution

namespace TypeTag.SymbolTable

variable (u : SymbolTable)

/-- The parameters, arguments and body of an alias that can be expanded: one with a body and with
as many arguments as parameters. -/
def aliasRedex? : Ty → Option (List SymbolId × List Ty × Ty)
  | .ref _ s args =>
    let i := u.entry s
    match i.kind, i.body with
    | .typeAlias, some b =>
      if args.length = i.typeParams.length then some (i.typeParams, args, b) else none
    | _, _ => none
  | _ => none

/-- Expands a type until no alias is at its head or a type in `seen` is met again, in at most `n`
steps. For an alias that grows for ever no `n` is enough. -/
def dealiasFrom (n : Nat) (seen : List Measured) (t : Ty) : Option Ty :=
  match u.aliasRedex? t with
  | none => some t
  | some (params, args, body) =>
    if seen.contains t.measured then some t
    else match n with
      | 0 => none
      | n + 1 => do dealiasFrom n (t.measured :: seen) (← body.substitute n params args)

def dealias (n : Nat) (t : Ty) : Option Ty :=
  u.dealiasFrom n [] t

def dealiasResult (n : Nat) (t : Ty) : Option Ty := do
  u.dealias n (← u.dealias n t).resultType

def headParams (n : Nat) (t : Ty) : Option (List SymbolId) := do
  match ← u.dealias n t with
  | .ref _ s _ => return (u.entry s).typeParams
  | _ => return []

end TypeTag.SymbolTable
