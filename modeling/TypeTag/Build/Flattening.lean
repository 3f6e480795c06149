import TypeTag.SymbolTable.Dealias

namespace TypeTag

inductive Flattening where
  | single (t : Ty)
  | compound (parts : List Ty) (members : List (Member Ty))

namespace SymbolTable

variable (u : SymbolTable)

/-- Collects the parts, each once, and the members of the types on a stack. -/
def flattenFrom (m : Nat) :
    Nat → List Ty → List Ty → List (Member Ty) → Option (List Ty × List (Member Ty))
  | _, [], parts, members => some (parts, members)
  | 0, _ :: _, _, _ => none
  | n + 1, t :: stack, parts, members => do
    match ← u.dealias m t with
    | .refined ps ms => flattenFrom m n (ps ++ stack) parts (members ++ ms)
    | _ => flattenFrom m n stack (if parts.contains t then parts else parts ++ [t]) members

/-- `A with (B with C { def f: Int }) { type T }` has the parts `A`, `B` and `C` and the members `f`
and `T`. -/
def flatten (n : Nat) (t : Ty) : Option Flattening := do
  match ← u.flattenFrom n n [t] [] [] with
  | ([single], []) => return .single single
  | (parts, members) => return .compound parts members

end SymbolTable

end TypeTag
