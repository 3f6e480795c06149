import TypeTag.Text.Quoted
import TypeTag.Ty.Basic

namespace TypeTag.Ty

open Text (bracket quote)

def textNode (name : String) (fields : List (String × String)) : String :=
  name ++ " \x7b " ++ ", ".intercalate (fields.map fun f ↦ f.1 ++ ": " ++ f.2) ++ " \x7d"

def textSymbol (s : SymbolId) : String :=
  "SymbolId(" ++ toString s ++ ")"

mutual

def text : Ty → String
  | ref q s as =>
    textNode "Ref"
      [("prefix", textQualifier q), ("symbol", textSymbol s), ("args", bracket (textList as))]
  | single q s => textNode "Single" [("prefix", textQualifier q), ("term", textSymbol s)]
  | self s => "This(" ++ textSymbol s ++ ")"
  | constant v => "Constant(" ++ quote v ++ ")"
  | refined ps ms =>
    textNode "Refined" [("parents", bracket (textList ps)), ("decls", bracket (textMembers ms))]
  | poly ps r => textNode "Poly" [("params", bracket (ps.map textSymbol)), ("result", text r)]
  | bounds l u => textNode "Bounds" [("lower", text l), ("upper", text u)]

def textQualifier : Option Ty → String
  | none => "None"
  | some q => "Some(" ++ text q ++ ")"

def textList : List Ty → List String
  | [] => []
  | t :: ts => text t :: textList ts

def textLists : List (List Ty) → List String
  | [] => []
  | ts :: tss => bracket (textList ts) :: textLists tss

def textMember : Member Ty → String
  | .method n pss r =>
    textNode "Method"
      [("name", quote n), ("param_lists", bracket (textLists pss)), ("result", text r)]
  | .type n t => textNode "Type" [("name", quote n), ("ty", text t)]

def textMembers : List (Member Ty) → List String
  | [] => []
  | m :: ms => textMember m :: textMembers ms

end

def shape : Ty → String
  | ref .. => "Named"
  | single .. => "Singleton"
  | self _ => "This"
  | constant _ => "Constant"
  | refined .. => "Refinement"
  | poly .. => "Poly"
  | bounds .. => "Bounds"

end TypeTag.Ty
