import TypeTag.Descriptor.Basic

namespace TypeTag

/-- The long style writes names in full, as in `scala.List[+scala.Int]`, the short one only their last
segments, as in `List[+Int]`. -/
inductive NameStyle where
  | long
  | short
deriving DecidableEq

/-- A literal is quoted, a term ends in `.type`, and a type name that starts with a digit is the
placeholder of a type function's parameter. -/
def SymName.render (style : NameStyle) : SymName → String
  | .literal s => "\"" ++ s ++ "\""
  | .term s => (match style with
    | .long => s
    | .short => lastSegment s) ++ ".type"
  | .type s =>
    if (s.toList.head?.map Char.isDigit).getD false then "%" ++ s
    else match style with
      | .long => s
      | .short => lastSegment s

namespace Descriptor

def renderQualifier : Option String → String
  | none => ""
  | some q => q ++ "::"

def renderName (style : NameStyle) (n : NameRef String) : String :=
  renderQualifier n.qualifier ++ n.name.render style ++
    match n.boundaries with
    | .empty => ""
    | .defined l u => "|<" ++ l ++ ".." ++ u ++ ">"

def renderDecl : Decl String → String
  | .signature s ps r => "def " ++ s ++ "(" ++ ", ".intercalate ps ++ "): " ++ r
  | .typeMember s r => "type " ++ s ++ " = " ++ r

def rendering (style : NameStyle) : Algebra String where
  name := renderName style
  full s as q :=
    renderQualifier q ++ s.render style ++ "[" ++
      ", ".intercalate (as.map fun a ↦ a.variance.marker.toString ++ a.reference) ++ "]"
  lambda ps b := "λ " ++ ",".intercalate (ps.map ("%" ++ ·)) ++ " → " ++ b
  intersection ps := "\x7b" ++ " & ".intercalate ps ++ "\x7d"
  refinement p ds := "(" ++ p ++ ")\x7b" ++ "; ".intercalate (ds.map renderDecl) ++ "\x7d"

def render (style : NameStyle) : Descriptor → String :=
  fold (rendering style)

def longName : Descriptor → String :=
  render .long

def shortName : Descriptor → String :=
  render .short

end Descriptor

def NameRef.render (style : NameStyle) (n : NameRef Descriptor) : String :=
  Descriptor.renderName style (n.map (Descriptor.render style))

end TypeTag
