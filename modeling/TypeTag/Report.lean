import TypeTag.Tag

namespace TypeTag

inductive TextStyle where
  | bold
  | cyan
  | dimmed

namespace TextStyle

def start : TextStyle → String
  | bold => "\x1b[1m"
  | cyan => "\x1b[36m"
  | dimmed => "\x1b[2m"

def reset : String := "\x1b[0m"

/-- Writes a text in a style, which is started again wherever the text itself resets it. -/
def paint (style : TextStyle) (s : String) : String :=
  style.start ++ (reset ++ style.start).intercalate (s.splitOn reset) ++ reset

end TextStyle

structure Report where
  name : String
  tag : Tag
  style : NameStyle

namespace Report

def renderSection {K V : Type} (color : Bool) (title : String) (m : MultiMap K V)
    (key : K → String) (value : V → String) : String :=
  let paint (style : TextStyle) (s : String) := if color then style.paint s else s
  let header := "  " ++ title ++ " (" ++ toString m.edgeCount ++ "):"
  let arrow := paint .dimmed "<:"
  let lines := m.edges.map fun (k, v) ↦
    "    " ++ key k ++ " " ++ arrow ++ " " ++ value v ++ "\n"
  paint .cyan header ++ "\n" ++ (if m.isEmpty then "    none\n" else String.join lines)

def rendered (r : Report) : String :=
  r.tag.reference.render r.style

def render (color : Bool) (r : Report) : String :=
  (if color then TextStyle.bold.paint r.name else r.name) ++ ": " ++ r.rendered ++ "\n" ++
    renderSection color "stable bases" r.tag.stableBases
      (Descriptor.render r.style) (Descriptor.render r.style) ++
    renderSection color "unapplied inheritance" r.tag.unapplied
      (NameRef.render r.style) (NameRef.render r.style)

def toJson (r : Report) : Json :=
  .obj [("name", .str r.name), ("rendered", .str r.rendered), ("tag", r.tag.toJson)]

end Report

end TypeTag
