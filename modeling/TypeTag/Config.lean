import TypeTag.Text.Blank

namespace TypeTag

structure Config where
  cached : Bool := true
  serialized : Bool := true
deriving DecidableEq

def Text.switch? (s : String) : Option Bool :=
  match lower (trim s) with
  | "on" | "1" | "true" | "yes" => some true
  | "off" | "0" | "false" | "no" => some false
  | _ => none

def Config.ofEnv (env : String → Option String) : Config where
  cached := ((env "LIGHTTAG_CACHE").bind Text.switch?).getD true
  serialized := ((env "LIGHTTAG_SERIALIZE_REFLECTION").bind Text.switch?).getD true

inductive LogFormat where
  | text
  | tree
  | json
deriving DecidableEq

namespace LogFormat

def label : LogFormat → String
  | text => "Text"
  | tree => "Tree"
  | json => "Json"

/-- Reads the name of a format in any case, with blanks around it; what is no name means `text`. -/
def ofString (s : String) : LogFormat :=
  match Text.lower (Text.trim s) with
  | "tree" => tree
  | "json" => json
  | _ => text

end LogFormat

end TypeTag
