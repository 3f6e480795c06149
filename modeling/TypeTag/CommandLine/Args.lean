namespace TypeTag.CommandLine

inductive OutputFormat where
  | text
  | json
deriving DecidableEq

def OutputFormat.label : OutputFormat → String
  | text => "Text"
  | json => "Json"

def OutputFormat.ofString? (s : String) : Option OutputFormat :=
  match s.map Char.toLower with
  | "text" => some .text
  | "json" => some .json
  | _ => none

structure Args where
  types : List String := []
  format : OutputFormat := .text
  noCache : Bool := false
  short : Bool := false
  list : Bool := false
  pretty : Option Bool := none

inductive ArgsError where
  | invalidValue
  | unknownArgument
  | argumentConflict
  | tooManyValues
  | displayHelp
  | displayVersion
deriving DecidableEq

def ArgsError.label : ArgsError → String
  | invalidValue => "InvalidValue"
  | unknownArgument => "UnknownArgument"
  | argumentConflict => "ArgumentConflict"
  | tooManyValues => "TooManyValues"
  | displayHelp => "DisplayHelp"
  | displayVersion => "DisplayVersion"

inductive ValueOption where
  | type
  | format
  | pretty

inductive Flag where
  | noCache
  | short
  | list
  | help
  | version

inductive ArgOption where
  | value (o : ValueOption)
  | flag (f : Flag)

def ArgOption.ofLong? : String → Option ArgOption
  | "type" => some (.value .type)
  | "format" => some (.value .format)
  | "pretty" => some (.value .pretty)
  | "no-cache" => some (.flag .noCache)
  | "short" => some (.flag .short)
  | "list" => some (.flag .list)
  | "help" => some (.flag .help)
  | "version" => some (.flag .version)
  | _ => none

def ArgOption.ofShort? : Char → Option ArgOption
  | 't' => some (.value .type)
  | 'f' => some (.value .format)
  | 's' => some (.flag .short)
  | 'l' => some (.flag .list)
  | 'h' => some (.flag .help)
  | 'V' => some (.flag .version)
  | _ => none

/-- The arguments read so far. An option waits for its value until the next word, and a value that
came as a word of its own is checked when the next option or the end is met. -/
structure ArgsState where
  args : Args := {}
  formatGiven : Bool := false
  pending : Option (ValueOption × Option String) := none

namespace ArgsState

def setValue (st : ArgsState) (o : ValueOption) (s : String) : Except ArgsError ArgsState :=
  match o with
  | .type => return { st with args := { st.args with types := st.args.types ++ [s] } }
  | .format =>
    if st.formatGiven then throw .argumentConflict
    else match OutputFormat.ofString? s with
      | some format => return { st with args := { st.args with format }, formatGiven := true }
      | none => throw .invalidValue
  | .pretty =>
    if st.args.pretty.isSome then throw .argumentConflict
    else match s with
      | "true" => return { st with args := { st.args with pretty := some true } }
      | "false" => return { st with args := { st.args with pretty := some false } }
      | _ => throw .invalidValue

def settle (st : ArgsState) : Except ArgsError ArgsState :=
  match st.pending with
  | none => return st
  | some (_, none) => throw .invalidValue
  | some (o, some s) => { st with pending := none }.setValue o s

def setFlag (st : ArgsState) (f : Flag) : Except ArgsError ArgsState := do
  let st ← st.settle
  let a := st.args
  match f with
  | .noCache =>
    if a.noCache then throw .argumentConflict
    return { st with args := { a with noCache := true } }
  | .short =>
    if a.short then throw .argumentConflict
    return { st with args := { a with short := true } }
  | .list =>
    if a.list then throw .argumentConflict
    return { st with args := { a with list := true } }
  | .help => throw .displayHelp
  | .version => throw .displayVersion

def setOption (st : ArgsState) (o : ValueOption) (attached : Option String) :
    Except ArgsError ArgsState := do
  let st ← st.settle
  match attached with
  | some s => st.setValue o s
  | none => return { st with pending := some (o, none) }

/-- The value attached to a short option: the rest of the word, less an equals sign before it. -/
def attachedValue? : List Char → Option String
  | [] => none
  | '=' :: cs => some (String.ofList cs)
  | cs => some (String.ofList cs)

def readShort (st : ArgsState) : List Char → Except ArgsError ArgsState
  | [] => return st
  | c :: cs =>
    match ArgOption.ofShort? c with
    | some (.flag f) => do readShort (← st.setFlag f) cs
    | some (.value o) => st.setOption o (attachedValue? cs)
    | none => throw .unknownArgument

def readLong (st : ArgsState) (cs : List Char) : Except ArgsError ArgsState :=
  let name := String.ofList (cs.takeWhile (· ≠ '='))
  let attached := match cs.dropWhile (· ≠ '=') with
    | [] => none
    | _ :: v => some (String.ofList v)
  match ArgOption.ofLong? name with
  | some (.flag f) => if attached.isSome then throw .tooManyValues else st.setFlag f
  | some (.value o) => st.setOption o attached
  | none => throw .unknownArgument

def readWord (st : ArgsState) (s : String) : Except ArgsError ArgsState :=
  match st.pending with
  | some (o, none) => return { st with pending := some (o, some s) }
  | _ => throw .unknownArgument

def read (st : ArgsState) : List String → Except ArgsError Args
  | [] => return (← st.settle).args
  | s :: rest => do
    match s.toList with
    | ['-', '-'] => if rest.isEmpty then return (← st.settle).args else throw .unknownArgument
    | '-' :: '-' :: cs => (← st.readLong cs).read rest
    | '-' :: c :: cs => (← st.readShort (c :: cs)).read rest
    | _ => (← st.readWord s).read rest

end ArgsState

def Args.ofWords (words : List String) : Except ArgsError Args :=
  ArgsState.read {} words

end TypeTag.CommandLine
