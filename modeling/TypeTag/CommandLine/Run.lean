import TypeTag.Build.Tag
import TypeTag.CommandLine.Args
import TypeTag.Json.Pretty
import TypeTag.Report
import TypeTag.SymbolTable.Standard

namespace TypeTag.CommandLine

structure Outcome where
  code : Nat
  stdout : String
  stderr : String

inductive RunError where
  | unknownType (name : String)
  | build (name : String) (cause : BuildError)
  | exhausted (name : String)

def RunError.message : RunError → String
  | unknownType name =>
    "unknown type \x60" ++ name ++ "\x60; run with --list to see the available names"
  | build name e =>
    "failed to build a tag for \x60" ++ name ++ "\x60\n\nCaused by:\n    " ++ e.message
  | exhausted name => "failed to build a tag for \x60" ++ name ++ "\x60"

structure Surroundings where
  env : String → Option String
  terminal : Bool

def Surroundings.allowsColor (s : Surroundings) : Bool :=
  if (s.env "CLICOLOR_FORCE").any (· ≠ "0") then true
  else if (s.env "NO_COLOR").isSome then false
  else s.terminal && (s.env "CLICOLOR").all (· ≠ "0")

def versionText : String := "lighttag 0.1.0\n"

def helpText : String :=
  String.join <| List.map (· ++ "\n")
    ["Print light type tags for the built-in prelude types",
     "",
     "Usage: lighttag [OPTIONS]",
     "",
     "Options:",
     "  -t, --type <NAME>      Prelude type to describe, by sample name (see --list)",
     "  -f, --format <FORMAT>  Output format [default: text] [possible values: text, json]",
     "      --no-cache         Build every reference from scratch",
     "  -s, --short            Render names by their last segment only",
     "  -l, --list             List the available sample names and exit",
     "      --pretty <PRETTY>  Enable color and formatting [possible values: true, false]",
     "  -h, --help             Print help",
     "  -V, --version          Print version"]

def stepBound : Nat := 1000

/-- The tags of samples, which share a cache. Each sample is an object that lives until its tag is
built. -/
def buildTags (s : Standard) (config : Config) :
    RootCache → ObjectId → List String → Except RunError (List (String × Tag))
  | _, _, [] => return []
  | c, o, name :: names => do
    match s.sample? name with
    | none => throw (.unknownType name)
    | some t =>
      match s.table.makeTag stepBound config c (· == o) ⟨o, t⟩ with
      | (.exhausted, _) => throw (.exhausted name)
      | (.done _ (.error e), _) => throw (.build name e)
      | (.done _ (.ok tag), c) => return (name, tag) :: (← buildTags s config c (o + 1) names)

def printTags (args : Args) (color : Bool) (tags : List (String × Tag)) : String :=
  let style := if args.short then .short else .long
  let reports := tags.map fun (name, tag) ↦ Report.mk name tag style
  match args.format with
  | .json => (Json.arr (reports.map Report.toJson)).pretty ++ "\n"
  | .text => String.join (reports.map (Report.render color))

def runArgs (args : Args) (around : Surroundings) : Outcome :=
  let samples := standard.samples.map (·.1)
  if args.list then ⟨0, String.join (samples.map (· ++ "\n")), ""⟩
  else
    let config := Config.ofEnv around.env
    let config := if args.noCache then { config with cached := false } else config
    let names := if args.types.isEmpty then samples else args.types
    match buildTags standard config .empty 0 names with
    | .error e => ⟨1, "", "Error: " ++ e.message ++ "\n"⟩
    | .ok tags =>
      let color := args.pretty.getD around.terminal && around.allowsColor
      ⟨0, printTags args color tags, ""⟩

def run (words : List String) (around : Surroundings) : Outcome :=
  match Args.ofWords words with
  | .ok args => runArgs args around
  | .error .displayVersion => ⟨0, versionText, ""⟩
  | .error .displayHelp => ⟨0, helpText, ""⟩
  | .error e => ⟨2, "", "error: " ++ e.label ++ "\n"⟩

end TypeTag.CommandLine
