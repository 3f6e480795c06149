import TypeTag.CommandLine.Run

open TypeTag.CommandLine

def main (words : List String) : IO UInt32 := do
  let names := ["LIGHTTAG_CACHE", "LIGHTTAG_SERIALIZE_REFLECTION", "CLICOLOR_FORCE", "NO_COLOR",
    "CLICOLOR"]
  let env ← names.filterMapM fun name ↦ do return (← IO.getEnv name).map (name, ·)
  let out ← IO.getStdout
  let outcome := run words { env := fun name ↦ env.lookup name, terminal := ← out.isTty }
  out.putStr outcome.stdout
  out.flush
  IO.eprint outcome.stderr
  return UInt32.ofNat outcome.code
