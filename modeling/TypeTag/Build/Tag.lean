import TypeTag.Build.Inheritance
import TypeTag.Cache
import TypeTag.Config
import TypeTag.Tag

namespace TypeTag

abbrev RootCache := Cache Ty Descriptor

def RootCache.describe (c : RootCache) (alive : ObjectId → Bool) (k : Handle Ty)
    (build : Unit → Build Descriptor) : Build Descriptor × RootCache :=
  match c.fetch alive k.value with
  | (some d, c) => (.done [.cacheHit k.value] (.ok d), c)
  | (none, c) =>
    match build () with
    | .exhausted => (.exhausted, c)
    | .done log (.error e) => (.done (.cacheMiss k.value :: log) (.error e), c)
    | .done log (.ok d) =>
      let (d, c) := c.insert alive k d
      (.done (.cacheMiss k.value :: log) (.ok d), c)

namespace SymbolTable

variable (u : SymbolTable) (n : Nat)

/-- The descriptor of a root is that of its expansion. -/
def rootDescriptor (t : Ty) : Build Descriptor := do
  u.descriptor n (← u.dealias n t)

def tagOf (reference : Descriptor) (t : Ty) : Build Tag := do
  let components ← u.closeOverAncestors n (← u.reachable n t)
  let stableBases ← u.stableBases n components
  let unapplied ← u.unappliedInheritance n components
  .emit (.tagBuilt reference components.length stableBases.edgeCount unapplied.edgeCount)
  return { reference, stableBases, unapplied }

def tag (t : Ty) : Build Tag := do
  u.tagOf n (← u.rootDescriptor n t) t

variable (config : Config) (c : RootCache) (alive : ObjectId → Bool) (k : Handle Ty)

def makeDescriptor : Build Descriptor × RootCache :=
  if config.cached then c.describe alive k fun _ ↦ u.rootDescriptor n k.value
  else (u.rootDescriptor n k.value, c)

/-- The tag of a type, its descriptor through the cache unless the settings disable it. -/
def makeTag : Build Tag × RootCache :=
  let (root, c) := u.makeDescriptor n config c alive k
  (do u.tagOf n (← root) k.value, c)

end SymbolTable

end TypeTag
