namespace TypeTag

abbrev ObjectId := Nat

/-- A value together with the object that carries it. -/
structure Handle (K : Type) where
  object : ObjectId
  value : K

structure CacheEntry (K V : Type) where
  key : Handle K
  value : V

/-- Keys are objects that the cache does not keep alive. An entry counts only as long as the object
that it was inserted through is alive; what is alive is told to each operation. -/
structure Cache (K V : Type) where
  entries : List (CacheEntry K V)
  hits : Nat
  misses : Nat

namespace Cache

variable {K V : Type} [BEq K] (c : Cache K V) (alive : ObjectId → Bool)

def empty : Cache K V := ⟨[], 0, 0⟩

instance : Inhabited (Cache K V) := ⟨empty⟩

def dropDead (k : K) : Cache K V :=
  { c with entries := c.entries.filter fun e ↦ alive e.key.object || !(e.key.value == k) }

def find? (k : K) : Option V :=
  (c.entries.find? fun e ↦ alive e.key.object && e.key.value == k).map (·.value)

def get (k : K) : Option V × Cache K V :=
  (c.find? alive k, c.dropDead alive k)

/-- Adds an entry unless there is a living one for an equal key, and tells the value that the cache
has then. -/
def insert (k : Handle K) (v : V) : V × Cache K V :=
  let d := c.dropDead alive k.value
  match c.find? alive k.value with
  | some w => (w, d)
  | none => (v, { d with entries := d.entries ++ [⟨k, v⟩] })

def fetch (k : K) : Option V × Cache K V :=
  match c.get alive k with
  | (some v, d) => (some v, { d with hits := d.hits + 1 })
  | (none, d) => (none, { d with misses := d.misses + 1 })

/-- The value for a key, built and inserted if it is missing. A build that fails inserts nothing. -/
def fetchOrBuild {ε : Type} (k : Handle K) (build : Unit → Except ε V) : Except ε V × Cache K V :=
  match c.fetch alive k.value with
  | (some v, d) => (.ok v, d)
  | (none, d) =>
    match build () with
    | .ok v =>
      let (w, d) := d.insert alive k v
      (.ok w, d)
    | .error e => (.error e, d)

def purge : Cache K V :=
  { c with entries := c.entries.filter fun e ↦ alive e.key.object }

def clear : Cache K V :=
  { c with entries := [] }

def size : Nat :=
  c.entries.length

def isEmpty : Bool :=
  c.entries.isEmpty

end Cache

end TypeTag
