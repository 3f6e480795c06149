import TypeTag.SortedSet

namespace TypeTag

/-- A finite set of edges `key → value`. Keys and the values of a key stand in increasing order. -/
structure MultiMap (K V : Type) where
  entries : List (K × List V)

namespace MultiMap

variable {K V : Type} [Ord K] [Ord V]

def empty : MultiMap K V := ⟨[]⟩

instance : Inhabited (MultiMap K V) := ⟨empty⟩

def insertEntry (k : K) (v : V) : List (K × List V) → List (K × List V)
  | [] => [(k, [v])]
  | (l, vs) :: rest =>
    match compare k l with
    | .lt => (k, [v]) :: (l, vs) :: rest
    | .eq => (l, SortedSet.insert v vs) :: rest
    | .gt => (l, vs) :: insertEntry k v rest

def insert (m : MultiMap K V) (k : K) (v : V) : MultiMap K V :=
  ⟨insertEntry k v m.entries⟩

def get? (m : MultiMap K V) (k : K) : Option (List V) :=
  (m.entries.find? fun e ↦ compare k e.1 == .eq).map (·.2)

def getD (m : MultiMap K V) (k : K) : List V :=
  (m.get? k).getD []

def contains (m : MultiMap K V) (k : K) (v : V) : Bool :=
  SortedSet.mem v (m.getD k)

def containsKey (m : MultiMap K V) (k : K) : Bool :=
  (m.get? k).isSome

def insertNew (m : MultiMap K V) (k : K) (v : V) : Bool × MultiMap K V :=
  (!m.contains k v, m.insert k v)

def keys (m : MultiMap K V) : List K :=
  m.entries.map (·.1)

def size (m : MultiMap K V) : Nat :=
  m.entries.length

def isEmpty (m : MultiMap K V) : Bool :=
  m.entries.isEmpty

def edges (m : MultiMap K V) : List (K × V) :=
  m.entries.flatMap fun e ↦ e.2.map (e.1, ·)

def edgeCount (m : MultiMap K V) : Nat :=
  m.edges.length

/-- Keeps the edges that pass a test; a key that loses its last value goes too. -/
def filter (m : MultiMap K V) (keep : K → V → Bool) : MultiMap K V :=
  ⟨(m.entries.map fun e ↦ (e.1, e.2.filter (keep e.1))).filter fun e ↦ !e.2.isEmpty⟩

def insertMany (m : MultiMap K V) (pairs : List (K × V)) : MultiMap K V :=
  pairs.foldl (fun m e ↦ m.insert e.1 e.2) m

def ofList (pairs : List (K × V)) : MultiMap K V :=
  empty.insertMany pairs

/-- Merges entries whose keys may repeat and whose values may come in any order. An entry without
values adds nothing. -/
def ofEntries (entries : List (K × List V)) : MultiMap K V :=
  ofList (entries.flatMap fun e ↦ e.2.map (e.1, ·))

end MultiMap

end TypeTag
