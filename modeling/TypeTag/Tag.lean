import TypeTag.Descriptor.Codec
import TypeTag.Descriptor.Render
import TypeTag.MultiMap

namespace TypeTag

structure Tag where
  reference : Descriptor
  stableBases : MultiMap Descriptor Descriptor
  unapplied : MultiMap (NameRef Descriptor) (NameRef Descriptor)

namespace MultiMap

variable {K V : Type}

def toJson (key : K → Json) (value : V → Json) (m : MultiMap K V) : Json :=
  .arr (m.entries.map fun e ↦ .arr [key e.1, .arr (e.2.map value)])

def readPair? (key : Json → Option K) (value : Json → Option V) (j : Json) :
    Option (K × List V) := do
  let [k, vs] ← j.items? | none
  return (← key k.1, ← readList? vs.1 fun v _ ↦ value v)

def ofJson? [Ord K] [Ord V] (key : Json → Option K) (value : Json → Option V) (j : Json) :
    Option (MultiMap K V) := do
  return ofEntries (← readList? j fun x _ ↦ readPair? key value x)

end MultiMap

namespace Tag

def display (t : Tag) : String :=
  t.reference.longName

def stableParents (t : Tag) (child : Descriptor) : List Descriptor :=
  t.stableBases.getD child

def unappliedParents (t : Tag) (child : NameRef Descriptor) : List (NameRef Descriptor) :=
  t.unapplied.getD child

def toJson (t : Tag) : Json :=
  .obj [("reference", t.reference.toJson),
    ("stable_bases", t.stableBases.toJson Descriptor.toJson Descriptor.toJson),
    ("unapplied_inheritance", t.unapplied.toJson NameRef.toJson NameRef.toJson)]

def ofJson? (j : Json) : Option Tag := do
  let [some r, some s, some u] ← j.record? ["reference", "stable_bases", "unapplied_inheritance"]
    | none
  return {
    reference := ← Descriptor.ofJson? r.1
    stableBases := ← MultiMap.ofJson? Descriptor.ofJson? Descriptor.ofJson? s.1
    unapplied := ← MultiMap.ofJson? NameRef.ofJson? NameRef.ofJson? u.1 }

end Tag

end TypeTag
