import TypeTag.Descriptor.Order

namespace TypeTag

namespace Descriptor

def ownMention : SymName → List String
  | .type s => [s]
  | _ => []

def mentioning : Algebra (List String) where
  name n := ownMention n.name ++
    (match n.boundaries with
      | .empty => []
      | .defined l u => l ++ u) ++ n.qualifier.getD []
  full s as q := ownMention s ++ as.flatMap (·.reference) ++ q.getD []
  lambda _ b := b
  intersection ps := ps.flatten
  refinement p ds := p ++ ds.flatMap fun
    | .signature _ ps r => ps.flatten ++ r
    | .typeMember _ r => r

/-- The texts of all type names in a descriptor, with repetitions; the parameters that a type
function declares are not mentioned by that. -/
def mentions : Descriptor → List String :=
  fold mentioning

def typeNames (d : Descriptor) : List String :=
  SortedSet.ofList d.mentions

end Descriptor

structure Lambda where
  params : List String
  body : Descriptor

namespace Lambda

def referenced (l : Lambda) : List String :=
  SortedSet.ofList (l.params.filter l.body.mentions.contains)

def unused (l : Lambda) : List String :=
  l.params.filter fun p ↦ !l.referenced.contains p

def allReferenced (l : Lambda) : Bool :=
  l.referenced.length == l.params.length

def someReferenced (l : Lambda) : Bool :=
  !l.referenced.isEmpty

def toDescriptor (l : Lambda) : Descriptor :=
  .lambda l.params l.body

def collapse (l : Lambda) : Descriptor :=
  if l.someReferenced then l.toDescriptor else l.body

end Lambda

def Descriptor.lambda? : Descriptor → Option Lambda
  | lambda ps b => some ⟨ps, b⟩
  | _ => none

end TypeTag
