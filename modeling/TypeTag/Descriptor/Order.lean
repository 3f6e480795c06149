import TypeTag.Descriptor.Basic
import TypeTag.SortedSet

namespace TypeTag

def Variance.rank : Variance → Nat
  | .invariant => 0
  | .covariant => 1
  | .contravariant => 2

instance : Ord Variance := ⟨fun v w ↦ compare v.rank w.rank⟩

def SymName.rank : SymName → Nat
  | .term _ => 0
  | .type _ => 1
  | .literal _ => 2

instance : Ord SymName :=
  ⟨fun a b ↦ (compare a.rank b.rank).then (compare a.text b.text)⟩

namespace Descriptor

def rank : Descriptor → Nat
  | name _ => 0
  | full .. => 1
  | lambda .. => 2
  | intersection _ => 3
  | refinement .. => 4

mutual

def cmp : Descriptor → Descriptor → Ordering
  | name m, name n => cmpName m n
  | full s as p, full t bs q =>
    (compare s t).then ((cmpArgs as bs).then (cmpQualifier p q))
  | lambda ps b, lambda qs c => (compare ps qs).then (cmp b c)
  | intersection ps, intersection qs => cmpList ps qs
  | refinement p ds, refinement q es => (cmp p q).then (cmpDecls ds es)
  | a, b => compare a.rank b.rank

def cmpName : NameRef Descriptor → NameRef Descriptor → Ordering
  | ⟨s, b, p⟩, ⟨t, c, q⟩ => (compare s t).then ((cmpBoundaries b c).then (cmpQualifier p q))

def cmpBoundaries : Boundaries Descriptor → Boundaries Descriptor → Ordering
  | .empty, .empty => .eq
  | .empty, .defined .. => .lt
  | .defined .., .empty => .gt
  | .defined l u, .defined m v => (cmp l m).then (cmp u v)

def cmpQualifier : Option Descriptor → Option Descriptor → Ordering
  | none, none => .eq
  | none, some _ => .lt
  | some _, none => .gt
  | some p, some q => cmp p q

def cmpArgs : List (TypeArg Descriptor) → List (TypeArg Descriptor) → Ordering
  | [], [] => .eq
  | [], _ :: _ => .lt
  | _ :: _, [] => .gt
  | ⟨r, v⟩ :: as, ⟨s, w⟩ :: bs => ((cmp r s).then (compare v w)).then (cmpArgs as bs)

def cmpList : List Descriptor → List Descriptor → Ordering
  | [], [] => .eq
  | [], _ :: _ => .lt
  | _ :: _, [] => .gt
  | d :: ds, e :: es => (cmp d e).then (cmpList ds es)

def cmpDecl : Decl Descriptor → Decl Descriptor → Ordering
  | .signature s ps r, .signature t qs u => (compare s t).then ((cmpList ps qs).then (cmp r u))
  | .signature .., .typeMember .. => .lt
  | .typeMember .., .signature .. => .gt
  | .typeMember s r, .typeMember t u => (compare s t).then (cmp r u)

def cmpDecls : List (Decl Descriptor) → List (Decl Descriptor) → Ordering
  | [], [] => .eq
  | [], _ :: _ => .lt
  | _ :: _, [] => .gt
  | d :: ds, e :: es => (cmpDecl d e).then (cmpDecls ds es)

end

instance : Ord Descriptor := ⟨cmp⟩
instance : Ord (NameRef Descriptor) := ⟨cmpName⟩
instance : Ord (Decl Descriptor) := ⟨cmpDecl⟩

instance : BEq Descriptor := ⟨fun a b ↦ cmp a b == .eq⟩
instance : BEq (NameRef Descriptor) := ⟨fun a b ↦ cmpName a b == .eq⟩

/-- The intersection of some parts, those that are intersections being opened. A single part
stands for itself. -/
def intersect (parts : List Descriptor) : Descriptor :=
  let opened := parts.flatMap fun
    | intersection ps => ps
    | d => [d]
  match SortedSet.ofList opened with
  | [d] => d
  | ds => intersection ds

end Descriptor

end TypeTag
