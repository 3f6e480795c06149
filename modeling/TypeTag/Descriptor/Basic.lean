namespace TypeTag

inductive Variance where
  | invariant
  | covariant
  | contravariant
deriving DecidableEq, Inhabited

def Variance.marker : Variance → Char
  | .invariant => '='
  | .covariant => '+'
  | .contravariant => '-'

/-- Terms and types have names of their own, which may share a text; a literal's text is its
value. -/
inductive SymName where
  | term (text : String)
  | type (text : String)
  | literal (text : String)
deriving DecidableEq

namespace SymName

def text : SymName → String
  | term s | type s | literal s => s

def lastSegment (s : String) : String :=
  String.ofList (s.toList.reverse.takeWhile (· ≠ '.')).reverse

def short : SymName → String
  | term s | type s => lastSegment s
  | literal s => s

end SymName

inductive Boundaries (α : Type) where
  | empty
  | defined (lower upper : α)

structure NameRef (α : Type) where
  name : SymName
  boundaries : Boundaries α := .empty
  qualifier : Option α := none

structure TypeArg (α : Type) where
  reference : α
  variance : Variance

/-- A member that a refinement declares; a method with several parameter lists has a signature
for each of them. -/
inductive Decl (α : Type) where
  | signature (name : String) (params : List α) (result : α)
  | typeMember (name : String) (reference : α)

inductive Descriptor where
  | name (n : NameRef Descriptor)
  | full (name : SymName) (args : List (TypeArg Descriptor)) (qualifier : Option Descriptor)
  | lambda (params : List String) (body : Descriptor)
  | intersection (parts : List Descriptor)
  | refinement (parent : Descriptor) (decls : List (Decl Descriptor))

section Map

variable {α β : Type} (f : α → β)

def Boundaries.map : Boundaries α → Boundaries β
  | empty => empty
  | defined l u => defined (f l) (f u)

def NameRef.map (n : NameRef α) : NameRef β :=
  ⟨n.name, n.boundaries.map f, n.qualifier.map f⟩

def TypeArg.map (a : TypeArg α) : TypeArg β :=
  ⟨f a.reference, a.variance⟩

def Decl.map : Decl α → Decl β
  | signature s ps r => signature s (ps.map f) (f r)
  | typeMember s r => typeMember s (f r)

end Map

def Boundaries.isEmpty {α : Type} : Boundaries α → Bool
  | empty => true
  | defined .. => false

def Decl.name {α : Type} : Decl α → String
  | signature s .. => s
  | typeMember s _ => s

namespace Descriptor

instance : Inhabited Descriptor := ⟨intersection []⟩

def typeName (s : String) : Descriptor :=
  name { name := .type s }

def isApplied : Descriptor → Bool
  | lambda .. => false
  | _ => true

def isNamed : Descriptor → Bool
  | name _ | full .. => true
  | _ => false

def symName? : Descriptor → Option SymName
  | name n => some n.name
  | full s .. => some s
  | _ => none

def boundaries? : Descriptor → Option (Boundaries Descriptor)
  | name n => some n.boundaries
  | _ => none

def qualifier? : Descriptor → Option Descriptor
  | name n => n.qualifier
  | full _ _ q => q
  | _ => none

def typeArgs : Descriptor → List (TypeArg Descriptor)
  | full _ as _ => as
  | _ => []

def asName? : Descriptor → Option (NameRef Descriptor)
  | name n => some n
  | full s _ q => some { name := s, qualifier := q }
  | _ => none

/-- What to make of each kind of descriptor, given the results for its parts. -/
structure Algebra (α : Type) where
  name : NameRef α → α
  full : SymName → List (TypeArg α) → Option α → α
  lambda : List String → α → α
  intersection : List α → α
  refinement : α → List (Decl α) → α

section Fold

variable {α : Type} (g : Algebra α)

mutual

def fold : Descriptor → α
  | name n => g.name (foldName n)
  | full s as q => g.full s (foldArgs as) (foldQualifier q)
  | lambda ps b => g.lambda ps (fold b)
  | intersection ps => g.intersection (foldList ps)
  | refinement p ds => g.refinement (fold p) (foldDecls ds)

def foldName : NameRef Descriptor → NameRef α
  | ⟨s, b, q⟩ => ⟨s, foldBoundaries b, foldQualifier q⟩

def foldBoundaries : Boundaries Descriptor → Boundaries α
  | .empty => .empty
  | .defined l u => .defined (fold l) (fold u)

def foldQualifier : Option Descriptor → Option α
  | none => none
  | some q => some (fold q)

def foldArgs : List (TypeArg Descriptor) → List (TypeArg α)
  | [] => []
  | ⟨r, v⟩ :: as => ⟨fold r, v⟩ :: foldArgs as

def foldList : List Descriptor → List α
  | [] => []
  | d :: ds => fold d :: foldList ds

def foldDecl : Decl Descriptor → Decl α
  | .signature s ps r => .signature s (foldList ps) (fold r)
  | .typeMember s r => .typeMember s (fold r)

def foldDecls : List (Decl Descriptor) → List (Decl α)
  | [] => []
  | d :: ds => foldDecl d :: foldDecls ds

end

theorem foldBoundaries_eq (b : Boundaries Descriptor) : foldBoundaries g b = b.map (fold g) := by
  cases b <;> rfl

theorem foldQualifier_eq (q : Option Descriptor) : foldQualifier g q = q.map (fold g) := by
  cases q <;> rfl

theorem foldName_eq (n : NameRef Descriptor) : foldName g n = n.map (fold g) := by
  cases n with
  | mk s b q =>
    change NameRef.mk s (foldBoundaries g b) (foldQualifier g q) = _
    rw [foldBoundaries_eq, foldQualifier_eq]
    rfl

theorem foldArgs_eq (as : List (TypeArg Descriptor)) :
    foldArgs g as = as.map (TypeArg.map (fold g)) := by
  induction as with
  | nil => rfl
  | cons a as ih => exact congrArg (a.map (fold g) :: ·) ih

theorem foldList_eq (ds : List Descriptor) : foldList g ds = ds.map (fold g) := by
  induction ds with
  | nil => rfl
  | cons d ds ih => exact congrArg (fold g d :: ·) ih

theorem foldDecl_eq (d : Decl Descriptor) : foldDecl g d = d.map (fold g) := by
  cases d with
  | signature s ps r => exact congrArg (Decl.signature s · (fold g r)) (foldList_eq g ps)
  | typeMember s r => rfl

theorem foldDecls_eq (ds : List (Decl Descriptor)) :
    foldDecls g ds = ds.map (Decl.map (fold g)) := by
  induction ds with
  | nil => rfl
  | cons d ds ih =>
    change foldDecl g d :: foldDecls g ds = _
    rw [foldDecl_eq, ih, List.map_cons]

@[simp] theorem fold_name (n : NameRef Descriptor) :
    fold g (name n) = g.name (n.map (fold g)) :=
  congrArg g.name (foldName_eq g n)

@[simp] theorem fold_full (s : SymName) (as : List (TypeArg Descriptor)) (q : Option Descriptor) :
    fold g (full s as q) = g.full s (as.map (TypeArg.map (fold g))) (q.map (fold g)) :=
  congr (congrArg (g.full s) (foldArgs_eq g as)) (foldQualifier_eq g q)

@[simp] theorem fold_lambda (ps : List String) (b : Descriptor) :
    fold g (lambda ps b) = g.lambda ps (fold g b) :=
  rfl

@[simp] theorem fold_intersection (ps : List Descriptor) :
    fold g (intersection ps) = g.intersection (ps.map (fold g)) :=
  congrArg g.intersection (foldList_eq g ps)

@[simp] theorem fold_refinement (p : Descriptor) (ds : List (Decl Descriptor)) :
    fold g (refinement p ds) = g.refinement (fold g p) (ds.map (Decl.map (fold g))) :=
  congrArg (g.refinement (fold g p)) (foldDecls_eq g ds)

end Fold

end Descriptor

end TypeTag
