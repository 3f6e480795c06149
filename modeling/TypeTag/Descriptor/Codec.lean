import TypeTag.Descriptor.Order
import TypeTag.Json.Basic

namespace TypeTag

def Variance.label : Variance → String
  | .invariant => "Invariant"
  | .covariant => "Covariant"
  | .contravariant => "Contravariant"

def Variance.toJson (v : Variance) : Json :=
  .str v.label

def Variance.ofJson? (j : Json) : Option Variance := do
  match ← j.bareVariant? with
  | "Invariant" => some .invariant
  | "Covariant" => some .covariant
  | "Contravariant" => some .contravariant
  | _ => none

def SymName.toJson : SymName → Json
  | .term s => .obj [("Term", .str s)]
  | .type s => .obj [("Type", .str s)]
  | .literal s => .obj [("Literal", .str s)]

def SymName.ofJson? (j : Json) : Option SymName := do
  let (k, x) ← j.variant?
  let s ← x.1.string?
  match k with
  | "Term" => some (.term s)
  | "Type" => some (.type s)
  | "Literal" => some (.literal s)
  | _ => none

section Write

def Boundaries.toJson : Boundaries Json → Json
  | .empty => .str "Empty"
  | .defined l u => .obj [("Defined", .obj [("lower", l), ("upper", u)])]

def NameRef.json (n : NameRef Json) : Json :=
  .obj [("name", n.name.toJson), ("boundaries", n.boundaries.toJson),
    ("prefix", n.qualifier.getD .null)]

def TypeArg.toJson (a : TypeArg Json) : Json :=
  .obj [("reference", a.reference), ("variance", a.variance.toJson)]

def Decl.toJson : Decl Json → Json
  | .signature s ps r =>
    .obj [("Signature", .obj [("name", .str s), ("params", .arr ps), ("result", r)])]
  | .typeMember s r => .obj [("TypeMember", .obj [("name", .str s), ("reference", r)])]

namespace Descriptor

def writing : Algebra Json where
  name n := .obj [("Name", n.json)]
  full s as q :=
    .obj [("Full", .obj [("name", s.toJson), ("parameters", .arr (as.map TypeArg.toJson)),
      ("prefix", q.getD .null)])]
  lambda ps b := .obj [("Lambda", .obj [("params", .arr (ps.map .str)), ("body", b)])]
  intersection ps := .obj [("Intersection", .obj [("parts", .arr ps)])]
  refinement p ds :=
    .obj [("Refinement", .obj [("parent", p), ("decls", .arr (ds.map Decl.toJson))])]

def toJson : Descriptor → Json :=
  fold writing

end Descriptor

def NameRef.toJson (n : NameRef Descriptor) : Json :=
  (n.map Descriptor.toJson).json

end Write

section Read

variable {α : Type}

def readQualifier? {j : Json} (read : (x : Json) → sizeOf x < sizeOf j → Option α) :
    Option j.Part → Option (Option α)
  | none => some none
  | some ⟨.null, _⟩ => some none
  | some ⟨x, h⟩ => (read x h).map some

def Boundaries.read? (j : Json) (read : (x : Json) → sizeOf x < sizeOf j → Option α) :
    Option (Boundaries α) :=
  if j.bareVariant? = some "Empty" then some .empty
  else do
    let ("Defined", ⟨b, hb⟩) ← j.variant? | none
    let [some l, some u] ← b.object? ["lower", "upper"] | none
    return .defined (← read l.1 (Nat.lt_trans l.2 hb)) (← read u.1 (Nat.lt_trans u.2 hb))

def NameRef.read? (j : Json) (read : (x : Json) → sizeOf x < sizeOf j → Option α) :
    Option (NameRef α) := do
  let [some s, some b, q] ← j.record? ["name", "boundaries", "prefix"] | none
  return {
    name := ← SymName.ofJson? s.1
    boundaries := ← Boundaries.read? b.1 fun x h ↦ read x (Nat.lt_trans h b.2)
    qualifier := ← readQualifier? read q }

def TypeArg.read? (j : Json) (read : (x : Json) → sizeOf x < sizeOf j → Option α) :
    Option (TypeArg α) := do
  let [some r, some v] ← j.record? ["reference", "variance"] | none
  return ⟨← read r.1 r.2, ← Variance.ofJson? v.1⟩

def readList? {β : Type} (j : Json) (read : (x : Json) → sizeOf x < sizeOf j → Option β) :
    Option (List β) := do
  (← j.items?).mapM fun x ↦ read x.1 x.2

def Decl.read? (j : Json) (read : (x : Json) → sizeOf x < sizeOf j → Option α) :
    Option (Decl α) := do
  let (k, ⟨b, hb⟩) ← j.variant?
  match k with
  | "Signature" =>
    let [some s, some ps, some r] ← b.object? ["name", "params", "result"] | none
    return .signature (← s.1.string?)
      (← readList? ps.1 fun x h ↦ read x (Nat.lt_trans h (Nat.lt_trans ps.2 hb)))
      (← read r.1 (Nat.lt_trans r.2 hb))
  | "TypeMember" =>
    let [some s, some r] ← b.object? ["name", "reference"] | none
    return .typeMember (← s.1.string?) (← read r.1 (Nat.lt_trans r.2 hb))
  | _ => none

/-- Reading is more liberal than writing: a record may be the array of its fields, objects may have
further fields, a qualifier may be missing, and a set may come in any order and repeated. -/
def Descriptor.ofJson? (j : Json) : Option Descriptor := do
  let (k, ⟨b, _hb⟩) ← j.variant?
  match k with
  | "Name" => return .name (← NameRef.read? b fun x _h ↦ Descriptor.ofJson? x)
  | "Full" =>
    let [some s, some as, q] ← b.record? ["name", "parameters", "prefix"] | none
    return .full (← SymName.ofJson? s.1)
      (← readList? as.1 fun x _h ↦ TypeArg.read? x fun y _h' ↦ Descriptor.ofJson? y)
      (← readQualifier? (fun x _h ↦ Descriptor.ofJson? x) q)
  | "Lambda" =>
    let [some ps, some r] ← b.record? ["params", "body"] | none
    return .lambda (← readList? ps.1 fun x _ ↦ x.string?) (← Descriptor.ofJson? r.1)
  | "Intersection" =>
    let [some ps] ← b.record? ["parts"] | none
    return .intersection (SortedSet.ofList (← readList? ps.1 fun x _h ↦ Descriptor.ofJson? x))
  | "Refinement" =>
    let [some p, some ds] ← b.record? ["parent", "decls"] | none
    return .refinement (← Descriptor.ofJson? p.1)
      (SortedSet.ofList (← readList? ds.1 fun x _h ↦ Decl.read? x fun y _h' ↦ Descriptor.ofJson? y))
  | _ => none
termination_by sizeOf j
decreasing_by all_goals grind

def NameRef.ofJson? (j : Json) : Option (NameRef Descriptor) :=
  NameRef.read? j fun x _ ↦ Descriptor.ofJson? x

end Read

end TypeTag
