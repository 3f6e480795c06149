namespace TypeTag

inductive Json where
  | null
  | bool (b : Bool)
  | num (n : Int)
  | str (s : String)
  | arr (items : List Json)
  | obj (fields : List (String × Json))

namespace Json

instance : Inhabited Json := ⟨null⟩

abbrev Part (j : Json) := { x : Json // sizeOf x < sizeOf j }

def lookup (k : String) : (fs : List (String × Json)) → Option { x : Json // sizeOf x < sizeOf fs }
  | [] => none
  | (l, v) :: fs =>
    if k = l then some ⟨v, by simp only [List.cons.sizeOf_spec, Prod.mk.sizeOf_spec]; omega⟩
    else (lookup k fs).map fun x ↦
      ⟨x.1, by have := x.2; simp only [List.cons.sizeOf_spec]; omega⟩

def field? : (j : Json) → String → Option j.Part
  | obj fs, k => (lookup k fs).map fun x ↦ ⟨x.1, by have := x.2; simp; omega⟩
  | _, _ => none

def items? : (j : Json) → Option (List j.Part)
  | arr xs => some <| xs.attach.map fun x ↦
      ⟨x.1, by have := List.sizeOf_lt_of_mem x.2; simp; omega⟩
  | _ => none

/-- The fields of a record, in the order of their names: an object, where any may be missing and
others may stand between them, or the array of all of them. -/
def record? (names : List String) : (j : Json) → Option (List (Option j.Part))
  | arr xs => do
    let ps ← items? (arr xs)
    if ps.length = names.length then some (ps.map some) else none
  | obj fs => some (names.map (field? (obj fs)))
  | _ => none

def object? (names : List String) : (j : Json) → Option (List (Option j.Part))
  | obj fs => some (names.map (field? (obj fs)))
  | _ => none

def variant? : (j : Json) → Option (String × j.Part)
  | obj [(k, v)] => some (k, ⟨v, by simp; omega⟩)
  | _ => none

/-- The name of a variant without fields: a string, or an object whose one value is null. -/
def bareVariant? : Json → Option String
  | str s => some s
  | obj [(k, null)] => some k
  | _ => none

def string? : Json → Option String
  | str s => some s
  | _ => none

end Json

end TypeTag
