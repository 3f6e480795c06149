import TypeTag.Ty.Basic

namespace TypeTag

namespace Ty

mutual

def size : Ty → Nat
  | ref q _ as => sizeQualifier q + sizeList as + 1
  | single q _ => sizeQualifier q + 1
  | self _ => 1
  | constant _ => 1
  | refined ps ms => sizeList ps + sizeMembers ms + 1
  | poly _ r => size r + 1
  | bounds l u => size l + size u + 1

def sizeQualifier : Option Ty → Nat
  | none => 0
  | some q => size q

def sizeList : List Ty → Nat
  | [] => 0
  | t :: ts => size t + sizeList ts

def sizeLists : List (List Ty) → Nat
  | [] => 0
  | ts :: tss => sizeList ts + sizeLists tss

def sizeMember : Member Ty → Nat
  | .method _ pss r => sizeLists pss + size r + 1
  | .type _ t => size t + 1

def sizeMembers : List (Member Ty) → Nat
  | [] => 0
  | m :: ms => sizeMember m + sizeMembers ms

end

end Ty

structure Measured where
  size : Nat
  type : Ty

/-- Equality looks at the symbols and the sizes first, so that a look-up among many large types seldom
has to compare two of them as a whole. -/
instance : DecidableEq Measured := fun a b ↦
  decidable_of_iff (a.type.symbol? = b.type.symbol? ∧ a.size = b.size ∧ a.type = b.type) <| by
    cases a
    cases b
    simp only [Measured.mk.injEq, and_iff_right_iff_imp, and_imp]
    rintro - rfl
    rfl

def Ty.measured (t : Ty) : Measured :=
  ⟨t.size, t⟩

@[simp]
theorem Ty.measured_inj {t u : Ty} : t.measured = u.measured ↔ t = u := by
  constructor
  · exact congrArg Measured.type
  · rintro rfl
    rfl

end TypeTag
