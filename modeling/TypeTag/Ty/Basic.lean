namespace TypeTag

abbrev SymbolId := Nat

inductive Member (α : Type) where
  | method (name : String) (paramLists : List (List α)) (result : α)
  | type (name : String) (type : α)

inductive Ty where
  | ref (qualifier : Option Ty) (symbol : SymbolId) (args : List Ty)
  | single (qualifier : Option Ty) (term : SymbolId)
  /-- The type of a class seen from within. -/
  | self (owner : SymbolId)
  | constant (value : String)
  | refined (parents : List Ty) (members : List (Member Ty))
  | poly (params : List SymbolId) (result : Ty)
  | bounds (lower upper : Ty)

namespace Ty

instance : Inhabited Ty := ⟨self 0⟩

def args : Ty → List Ty
  | ref _ _ as => as
  | _ => []

def qualifier? : Ty → Option Ty
  | ref q .. | single q _ => q
  | _ => none

def symbol? : Ty → Option SymbolId
  | ref _ s _ => some s
  | single _ s => some s
  | self s => some s
  | poly _ r => r.symbol?
  | _ => none

def resultType : Ty → Ty
  | poly _ r => r
  | t => t

def isRefined : Ty → Bool
  | refined .. => true
  | _ => false

def isSingle : Ty → Bool
  | single .. => true
  | _ => false

def isPoly : Ty → Bool
  | poly .. => true
  | _ => false

def parents : Ty → List Ty
  | refined ps _ => ps
  | _ => []

def members : Ty → List (Member Ty)
  | refined _ ms => ms
  | _ => []

section Equality

mutual

def beq : Ty → Ty → Bool
  | ref p s as, ref q t bs => s == t && beqQualifier p q && beqList as bs
  | single p s, single q t => s == t && beqQualifier p q
  | self s, self t => s == t
  | constant a, constant b => a == b
  | refined ps ms, refined qs ns => beqList ps qs && beqMembers ms ns
  | poly ps r, poly qs t => ps == qs && beq r t
  | bounds l u, bounds m v => beq l m && beq u v
  | _, _ => false

def beqQualifier : Option Ty → Option Ty → Bool
  | none, none => true
  | some p, some q => beq p q
  | _, _ => false

def beqList : List Ty → List Ty → Bool
  | [], [] => true
  | t :: ts, u :: us => beq t u && beqList ts us
  | _, _ => false

def beqLists : List (List Ty) → List (List Ty) → Bool
  | [], [] => true
  | t :: ts, u :: us => beqList t u && beqLists ts us
  | _, _ => false

def beqMember : Member Ty → Member Ty → Bool
  | .method a ps r, .method b qs t => a == b && beqLists ps qs && beq r t
  | .type a t, .type b u => a == b && beq t u
  | _, _ => false

def beqMembers : List (Member Ty) → List (Member Ty) → Bool
  | [], [] => true
  | m :: ms, n :: ns => beqMember m n && beqMembers ms ns
  | _, _ => false

end

mutual

theorem beq_iff : ∀ t u : Ty, beq t u = true ↔ t = u
  | ref p s as, u => by
    cases u <;> simp [beq, beqQualifier_iff p, beqList_iff as, and_assoc, and_left_comm]
  | single p s, u => by cases u <;> simp [beq, beqQualifier_iff p, and_comm]
  | self s, u => by cases u <;> simp [beq]
  | constant a, u => by cases u <;> simp [beq]
  | refined ps ms, u => by cases u <;> simp [beq, beqList_iff ps, beqMembers_iff ms]
  | poly ps r, u => by cases u <;> simp [beq, beq_iff r]
  | bounds l m, u => by cases u <;> simp [beq, beq_iff l, beq_iff m]

theorem beqQualifier_iff : ∀ p q : Option Ty, beqQualifier p q = true ↔ p = q
  | none, q => by cases q <;> simp [beqQualifier]
  | some p, q => by cases q <;> simp [beqQualifier, beq_iff p]

theorem beqList_iff : ∀ ts us : List Ty, beqList ts us = true ↔ ts = us
  | [], us => by cases us <;> simp [beqList]
  | t :: ts, us => by cases us <;> simp [beqList, beq_iff t, beqList_iff ts]

theorem beqLists_iff : ∀ ts us : List (List Ty), beqLists ts us = true ↔ ts = us
  | [], us => by cases us <;> simp [beqLists]
  | t :: ts, us => by cases us <;> simp [beqLists, beqList_iff t, beqLists_iff ts]

theorem beqMember_iff : ∀ m n : Member Ty, beqMember m n = true ↔ m = n
  | .method a ps r, n => by cases n <;> simp [beqMember, beqLists_iff ps, beq_iff r, and_assoc]
  | .type a t, n => by cases n <;> simp [beqMember, beq_iff t]

theorem beqMembers_iff : ∀ ms ns : List (Member Ty), beqMembers ms ns = true ↔ ms = ns
  | [], ns => by cases ns <;> simp [beqMembers]
  | m :: ms, ns => by cases ns <;> simp [beqMembers, beqMember_iff m, beqMembers_iff ms]

end

instance : DecidableEq Ty := fun t u ↦ decidable_of_iff _ (beq_iff t u)

end Equality

end Ty

end TypeTag
