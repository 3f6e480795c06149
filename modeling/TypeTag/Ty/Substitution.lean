import TypeTag.Ty.Basic

namespace TypeTag.Ty

section Instantiate

variable (apply : Ty → List Ty → Option Ty) (params : List SymbolId) (args : List Ty)

mutual

/-- Replaces `params[i]` by `args[i]` everywhere in a type; `apply` applies what stands at a head.
A parameter without an argument is left alone, with its arguments. -/
def instantiate : Ty → Option Ty
  | ref q s as => do
    let bs ← instantiateList as
    match params.idxOf? s with
    | some i =>
      match args[i]? with
      | some c => if bs.isEmpty then return c else apply c bs
      | none => return ref q s as
    | none => return ref (← instantiateQualifier q) s bs
  | single q s => return single (← instantiateQualifier q) s
  | self s => return self s
  | constant v => return constant v
  | refined ps ms => return refined (← instantiateList ps) (← instantiateMembers ms)
  | poly ps r => return poly ps (← instantiate r)
  | bounds l u => return bounds (← instantiate l) (← instantiate u)

def instantiateQualifier : Option Ty → Option (Option Ty)
  | none => return none
  | some q => return some (← instantiate q)

def instantiateList : List Ty → Option (List Ty)
  | [] => return []
  | t :: ts => return (← instantiate t) :: (← instantiateList ts)

def instantiateLists : List (List Ty) → Option (List (List Ty))
  | [] => return []
  | ts :: tss => return (← instantiateList ts) :: (← instantiateLists tss)

def instantiateMember : Member Ty → Option (Member Ty)
  | .method n pss r => return .method n (← instantiateLists pss) (← instantiate r)
  | .type n t => return .type n (← instantiate t)

def instantiateMembers : List (Member Ty) → Option (List (Member Ty))
  | [] => return []
  | m :: ms => return (← instantiateMember m) :: (← instantiateMembers ms)

end

end Instantiate

/-- Applies a constructor: a reference without arguments takes these, a type function is
instantiated by `beta`, and what is no constructor stays as it is. -/
def applyConstructor (beta : List SymbolId → List Ty → Ty → Option Ty) (c : Ty) (args : List Ty) :
    Option Ty :=
  match c with
  | ref q s [] => return ref q s args
  | poly ps r => beta ps args r
  | c => return c

def substitute (n : Nat) (params : List SymbolId) (args : List Ty) (t : Ty) : Option Ty :=
  if params.isEmpty || args.isEmpty then some t
  else match n with
    | 0 => t.instantiate (applyConstructor fun _ _ _ ↦ none) params args
    | n + 1 => t.instantiate (applyConstructor (substitute n)) params args

end TypeTag.Ty
