namespace TypeTag.SortedSet

variable {α : Type} [Ord α]

def insert (a : α) : List α → List α
  | [] => [a]
  | b :: l =>
    match compare a b with
    | .lt => a :: b :: l
    | .eq => b :: l
    | .gt => b :: insert a l

def ofList (l : List α) : List α :=
  l.foldl (fun s a ↦ insert a s) []

def mem (a : α) (s : List α) : Bool :=
  s.any fun b ↦ compare a b == .eq

def Increasing (s : List α) : Prop :=
  s.Pairwise fun a b ↦ compare a b = .lt

end TypeTag.SortedSet
