namespace TypeTag

/-- The types that are being expanded, from the outermost to the current one. One type may be entered
several times, and leaving it forgets one entry only. -/
structure Trail (α : Type) where
  counts : List (α × Nat)
  depth : Nat

namespace Trail

variable {α : Type} [BEq α]

def empty : Trail α := ⟨[], 0⟩

instance : Inhabited (Trail α) := ⟨empty⟩

def count (p : Trail α) (a : α) : Nat :=
  (p.counts.lookup a).getD 0

def contains (p : Trail α) (a : α) : Bool :=
  (p.counts.lookup a).isSome

def isEmpty (p : Trail α) : Bool :=
  p.counts.isEmpty

/-- How far the current type is nested in the outermost one; it names the parameters of type
functions. -/
def level (p : Trail α) : Nat :=
  p.depth - 1

def enter (p : Trail α) (a : α) : Trail α where
  counts :=
    if p.contains a then p.counts.map fun e ↦ if e.1 == a then (e.1, e.2 + 1) else e
    else (a, 1) :: p.counts
  depth := p.depth + 1

def leave (p : Trail α) (a : α) : Trail α where
  counts :=
    if 1 < p.count a then p.counts.map fun e ↦ if e.1 == a then (e.1, e.2 - 1) else e
    else p.counts.filter fun e ↦ !(e.1 == a)
  depth := p.depth - 1

def scope {β : Type} (p : Trail α) (a : α) (act : Trail α → β × Trail α) : β × Trail α :=
  let (b, q) := act (p.enter a)
  (b, q.leave a)

end Trail

end TypeTag
