namespace TypeTag.Text

/-- Ranges of code points in ascending order, ends included. -/
abbrev Ranges := List (Nat × Nat)

namespace Ranges

def covers (n : Nat) : Ranges → Bool
  | [] => false
  | r :: rs => if r.2 < n then covers n rs else r.1 ≤ n

end Ranges

end TypeTag.Text
