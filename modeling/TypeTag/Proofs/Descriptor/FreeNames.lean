import TypeTag.Proofs.Descriptor.Mentions

namespace TypeTag.Descriptor

def freeing : Algebra (List String) :=
  mentioningWith fun ps b ↦ b.filter fun x ↦ !ps.contains x

/-- The texts of the type names in a descriptor that no type function around them binds, with
repetitions. -/
def freeNames : Descriptor → List String :=
  fold freeing

variable {x : String} {d : Descriptor}

theorem mem_freeNames_lambda {ps : List String} :
    x ∈ (lambda ps d).freeNames ↔ x ∈ d.freeNames ∧ x ∉ ps := by
  simp [freeNames, freeing, mentioningWith]

theorem mem_freeNames_iff (h : d.isApplied = true) :
    x ∈ d.freeNames ↔ d.symName? = some (.type x) ∨ ∃ e ∈ d.parts, x ∈ e.freeNames :=
  mem_fold_mentioningWith_iff h

end TypeTag.Descriptor
