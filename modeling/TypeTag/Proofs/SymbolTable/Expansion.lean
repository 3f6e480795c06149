import TypeTag.Proofs.SymbolTable.AliasChains
import TypeTag.Proofs.SymbolTable.Heads

namespace TypeTag.SymbolTable

variable {u : SymbolTable} {n : Nat} {t d : Ty}

theorem Shows.of_dealias {t' : Ty} {h : Head}
    (hend : ∀ {k e}, u.dealias k t = some e → ∃ m, u.dealias m t' = some e) (hs : u.Shows t h) :
    u.Shows t' h := by
  cases hs with
  | ref he =>
    obtain ⟨m, he⟩ := hend he
    exact .ref he
  | self he =>
    obtain ⟨m, he⟩ := hend he
    exact .self he
  | single he hk =>
    obtain ⟨m, he⟩ := hend he
    exact .single he hk
  | term he hk hs hh =>
    obtain ⟨m, he⟩ := hend he
    exact .term he hk hs hh
  | refined he hp hh =>
    obtain ⟨m, he⟩ := hend he
    exact .refined he hp hh
  | poly he hh =>
    obtain ⟨m, he⟩ := hend he
    exact .poly he hh

/-- Expanding an alias does not change what a type comes down to. -/
theorem shows_dealias_iff (hd : u.dealias n t = some d) {h : Head} :
    u.Shows d h ↔ u.Shows t h := by
  constructor
  · exact .of_dealias fun he ↦ ⟨n, dealias_dealias hd he ▸ hd⟩
  · obtain ⟨m, hself⟩ := exists_dealias_self hd
    exact .of_dealias fun he ↦ ⟨m, dealias_unique hd he ▸ hself⟩

end TypeTag.SymbolTable
