import TypeTag.Proofs.Steps.Queries

namespace TypeTag

/-- What a type comes down to, its arguments left out. -/
inductive Head where
  | ref (s : SymbolId)
  | single (s : SymbolId)
  | self (s : SymbolId)
deriving DecidableEq

namespace SymbolTable

variable (u : SymbolTable)

def IsClass (s : SymbolId) : Prop :=
  u.kind s = .cls ∨ u.kind s = .object ∨ u.kind s = .refinement

instance (s : SymbolId) : Decidable (u.IsClass s) :=
  inferInstanceAs (Decidable (_ ∨ _))

def anchor? : Head → Option SymbolId
  | .ref s | .self s => some s
  | .single s => if u.kind s = .object then some s else none

/-- The heads of a type are that of its expansion, or those of the parts of a refinement, the result
of a type function, or the declared type of a term. -/
inductive Shows : Ty → Head → Prop
  | ref {t : Ty} {n : Nat} {q : Option Ty} {s : SymbolId} {as : List Ty}
    (hd : u.dealias n t = some (.ref q s as)) : Shows t (.ref s)
  | self {t : Ty} {n : Nat} {s : SymbolId} (hd : u.dealias n t = some (.self s)) :
    Shows t (.self s)
  | single {t : Ty} {n : Nat} {q : Option Ty} {s : SymbolId}
    (hd : u.dealias n t = some (.single q s)) (hk : u.kind s ≠ .term) : Shows t (.single s)
  | term {t : Ty} {n : Nat} {q : Option Ty} {s : SymbolId} {h : Head}
    (hd : u.dealias n t = some (.single q s)) (hk : u.kind s = .term)
    (hs : (u.termType s).isSingle = false) (hh : Shows (u.termType s) h) : Shows t h
  | refined {t : Ty} {n : Nat} {ps : List Ty} {ms : List (Member Ty)} {p : Ty} {h : Head}
    (hd : u.dealias n t = some (.refined ps ms)) (hp : p ∈ ps) (hh : Shows p h) : Shows t h
  | poly {t : Ty} {n : Nat} {ps : List SymbolId} {r : Ty} {h : Head}
    (hd : u.dealias n t = some (.poly ps r)) (hh : Shows r h) : Shows t h

/-- The types that the ancestors of a symbol are found through: the upper bound of a parameter or an
abstract type, the body of an alias, the parents of a class. -/
def Leads (s : SymbolId) (t : Ty) : Prop :=
  match u.kind s with
  | .typeParam | .abstractType => t = (u.boundsOf s).2
  | .typeAlias => (u.entry s).body = some t
  | .cls | .object | .refinement => t ∈ (u.entry s).parents
  | .package | .term => False

/-- From `s` one comes to the class `c` in at most so many steps. -/
inductive Climbs (c : SymbolId) : Nat → SymbolId → Prop
  | here {k : Nat} (hc : u.IsClass c) : Climbs c k c
  | up {k : Nat} {s s' : SymbolId} {t : Ty} {h : Head} (ht : u.Leads s t) (hh : u.Shows t h)
    (ha : u.anchor? h = some s') (hs : Climbs c k s') : Climbs c (k + 1) s

variable {u}

section Shows

variable {n : Nat} {t : Ty} {h : Head}

theorem shows_ref_iff {q : Option Ty} {s : SymbolId} {as : List Ty}
    (hd : u.dealias n t = some (.ref q s as)) : u.Shows t h ↔ h = .ref s := by
  constructor
  · intro hh
    cases hh with
    | ref he => cases dealias_unique hd he; rfl
    | self he | single he | term he | refined he | poly he => cases dealias_unique hd he
  · rintro rfl
    exact .ref hd

theorem shows_class_iff {q : Option Ty} {c : SymbolId} {as : List Ty} (hc : u.kind c = .cls) :
    u.Shows (.ref q c as) h ↔ h = .ref c :=
  shows_ref_iff (dealias_of_kind_ne (by simp [hc]) 0)

theorem shows_self_iff {s : SymbolId} (hd : u.dealias n t = some (.self s)) :
    u.Shows t h ↔ h = .self s := by
  constructor
  · intro hh
    cases hh with
    | self he => cases dealias_unique hd he; rfl
    | ref he | single he | term he | refined he | poly he => cases dealias_unique hd he
  · rintro rfl
    exact .self hd

theorem shows_single_iff {q : Option Ty} {s : SymbolId} (hd : u.dealias n t = some (.single q s)) :
    u.Shows t h ↔ (u.kind s ≠ .term ∧ h = .single s) ∨
      (u.kind s = .term ∧ (u.termType s).isSingle = false ∧ u.Shows (u.termType s) h) := by
  constructor
  · intro hh
    cases hh with
    | single he hk => cases dealias_unique hd he; exact .inl ⟨hk, rfl⟩
    | term he hk hs hh => cases dealias_unique hd he; exact .inr ⟨hk, hs, hh⟩
    | ref he | self he | refined he | poly he => cases dealias_unique hd he
  · rintro (⟨hk, rfl⟩ | ⟨hk, hs, hh⟩)
    · exact .single hd hk
    · exact .term hd hk hs hh

theorem shows_refined_iff {ps : List Ty} {ms : List (Member Ty)}
    (hd : u.dealias n t = some (.refined ps ms)) : u.Shows t h ↔ ∃ p ∈ ps, u.Shows p h := by
  constructor
  · intro hh
    cases hh with
    | refined he hp hh => cases dealias_unique hd he; exact ⟨_, hp, hh⟩
    | ref he | self he | single he | term he | poly he => cases dealias_unique hd he
  · rintro ⟨p, hp, hh⟩
    exact .refined hd hp hh

theorem shows_poly_iff {ps : List SymbolId} {r : Ty} (hd : u.dealias n t = some (.poly ps r)) :
    u.Shows t h ↔ u.Shows r h := by
  constructor
  · intro hh
    cases hh with
    | poly he hh => cases dealias_unique hd he; exact hh
    | ref he | self he | single he | term he | refined he => cases dealias_unique hd he
  · exact .poly hd

theorem not_shows_constant {v : String} (hd : u.dealias n t = some (.constant v)) :
    ¬u.Shows t h := by
  intro hh
  cases hh with
  | ref he | self he | single he | term he | refined he | poly he => cases dealias_unique hd he

theorem not_shows_bounds {l r : Ty} (hd : u.dealias n t = some (.bounds l r)) :
    ¬u.Shows t h := by
  intro hh
  cases hh with
  | ref he | self he | single he | term he | refined he | poly he => cases dealias_unique hd he

end Shows

end SymbolTable

end TypeTag
