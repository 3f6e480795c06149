import TypeTag.Proofs.Steps.Loops
import TypeTag.SymbolTable.Ancestry

namespace TypeTag.SymbolTable

variable (u : SymbolTable)

/-- The types in which the search goes on from a type that is no alias application: the bound or the
parents of its symbol, the type declared for its term, or its parts. -/
inductive LooksInto (n : Nat) : Ty → Ty → Prop
  | bound {q : Option Ty} {s : SymbolId} {as : List Ty}
    (hk : u.kind s = .typeParam ∨ u.kind s = .abstractType) :
    LooksInto n (.ref q s as) (u.boundsOf s).2
  | specialised {q : Option Ty} {s : SymbolId} {as : List Ty} {p p' : Ty}
    (hk : u.kind s = .cls ∨ u.kind s = .refinement) (hp : p ∈ (u.entry s).parents)
    (hp' : u.specialise n s as p = some p') : LooksInto n (.ref q s as) p'
  | declared {q : Option Ty} {s : SymbolId} (hk : u.kind s = .term)
    (hsingle : (u.termType s).isSingle = false) : LooksInto n (.single q s) (u.termType s)
  | parent {q : Option Ty} {s : SymbolId} {p : Ty} (hk : u.kind s ≠ .term)
    (hp : p ∈ (u.entry s).parents) : LooksInto n (.single q s) p
  | own (s : SymbolId) : LooksInto n (.self s) (u.symbolType s)
  | part {ps : List Ty} {ms : List (Member Ty)} {p : Ty} (hp : p ∈ ps) :
    LooksInto n (.refined ps ms) p
  | result (ps : List SymbolId) (r : Ty) : LooksInto n (.poly ps r) r

/-- At a reference to the class or its singleton type, that is the form; seen from within, the class
has its own. -/
def FoundAt (c : SymbolId) (d b : Ty) : Prop :=
  (∃ q as, d = .ref q c as ∧ b = d) ∨ (∃ q, d = .single q c ∧ b = d) ∨
    d = .self c ∧ b = u.symbolType c

variable {u : SymbolTable} {find : List SymbolId → Ty → Option (Option Ty)} {n : Nat}
  {visiting : List SymbolId} {b c : SymbolId} {s : SymbolId} {t f : Ty}

theorem findInParents_eq_some {specialise : Ty → Option Ty}
    (h : u.findInParents find visiting s specialise = some (some f)) :
    ∃ p ∈ (u.entry s).parents, ∃ p', specialise p = some p' ∧
      ∃ visiting', find visiting' p' = some (some f) := by
  unfold findInParents at h
  split at h
  · cases h
  · obtain ⟨p, hp, h⟩ := findSomeM?_eq_some h
    obtain ⟨p', hp', h⟩ := Option.bind_eq_some_iff.1 h
    exact ⟨p, hp, p', hp', _, h⟩

theorem findAboveRef_eq_some {q : Option Ty} {as : List Ty}
    (h : u.findAboveRef find n visiting s as = some (some f)) :
    ∃ visiting' t, u.LooksInto n (.ref q s as) t ∧ find visiting' t = some (some f) := by
  unfold findAboveRef at h
  split at h
  · next hk => exact ⟨_, _, .bound (.inl hk), h⟩
  · next hk => exact ⟨_, _, .bound (.inr hk), h⟩
  · next hk =>
    obtain ⟨p, hp, p', hp', visiting', h⟩ := findInParents_eq_some h
    exact ⟨visiting', p', .specialised (.inl hk) hp hp', h⟩
  · next hk =>
    obtain ⟨p, hp, p', hp', visiting', h⟩ := findInParents_eq_some h
    exact ⟨visiting', p', .specialised (.inr hk) hp hp', h⟩
  · cases h

theorem findAboveSingle_eq_some {q : Option Ty}
    (h : u.findAboveSingle find visiting s = some (some f)) :
    ∃ visiting' t, u.LooksInto n (.single q s) t ∧ find visiting' t = some (some f) := by
  unfold findAboveSingle at h
  split at h
  · next hk =>
    dsimp only at h
    split at h
    · cases h
    · next hsingle => exact ⟨_, _, .declared hk (by simpa using hsingle), h⟩
  · next hk =>
    obtain ⟨p, hp, p', hp', visiting', h⟩ := findInParents_eq_some h
    cases hp'
    exact ⟨visiting', p, .parent hk hp, h⟩

theorem findBase_cases (h : u.findBase c n visiting t = some (some f)) :
    ∃ m d, n = m + 1 ∧ u.dealias m t = some d ∧ (u.FoundAt c d f ∨
      ∃ visiting' t', u.LooksInto m d t' ∧ u.findBase c m visiting' t' = some (some f)) := by
  cases n with
  | zero => cases h
  | succ n =>
    obtain ⟨d, hd, h⟩ := Option.bind_eq_some_iff.1 h
    refine ⟨n, d, rfl, hd, ?_⟩
    cases d with
    | ref q s as =>
      dsimp only at h
      split at h
      · next heq =>
        cases h
        exact .inl (.inl ⟨q, as, by rw [heq], rfl⟩)
      · exact .inr (findAboveRef_eq_some h)
    | single q s =>
      dsimp only at h
      split at h
      · next heq =>
        cases h
        exact .inl (.inr (.inl ⟨q, by rw [heq], rfl⟩))
      · exact .inr (findAboveSingle_eq_some h)
    | self s =>
      dsimp only at h
      split at h
      · next heq =>
        cases h
        exact .inl (.inr (.inr ⟨by rw [heq], by rw [heq]⟩))
      · exact .inr ⟨visiting, _, .own s, h⟩
    | refined ps ms =>
      obtain ⟨p, hp, h⟩ := findSomeM?_eq_some h
      exact .inr ⟨visiting, p, .part hp, h⟩
    | poly ps r => exact .inr ⟨visiting, r, .result ps r, h⟩
    | constant v | bounds l r => cases h

/-- What a search finds is what it finds where it ends, if every type that it goes through on the way
there has a property that it hands on. -/
theorem findBase_induction {F : Ty → Prop} (hdealias : ∀ n t d, F t → u.dealias n t = some d → F d)
    (hinto : ∀ n d t, F d → u.LooksInto n d t → F t) (ht : F t)
    (h : u.findBase c n visiting t = some (some f)) : ∃ d, F d ∧ u.FoundAt c d f := by
  induction n generalizing visiting t with
  | zero => cases h
  | succ n ih =>
    obtain ⟨m, d, hm, hd, hfound | ⟨visiting', t', ht', h⟩⟩ := findBase_cases h
    · exact ⟨d, hdealias m t d ht hd, hfound⟩
    · cases hm
      exact ih (hinto n d t' (hdealias n t d ht hd) ht') h

theorem FoundAt.symbol? {d : Ty} (h : u.FoundAt c d f) : d.symbol? = some c := by
  obtain ⟨q, as, rfl, -⟩ | ⟨q, rfl, -⟩ | ⟨rfl, -⟩ := h <;> rfl

theorem FoundAt.form {d : Ty} (h : u.FoundAt c d f) :
    (∃ q as, f = .ref q c as) ∨ (∃ q, f = .single q c) ∨ f = u.symbolType c := by
  obtain ⟨q, as, rfl, rfl⟩ | ⟨q, rfl, rfl⟩ | ⟨-, rfl⟩ := h
  · exact .inl ⟨q, as, rfl⟩
  · exact .inr (.inl ⟨q, rfl⟩)
  · exact .inr (.inr rfl)

theorem findBase_form (h : u.findBase c n visiting t = some (some f)) :
    (∃ q as, f = .ref q c as) ∨ (∃ q, f = .single q c) ∨ f = u.symbolType c := by
  obtain ⟨d, -, hfound⟩ := findBase_induction (F := fun _ ↦ True) (fun _ _ _ _ _ ↦ trivial)
    (fun _ _ _ _ _ ↦ trivial) trivial h
  exact hfound.form

end TypeTag.SymbolTable
