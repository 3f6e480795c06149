import TypeTag.Proofs.SymbolTable.Chains
import TypeTag.Proofs.Ty.Structure

namespace TypeTag

def Ty.Within (n : Nat) (t : Ty) : Prop :=
  ∀ s ∈ t.symbols, s < n

namespace SymbolEntry

def types (i : SymbolEntry) : List Ty :=
  i.parents ++ i.bounds.toList.flatMap (fun b ↦ [b.1, b.2]) ++ i.body.toList

structure Within (n : Nat) (i : SymbolEntry) : Prop where
  owner : ∀ o ∈ i.owner, o < n
  typeParams : ∀ p ∈ i.typeParams, p < n
  types : ∀ t ∈ i.types, t.Within n

structure Fresh (n : Nat) (i : SymbolEntry) : Prop where
  owned : i.owner.isSome
  within : i.Within n
  typeParams : i.typeParams = []
  parents : i.parents = []
  bounds : i.bounds = none

theorem mem_types {i : SymbolEntry} {t : Ty} : t ∈ i.types ↔
    t ∈ i.parents ∨ (∃ b ∈ i.bounds, t = b.1 ∨ t = b.2) ∨ t ∈ i.body := by
  simp [types]

theorem Within.mono {n m : Nat} (h : n ≤ m) {i : SymbolEntry} (hi : i.Within n) : i.Within m where
  owner o ho := (hi.owner o ho).trans_le h
  typeParams p hp := (hi.typeParams p hp).trans_le h
  types t ht s hs := (hi.types t ht s hs).trans_le h

end SymbolEntry

namespace SymbolTable

section Entries

variable (u : SymbolTable)

@[simp]
theorem symbols_add (i : SymbolEntry) : (u.add i).symbols = u.symbols.push i := by
  unfold add
  dsimp only
  split
  · rfl
  · split <;> rfl

theorem define_table (i : SymbolEntry) : (u.define i).2 = u.add i :=
  rfl

@[simp]
theorem size_add (i : SymbolEntry) : (u.add i).size = u.size + 1 := by
  simp [size]

@[simp]
theorem size_update (s : SymbolId) (f : SymbolEntry → SymbolEntry) :
    (u.update s f).size = u.size := by
  simp [size, update]

theorem entry_of_size_le {s : SymbolId} (h : u.size ≤ s) : u.entry s = default := by
  simp [entry, Array.getElem?_eq_none h]

variable {u} in
theorem kind_lt_size {s : Nat} (h : u.kind s ≠ .package) : s < u.size := by
  refine Nat.lt_of_not_le fun hle ↦ h ?_
  rw [kind, entry_of_size_le u hle]
  rfl

theorem entry_add_of_ne {i : SymbolEntry} {s : SymbolId} (h : s ≠ u.size) :
    (u.add i).entry s = u.entry s := by
  simp only [entry, symbols_add, Array.getElem?_push]
  rw [if_neg (show ¬s = u.symbols.size from h)]

@[simp]
theorem entry_add_size (i : SymbolEntry) : (u.add i).entry u.size = i := by
  simp [entry, size]

theorem entry_update_of_ne {s t : SymbolId} (f : SymbolEntry → SymbolEntry) (h : t ≠ s) :
    (u.update s f).entry t = u.entry t := by
  simp only [entry, update, Array.getElem?_modify]
  rw [if_neg h.symm]

theorem entry_update_self {s : SymbolId} (f : SymbolEntry → SymbolEntry) (h : s < u.size) :
    (u.update s f).entry s = f (u.entry s) := by
  have hs : u.symbols[s]? = some u.symbols[s] := Array.getElem?_eq_getElem h
  simp [entry, update, Array.getElem?_modify, hs]

end Entries

/-- One step in setting up a table, which names only symbols that are there. -/
inductive Step (u : SymbolTable) : SymbolTable → Prop
  | package (owner : Option SymbolId) (name : String) (ho : ∀ o ∈ owner, o < u.size) :
    Step u (u.package owner name).2
  | cls (owner : SymbolId) (name : String) (ho : owner < u.size) : Step u (u.cls owner name).2
  | object (owner : SymbolId) (name : String) (ho : owner < u.size) :
    Step u (u.object owner name).2
  | term (owner : SymbolId) (name : String) (declared : Option Ty) (ho : owner < u.size)
    (ht : ∀ t ∈ declared, t.Within u.size) : Step u (u.term owner name declared).2
  | typeParam (owner : SymbolId) (name : String) (v : Variance) (ho : owner < u.size) :
    Step u (u.typeParam owner name v).2
  | freeTypeParam (owner : SymbolId) (name : String) (v : Variance) (ho : owner < u.size) :
    Step u (u.freeTypeParam owner name v).2
  | abstractType (owner : SymbolId) (name : String) (ho : owner < u.size) :
    Step u (u.abstractType owner name).2
  | typeAlias (owner : SymbolId) (name : String) (ho : owner < u.size) :
    Step u (u.typeAlias owner name).2
  | refinement (owner : SymbolId) (type : Ty) (ho : owner < u.size) (ht : type.Within u.size) :
    Step u (u.refinement owner type).2
  | setParents (s : SymbolId) (parents : List Ty) (hs : s < u.size)
    (ht : ∀ t ∈ parents, t.Within u.size) : Step u (u.setParents s parents)
  | setBounds (s : SymbolId) (lower upper : Ty) (hs : s < u.size) (hl : lower.Within u.size)
    (hu : upper.Within u.size) : Step u (u.setBounds s lower upper)
  | setBody (s : SymbolId) (body : Ty) (hs : s < u.size) (ht : body.Within u.size) :
    Step u (u.setBody s body)

inductive Constructible : SymbolTable → Prop
  | initial : Constructible initial
  | step {u v : SymbolTable} (h : Constructible u) (hs : u.Step v) : Constructible v

structure Retypes (n : Nat) (f : SymbolEntry → SymbolEntry) : Prop where
  name : ∀ i, (f i).name = i.name
  owner : ∀ i, (f i).owner = i.owner
  kind : ∀ i, (f i).kind = i.kind
  typeParams : ∀ i, (f i).typeParams = i.typeParams
  variance : ∀ i, (f i).variance = i.variance
  within : ∀ i, i.Within n → (f i).Within n

section Retypes

variable {n : Nat}

theorem retypes_setParents {ps : List Ty} (hps : ∀ t ∈ ps, t.Within n) :
    Retypes n fun i ↦ { i with parents := ps } := by
  refine ⟨fun _ ↦ rfl, fun _ ↦ rfl, fun _ ↦ rfl, fun _ ↦ rfl, fun _ ↦ rfl, fun i hi ↦ ?_⟩
  refine ⟨hi.owner, hi.typeParams, fun t ht ↦ ?_⟩
  rcases SymbolEntry.mem_types.1 ht with ht | ht
  · exact hps t ht
  · exact hi.types t (SymbolEntry.mem_types.2 (.inr ht))

theorem retypes_setBounds {l u : Ty} (hl : l.Within n) (hu : u.Within n) :
    Retypes n fun i ↦ { i with bounds := some (l, u) } := by
  refine ⟨fun _ ↦ rfl, fun _ ↦ rfl, fun _ ↦ rfl, fun _ ↦ rfl, fun _ ↦ rfl, fun i hi ↦ ?_⟩
  refine ⟨hi.owner, hi.typeParams, fun t ht ↦ ?_⟩
  obtain ht | ⟨b, ⟨rfl⟩, rfl | rfl⟩ | ht := SymbolEntry.mem_types.1 ht
  · exact hi.types t (SymbolEntry.mem_types.2 (.inl ht))
  · exact hl
  · exact hu
  · exact hi.types t (SymbolEntry.mem_types.2 (.inr (.inr ht)))

theorem retypes_setBody {b : Ty} (hb : b.Within n) :
    Retypes n fun i ↦ { i with body := some b } := by
  refine ⟨fun _ ↦ rfl, fun _ ↦ rfl, fun _ ↦ rfl, fun _ ↦ rfl, fun _ ↦ rfl, fun i hi ↦ ?_⟩
  refine ⟨hi.owner, hi.typeParams, fun t ht ↦ ?_⟩
  obtain ht | ht | ht := SymbolEntry.mem_types.1 ht
  · exact hi.types t (SymbolEntry.mem_types.2 (.inl ht))
  · exact hi.types t (SymbolEntry.mem_types.2 (.inr (.inl ht)))
  · exact Option.some.inj ht ▸ hb

end Retypes

/-- Every step does nothing, adds a symbol, with or without entering it among its owner's type
parameters, or changes the types of one symbol. -/
theorem Step.cases {u v : SymbolTable} (h : u.Step v) (hroot : u.root < u.size) :
    v = u ∨ (∃ i, i.Fresh u.size ∧ v = u.add i) ∨
      (∃ i o, i.Fresh u.size ∧ i.kind = .typeParam ∧ i.owner = some o ∧ o < u.size ∧
        v = (u.add i).update o fun j ↦ { j with typeParams := j.typeParams ++ [u.size] }) ∨
      (∃ s f, s < u.size ∧ Retypes u.size f ∧ v = u.update s f) := by
  have fresh (name : String) (o : SymbolId) (k : SymbolKind) (w : Variance) (b : Option Ty)
      (ho : o < u.size) (hb : ∀ t ∈ b, t.Within u.size) :
      SymbolEntry.Fresh u.size { name, owner := o, kind := k, variance := w, body := b } := by
    refine ⟨rfl, ⟨?_, ?_, ?_⟩, rfl, rfl, rfl⟩
    · simpa using ho
    · simp
    · simpa [SymbolEntry.types] using hb
  cases h with
  | package owner name ho =>
    unfold SymbolTable.package
    dsimp only
    split
    · exact .inl rfl
    · refine .inr (.inl ⟨_, ?_, u.define_table _⟩)
      refine fresh _ _ _ _ none ?_ (by simp)
      cases owner with
      | none => exact hroot
      | some o => exact ho o rfl
  | cls owner name ho | object owner name ho | freeTypeParam owner name w ho
  | abstractType owner name ho | typeAlias owner name ho =>
    refine .inr (.inl ⟨_, ?_, u.define_table _⟩)
    exact fresh _ _ _ _ none ho (by simp)
  | term owner name declared ho ht =>
    refine .inr (.inl ⟨_, ?_, u.define_table _⟩)
    exact fresh _ _ _ _ declared ho ht
  | refinement owner type ho ht =>
    refine .inr (.inl ⟨_, ?_, u.define_table _⟩)
    exact fresh _ _ _ _ (some type) ho (by simpa using ht)
  | typeParam owner name w ho =>
    refine .inr (.inr (.inl ⟨_, owner, ?_, rfl, rfl, ho, rfl⟩))
    exact fresh _ _ _ _ none ho (by simp)
  | setParents s ps hs ht => exact .inr (.inr (.inr ⟨s, _, hs, retypes_setParents ht, rfl⟩))
  | setBounds s l h' hs hl hu => exact .inr (.inr (.inr ⟨s, _, hs, retypes_setBounds hl hu, rfl⟩))
  | setBody s b hs ht => exact .inr (.inr (.inr ⟨s, _, hs, retypes_setBody ht, rfl⟩))

/-- Owners come first, and no entry speaks of a symbol that is not there. -/
structure WellFormed (u : SymbolTable) : Prop where
  ownersPrecede : u.OwnersPrecede
  within : ∀ s, (u.entry s).Within u.size
  root : u.root < u.size
  any : u.any < u.size
  anyRef : u.anyRef < u.size
  nothing : u.nothing < u.size

theorem root_add (u : SymbolTable) (i : SymbolEntry) :
    (u.add i).root = u.root ∧ (u.add i).any = u.any ∧ (u.add i).anyRef = u.anyRef ∧
      (u.add i).nothing = u.nothing := by
  unfold add
  dsimp only
  split
  · exact ⟨rfl, rfl, rfl, rfl⟩
  · split <;> exact ⟨rfl, rfl, rfl, rfl⟩

namespace WellFormed

variable {u : SymbolTable} (h : u.WellFormed)

include h

theorem add {i : SymbolEntry} (hi : i.Within u.size) : (u.add i).WellFormed := by
  obtain ⟨hr, ha, hf, hn⟩ := root_add u i
  have hlt {s : Nat} (hs : s < u.size) : s < (u.add i).size := by
    rw [size_add]
    exact Nat.lt_succ_of_lt hs
  refine ⟨fun s o ho ↦ ?_, fun s ↦ ?_, ?_, ?_, ?_, ?_⟩
  · by_cases hs : s = u.size
    · rw [hs, entry_add_size] at ho
      rw [hs]
      exact hi.owner o ho
    · rw [entry_add_of_ne u hs] at ho
      exact h.ownersPrecede s o ho
  · rw [size_add]
    by_cases hs : s = u.size
    · rw [hs, entry_add_size]
      exact hi.mono (Nat.le_succ _)
    · rw [entry_add_of_ne u hs]
      exact (h.within s).mono (Nat.le_succ _)
  · exact hr ▸ hlt h.root
  · exact ha ▸ hlt h.any
  · exact hf ▸ hlt h.anyRef
  · exact hn ▸ hlt h.nothing

theorem update {s : Nat} {f : SymbolEntry → SymbolEntry} (hs : s < u.size)
    (ho : ∀ i, (f i).owner = i.owner) (hf : ∀ i, i.Within u.size → (f i).Within u.size) :
    (u.update s f).WellFormed := by
  have hsize := size_update u s f
  refine ⟨fun t o hto ↦ ?_, fun t ↦ ?_, ?_, ?_, ?_, ?_⟩
  · by_cases ht : t = s
    · rw [ht, entry_update_self u f hs, ho] at hto
      rw [ht]
      exact h.ownersPrecede s o hto
    · rw [entry_update_of_ne u f ht] at hto
      exact h.ownersPrecede t o hto
  · rw [hsize]
    by_cases ht : t = s
    · rw [ht, entry_update_self u f hs]
      exact hf _ (h.within s)
    · rw [entry_update_of_ne u f ht]
      exact h.within t
  · exact hsize.symm ▸ h.root
  · exact hsize.symm ▸ h.any
  · exact hsize.symm ▸ h.anyRef
  · exact hsize.symm ▸ h.nothing

theorem step {v : SymbolTable} (hs : u.Step v) : v.WellFormed := by
  rcases hs.cases h.root with rfl | ⟨i, hi, rfl⟩ | ⟨i, o, hi, -, -, ho, rfl⟩ |
    ⟨s, f, hlt, hf, rfl⟩
  · exact h
  · exact h.add hi.within
  · refine (h.add hi.within).update ?_ (fun _ ↦ rfl) fun j hj ↦ ⟨hj.owner, ?_, hj.types⟩
    · rw [size_add]
      exact Nat.lt_succ_of_lt ho
    · intro p hp
      rcases List.mem_append.1 hp with hp | hp
      · exact hj.typeParams p hp
      · rw [List.mem_singleton.1 hp, size_add]
        exact Nat.lt_succ_self _
  · exact h.update hlt hf.owner hf.within

end WellFormed

theorem initial_symbols : initial.symbols =
    #[{ name := "<root>", owner := none, kind := .package },
      { name := "scala", owner := some 0, kind := .package },
      { name := "Any", owner := some 1, kind := .cls },
      { name := "AnyRef", owner := some 1, kind := .cls },
      { name := "Nothing", owner := some 1, kind := .cls }] :=
  rfl

theorem entry_initial (s : Nat) : (initial.entry s).typeParams = [] ∧
    (initial.entry s).types = [] ∧ ∀ o ∈ (initial.entry s).owner, o < s ∧ o < initial.size := by
  unfold entry size
  rw [initial_symbols]
  rcases s with _ | _ | _ | _ | _ | s <;> simp [SymbolEntry.types, default]

theorem wellFormed_initial : WellFormed initial := by
  refine ⟨fun s o ho ↦ ((entry_initial s).2.2 o ho).1,
    fun s ↦ ⟨fun o ho ↦ ?_, fun p hp ↦ ?_, fun t ht ↦ ?_⟩, by decide, by decide, by decide,
    by decide⟩
  · exact ((entry_initial s).2.2 o ho).2
  · rw [(entry_initial s).1] at hp
    cases hp
  · rw [(entry_initial s).2.1] at ht
    cases ht

def ParamsAreParams (u : SymbolTable) : Prop :=
  ∀ s p : Nat, p ∈ (u.entry s).typeParams → u.kind p = .typeParam

theorem ParamsAreParams.add {u : SymbolTable} (hw : u.WellFormed) (h : u.ParamsAreParams)
    {i : SymbolEntry} (hi : i.typeParams = []) : (u.add i).ParamsAreParams := by
  intro s p hp
  by_cases hs : s = u.size
  · rw [hs, entry_add_size, hi] at hp
    cases hp
  · rw [entry_add_of_ne u hs] at hp
    have hlt : p < u.size := (hw.within s).typeParams p hp
    rw [kind, entry_add_of_ne u (Nat.ne_of_lt hlt)]
    exact h s p hp

theorem ParamsAreParams.update {u : SymbolTable} (h : u.ParamsAreParams) {s : Nat}
    (hs : s < u.size) {f : SymbolEntry → SymbolEntry} (hk : ∀ i, (f i).kind = i.kind)
    (hf : ∀ p ∈ (f (u.entry s)).typeParams, p ∈ (u.entry s).typeParams ∨ u.kind p = .typeParam) :
    (u.update s f).ParamsAreParams := by
  have hkind (t : Nat) : (u.update s f).kind t = u.kind t := by
    unfold kind
    by_cases ht : t = s
    · rw [ht, entry_update_self u f hs, hk]
    · rw [entry_update_of_ne u f ht]
  intro t p hp
  rw [hkind]
  by_cases ht : t = s
  · rw [ht, entry_update_self u f hs] at hp
    exact (hf p hp).elim (h s p) id
  · rw [entry_update_of_ne u f ht] at hp
    exact h t p hp

theorem ParamsAreParams.step {u v : SymbolTable} (hw : u.WellFormed) (h : u.ParamsAreParams)
    (hs : u.Step v) : v.ParamsAreParams := by
  rcases hs.cases hw.root with rfl | ⟨i, hi, rfl⟩ | ⟨i, o, hi, hk, -, ho, rfl⟩ |
    ⟨s, f, hlt, hf, rfl⟩
  · exact h
  · exact h.add hw hi.typeParams
  · have hlt : o < (u.add i).size := by
      rw [size_add]
      exact Nat.lt_succ_of_lt ho
    refine (h.add hw hi.typeParams).update hlt (fun _ ↦ rfl) fun p hp ↦ ?_
    rcases List.mem_append.1 hp with hp | hp
    · exact .inl hp
    · rw [List.mem_singleton.1 hp, kind, entry_add_size]
      exact .inr hk
  · refine h.update hlt hf.kind fun p hp ↦ .inl ?_
    rwa [hf.typeParams] at hp

theorem Constructible.wellFormed {u : SymbolTable} (h : u.Constructible) : u.WellFormed := by
  induction h with
  | initial => exact wellFormed_initial
  | step _ hs ih => exact ih.step hs

theorem Constructible.paramsAreParams {u : SymbolTable} (h : u.Constructible) :
    u.ParamsAreParams := by
  induction h with
  | initial =>
    intro s p hp
    rw [(entry_initial s).1] at hp
    cases hp
  | step hu hs ih => exact ih.step hu.wellFormed hs

theorem Constructible.nodup_typeParams {u : SymbolTable} (h : u.Constructible) (s : SymbolId) :
    (u.entry s).typeParams.Nodup := by
  induction h generalizing s with
  | initial =>
    rw [(entry_initial s).1]
    exact List.nodup_nil
  | @step u v hu hs ih =>
    have hadd {i : SymbolEntry} (hi : i.typeParams = []) (s : SymbolId) :
        ((u.add i).entry s).typeParams.Nodup := by
      by_cases hsize : s = u.size
      · rw [hsize, entry_add_size, hi]
        exact List.nodup_nil
      · rw [entry_add_of_ne u hsize]
        exact ih s
    rcases hs.cases hu.wellFormed.root with rfl | ⟨i, hi, rfl⟩ | ⟨i, o, hi, -, -, ho, rfl⟩ |
      ⟨t, f, hlt, hf, rfl⟩
    · exact ih s
    · exact hadd hi.typeParams s
    · by_cases hso : s = o
      · have hlt : o < (u.add i).size := by
          rw [size_add]
          exact Nat.lt_succ_of_lt ho
        rw [hso, entry_update_self _ _ hlt, entry_add_of_ne u (Nat.ne_of_lt ho)]
        refine (ih o).append (List.nodup_singleton _) fun p hp hsize ↦ ?_
        have hbelow : p < u.size := (hu.wellFormed.within o).typeParams p hp
        exact Nat.ne_of_lt hbelow (List.mem_singleton.1 hsize)
      · rw [entry_update_of_ne _ _ hso]
        exact hadd hi.typeParams s
    · by_cases hst : s = t
      · rw [hst, entry_update_self u f hlt, hf.typeParams]
        exact ih t
      · rw [entry_update_of_ne u f hst]
        exact ih s

theorem Constructible.entry_zero {u : SymbolTable} (h : u.Constructible) :
    (u.entry 0).owner = none ∧ u.kind 0 = .package := by
  induction h with
  | initial => exact ⟨rfl, rfl⟩
  | @step u v hu hs ih =>
    have hpos : 0 < u.size := Nat.zero_lt_of_lt hu.wellFormed.root
    have hadd (i : SymbolEntry) :
        ((u.add i).entry 0).owner = none ∧ (u.add i).kind 0 = .package := by
      rwa [kind, entry_add_of_ne u (Nat.ne_of_lt hpos)]
    have hupdate {w : SymbolTable} (hw : (w.entry 0).owner = none ∧ w.kind 0 = .package)
        {s : SymbolId} {f : SymbolEntry → SymbolEntry} (hs : s < w.size)
        (howner : ∀ i, (f i).owner = i.owner) (hkind : ∀ i, (f i).kind = i.kind) :
        ((w.update s f).entry 0).owner = none ∧ (w.update s f).kind 0 = .package := by
      by_cases hzero : 0 = s
      · rw [kind, hzero, entry_update_self w f hs, howner, hkind, ← hzero]
        exact hw
      · rwa [kind, entry_update_of_ne w f hzero]
    rcases hs.cases hu.wellFormed.root with rfl | ⟨i, -, rfl⟩ | ⟨i, o, -, -, -, ho, rfl⟩ |
      ⟨s, f, hlt, hf, rfl⟩
    · exact ih
    · exact hadd i
    · refine hupdate (hadd i) ?_ (fun _ ↦ rfl) fun _ ↦ rfl
      rw [size_add]
      exact Nat.lt_succ_of_lt ho
    · exact hupdate ih hlt hf.owner hf.kind

theorem Constructible.universal {u : SymbolTable} (h : u.Constructible) :
    u.any = 2 ∧ u.anyRef = 3 ∧ u.nothing = 4 := by
  induction h with
  | initial => exact ⟨rfl, rfl, rfl⟩
  | @step u v hu hs ih =>
    have hadd (i : SymbolEntry) : (u.add i).any = 2 ∧ (u.add i).anyRef = 3 ∧ (u.add i).nothing = 4 := by
      obtain ⟨-, hany, hanyRef, hnothing⟩ := root_add u i
      rw [hany, hanyRef, hnothing]
      exact ih
    rcases hs.cases hu.wellFormed.root with rfl | ⟨i, -, rfl⟩ | ⟨i, o, -, -, -, -, rfl⟩ |
      ⟨s, f, -, -, rfl⟩
    · exact ih
    · exact hadd i
    · exact hadd i
    · exact ih

end SymbolTable

end TypeTag
