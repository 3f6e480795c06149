import Mathlib.Order.Bounds.Basic
import Mathlib.Order.Nat
import TypeTag.Proofs.SymbolTable.Constructible

namespace TypeTag.SymbolTable

section Paths

variable (u : SymbolTable)

/-- A symbol and its owners, innermost first, up to the one without an owner, which is left out. -/
inductive OwnerPath : SymbolId → List SymbolId → Prop
  | top {s : SymbolId} (h : (u.entry s).owner = none) : OwnerPath s []
  | owned {s o : SymbolId} {path : List SymbolId} (h : (u.entry s).owner = some o)
    (hpath : OwnerPath o path) : OwnerPath s (s :: path)

def named (name : String) : Set SymbolId :=
  {s | s < u.size ∧ u.kind s ≠ .refinement ∧ u.fullName s = name}

variable {u} {s : SymbolId} {path path' : List SymbolId}

theorem OwnerPath.unique (h : u.OwnerPath s path) (h' : u.OwnerPath s path') : path = path' := by
  induction h generalizing path' with
  | top ho =>
    cases h' with
    | top => rfl
    | owned ho' => cases ho.symm.trans ho'
  | owned ho _ ih =>
    cases h' with
    | top ho' => cases ho.symm.trans ho'
    | owned ho' hpath =>
      obtain rfl := Option.some.inj (ho.symm.trans ho')
      rw [ih hpath]

theorem OwnersPrecede.exists_ownerPath (h : u.OwnersPrecede) (s : SymbolId) :
    ∃ path, u.OwnerPath s path := by
  induction s using Nat.strong_induction_on with
  | _ s ih =>
    cases ho : (u.entry s).owner with
    | none => exact ⟨[], .top ho⟩
    | some o =>
      obtain ⟨path, hpath⟩ := ih o (h s o ho)
      exact ⟨s :: path, .owned ho hpath⟩

theorem OwnerPath.fullName (hu : u.OwnersPrecede)
    (htop : ∀ s, (u.entry s).owner = none → u.kind s = .package) (h : u.OwnerPath s path) :
    u.fullName s = ".".intercalate (path.map fun t ↦ (u.entry t).name).reverse := by
  have hnames (n : Nat) (hn : s < n) : u.ownerNames n s = path.map fun t ↦ (u.entry t).name := by
    induction h generalizing n with
    | @top s ho =>
      obtain ⟨n, rfl⟩ : ∃ k, n = k + 1 := ⟨n - 1, by have := Nat.zero_lt_of_lt hn; omega⟩
      have hk : (u.entry s).kind = .package := htop s ho
      simp [ownerNames, ho, hk]
    | @owned s o path ho _ ih =>
      obtain ⟨n, rfl⟩ : ∃ k, n = k + 1 := ⟨n - 1, by have := Nat.zero_lt_of_lt hn; omega⟩
      simp [ownerNames, ho, ih n (hu.lt ho hn)]
  rw [SymbolTable.fullName, hnames _ (Nat.lt_succ_self s)]

theorem fullName_congr {v : SymbolTable} (hu : u.OwnersPrecede)
    (h : ∀ t : Nat, t ≤ s → (v.entry t).name = (u.entry t).name ∧
      (v.entry t).owner = (u.entry t).owner ∧ v.kind t = u.kind t) :
    v.fullName s = u.fullName s := by
  have hnames (n t : Nat) (ht : t ≤ s) : v.ownerNames n t = u.ownerNames n t := by
    induction n generalizing t with
    | zero => rfl
    | succ n ih =>
      obtain ⟨hname, howner, hkind⟩ := h t ht
      unfold kind at hkind
      unfold ownerNames
      dsimp only
      rw [hname, howner, hkind]
      cases ho : (u.entry t).owner with
      | none => rfl
      | some o =>
        dsimp only
        rw [ih o ((hu t o ho).le.trans ht)]
  rw [fullName, fullName, hnames _ s (Nat.le_refl s)]

end Paths

inductive Call where
  | package (owner : Option SymbolId) (name : String)
  | cls (owner : SymbolId) (name : String)
  | object (owner : SymbolId) (name : String)
  | term (owner : SymbolId) (name : String) (declared : Option Ty)
  | typeParam (owner : SymbolId) (name : String) (v : Variance)
  | freeTypeParam (owner : SymbolId) (name : String) (v : Variance)
  | abstractType (owner : SymbolId) (name : String)
  | typeAlias (owner : SymbolId) (name : String)
  | refinement (owner : SymbolId) (type : Ty)
  | setParents (s : SymbolId) (parents : List Ty)
  | setBounds (s : SymbolId) (lower upper : Ty)
  | setBody (s : SymbolId) (body : Ty)

namespace Call

def run (u : SymbolTable) : Call → Option SymbolId × SymbolTable
  | package owner name => (u.package owner name).map some id
  | cls owner name => (u.cls owner name).map some id
  | object owner name => (u.object owner name).map some id
  | term owner name declared => (u.term owner name declared).map some id
  | typeParam owner name v => (u.typeParam owner name v).map some id
  | freeTypeParam owner name v => (u.freeTypeParam owner name v).map some id
  | abstractType owner name => (u.abstractType owner name).map some id
  | typeAlias owner name => (u.typeAlias owner name).map some id
  | refinement owner type => (u.refinement owner type).map some id
  | setParents s parents => (none, u.setParents s parents)
  | setBounds s lower upper => (none, u.setBounds s lower upper)
  | setBody s body => (none, u.setBody s body)

def Valid (u : SymbolTable) : Call → Prop
  | package owner _ => ∀ o ∈ owner, o < u.size
  | cls o _ | object o _ | term o _ _ | typeParam o _ _ | freeTypeParam o _ _ | abstractType o _
  | typeAlias o _ | refinement o _ => o < u.size
  | setParents s _ | setBounds s _ _ | setBody s _ => s < u.size

instance (u : SymbolTable) (c : Call) : Decidable (c.Valid u) :=
  match c with
  | package owner _ => inferInstanceAs (Decidable (∀ o ∈ owner, o < u.size))
  | cls o _ | object o _ | term o _ _ | typeParam o _ _ | freeTypeParam o _ _ | abstractType o _
  | typeAlias o _ | refinement o _ => inferInstanceAs (Decidable (o < u.size))
  | setParents s _ | setBounds s _ _ | setBody s _ => inferInstanceAs (Decidable (s < u.size))

def listOwner? : Call → Option SymbolId
  | typeParam owner _ _ => some owner
  | _ => none

/-- The parameter that a call creates in the list of a symbol. -/
def createdIn (u : SymbolTable) (c : Call) (o : SymbolId) : List SymbolId :=
  if c.listOwner? = some o then (c.run u).1.toList else []

end Call

def afterCalls (u : SymbolTable) (calls : List Call) : SymbolTable :=
  calls.foldl (fun u c ↦ (c.run u).2) u

def ValidCalls : SymbolTable → List Call → Prop
  | _, [] => True
  | u, c :: calls => c.Valid u ∧ ValidCalls (c.run u).2 calls

instance decidableValidCalls (u : SymbolTable) (calls : List Call) :
    Decidable (u.ValidCalls calls) :=
  match calls with
  | [] => inferInstanceAs (Decidable True)
  | c :: calls =>
    have : Decidable ((c.run u).2.ValidCalls calls) := decidableValidCalls _ calls
    inferInstanceAs (Decidable (c.Valid u ∧ (c.run u).2.ValidCalls calls))

def createdParams (o : SymbolId) : SymbolTable → List Call → List SymbolId
  | _, [] => []
  | u, c :: calls => c.createdIn u o ++ createdParams o (c.run u).2 calls

section Names

variable {u v : SymbolTable} {i : SymbolEntry} {name : String}

theorem fullName_of_symbols (h : v.symbols = u.symbols) (s : SymbolId) :
    v.fullName s = u.fullName s := by
  have hentry (t : SymbolId) : v.entry t = u.entry t := by rw [entry, entry, h]
  have hnames (n t : Nat) : v.ownerNames n t = u.ownerNames n t := by
    induction n generalizing t with
    | zero => rfl
    | succ n ih => simp only [ownerNames, hentry, ih]
  rw [fullName, fullName, hnames]

/-- A symbol that is added gets a name only if no symbol before it has the name. -/
theorem lookup_add (u : SymbolTable) (i : SymbolEntry) (name : String) :
    (u.add i).lookup name = (u.lookup name).or
      (if i.kind ≠ .refinement ∧ (u.add i).fullName u.size = name then some u.size else none) := by
  let w : SymbolTable := { u with symbols := u.symbols.push i }
  have hold (name : String) : w.lookup name = u.lookup name := rfl
  rw [fullName_of_symbols (u := w) (symbols_add u i)]
  change SymbolTable.lookup (if i.kind = .refinement then w else
    if (w.lookup (w.fullName u.size)).isSome then w
    else { w with names := (w.fullName u.size, u.size) :: w.names }) name = _
  by_cases hk : i.kind = .refinement
  · simp [hk, hold]
  · rw [if_neg hk]
    cases hsome : w.lookup (w.fullName u.size) with
    | some t =>
      rw [hold] at hsome
      by_cases hname : w.fullName u.size = name
      · rw [hname] at hsome
        simp [hold, hsome]
      · simp [hold, hname]
    | none =>
      rw [hold] at hsome
      by_cases hname : w.fullName u.size = name
      · subst hname
        rw [hsome]
        simp [hk, lookup]
      · have hne : (name == w.fullName u.size) = false := by simpa using Ne.symm hname
        simp only [Option.isSome_none, Bool.false_eq_true, if_false, hname, and_false, Option.or_none]
        change List.lookup name (_ :: u.names) = List.lookup name u.names
        rw [List.lookup_cons, hne]

theorem kind_add {s : SymbolId} (hs : s < u.size) : (u.add i).kind s = u.kind s := by
  rw [kind, kind, entry_add_of_ne u (Nat.ne_of_lt hs)]

theorem fullName_add (hu : u.OwnersPrecede) {s : SymbolId} (hs : s < u.size) :
    (u.add i).fullName s = u.fullName s :=
  fullName_congr hu fun t ht ↦ by
    have hlt := Nat.lt_of_le_of_lt ht hs
    rw [kind_add hlt, entry_add_of_ne u (Nat.ne_of_lt hlt)]
    exact ⟨rfl, rfl, rfl⟩

theorem mem_named_add_iff (hu : u.OwnersPrecede) {s : SymbolId} :
    s ∈ (u.add i).named name ↔ s ∈ u.named name ∨
      (s = u.size ∧ i.kind ≠ .refinement ∧ (u.add i).fullName u.size = name) := by
  simp only [named, Set.mem_ofPred_eq, size_add, Nat.lt_succ_iff_lt_or_eq]
  constructor
  · rintro ⟨hs | rfl, hk, hn⟩
    · rw [fullName_add hu hs] at hn
      rw [kind_add hs] at hk
      exact .inl ⟨hs, hk, hn⟩
    · rw [kind, entry_add_size] at hk
      exact .inr ⟨rfl, hk, hn⟩
  · rintro (⟨hs, hk, hn⟩ | ⟨rfl, hk, hn⟩)
    · refine ⟨.inl hs, ?_, ?_⟩
      · rwa [kind_add hs]
      · rwa [fullName_add hu hs]
    · refine ⟨.inr rfl, ?_, hn⟩
      rwa [kind, entry_add_size]

theorem identity_update {s : SymbolId} {f : SymbolEntry → SymbolEntry} (hs : s < u.size)
    (hname : ∀ i, (f i).name = i.name) (howner : ∀ i, (f i).owner = i.owner)
    (hkind : ∀ i, (f i).kind = i.kind) (t : SymbolId) :
    ((u.update s f).entry t).name = (u.entry t).name ∧
      ((u.update s f).entry t).owner = (u.entry t).owner ∧ (u.update s f).kind t = u.kind t := by
  unfold kind
  by_cases ht : t = s
  · rw [ht, entry_update_self u f hs, hname, howner, hkind]
    exact ⟨rfl, rfl, rfl⟩
  · rw [entry_update_of_ne u f ht]
    exact ⟨rfl, rfl, rfl⟩

end Names

/-- What the calls keep up: owners come first, a name leads to the first symbol that has it, and the
parameters of a symbol are those in its list. -/
structure Consistent (u : SymbolTable) (params : SymbolId → List SymbolId) : Prop where
  root : u.root < u.size
  top : (u.entry u.root).owner = none ∧ u.kind u.root = .package
  owned : ∀ s : Nat, s < u.size → s ≠ u.root → ∃ o, (u.entry s).owner = some o ∧ o < s
  names : ∀ name s, u.lookup name = some s ↔ IsLeast (u.named name) s
  listed : ∀ o, (u.entry o).typeParams = params o
  params : ∀ o p, p ∈ params o → p < u.size ∧ u.kind p = .typeParam ∧ (u.entry p).owner = some o

namespace Consistent

variable {u : SymbolTable} {params : SymbolId → List SymbolId} (h : u.Consistent params)

include h

theorem eq_root {s : SymbolId} (hs : s < u.size) (ho : (u.entry s).owner = none) : s = u.root := by
  by_contra hne
  obtain ⟨o, ho', -⟩ := h.owned s hs hne
  cases ho.symm.trans ho'

theorem ownersPrecede : u.OwnersPrecede := by
  intro s o ho
  by_cases hs : s < u.size
  · by_cases hroot : s = u.root
    · rw [hroot, h.top.1] at ho
      cases ho
    · obtain ⟨o', ho', hlt⟩ := h.owned s hs hroot
      rwa [Option.some.inj (ho.symm.trans ho')]
  · rw [entry_of_size_le u (Nat.le_of_not_lt hs)] at ho
    cases ho

theorem kind_of_owner_eq_none (s : SymbolId) (ho : (u.entry s).owner = none) :
    u.kind s = .package := by
  by_cases hs : s < u.size
  · rw [h.eq_root hs ho]
    exact h.top.2
  · rw [kind, entry_of_size_le u (Nat.le_of_not_lt hs)]
    rfl

theorem lookup_eq_none_iff {name : String} : u.lookup name = none ↔ u.named name = ∅ := by
  rw [Option.eq_none_iff_forall_ne_some, Set.eq_empty_iff_forall_notMem]
  constructor
  · classical
    exact fun hnone s hs ↦ hnone _ ((h.names name _).2 (Nat.isLeast_find ⟨s, hs⟩))
  · exact fun hempty s hs ↦ hempty s ((h.names name s).1 hs).1

theorem owner_lt_size {owner : Option SymbolId} (ho : ∀ o ∈ owner, o < u.size) :
    owner.getD u.root < u.size := by
  cases owner with
  | none => exact h.root
  | some o => exact ho o rfl

theorem names_add (i : SymbolEntry) (name : String) (s : SymbolId) :
    (u.add i).lookup name = some s ↔ IsLeast ((u.add i).named name) s := by
  have hmem (t : SymbolId) : t ∈ (u.add i).named name ↔ t ∈ u.named name ∨
      (t = u.size ∧ i.kind ≠ .refinement ∧ (u.add i).fullName u.size = name) :=
    mem_named_add_iff h.ownersPrecede
  rw [lookup_add]
  cases hold : u.lookup name with
  | some t =>
    have hleast := (h.names name t).1 hold
    have hleast' : IsLeast ((u.add i).named name) t := by
      refine ⟨(hmem t).2 (.inl hleast.1), fun x hx ↦ ?_⟩
      rcases (hmem x).1 hx with hx | ⟨rfl, -⟩
      · exact hleast.2 hx
      · exact Nat.le_of_lt hleast.1.1
    constructor
    · rintro ⟨⟩
      exact hleast'
    · exact fun hs ↦ congrArg some (hleast'.unique hs)
  | none =>
    have hempty (x : SymbolId) : x ∉ u.named name :=
      h.lookup_eq_none_iff.1 hold ▸ Set.notMem_empty x
    rw [Option.none_or]
    split
    · next hname =>
      have hleast : IsLeast ((u.add i).named name) u.size := by
        refine ⟨(hmem _).2 (.inr ⟨rfl, hname⟩), fun x hx ↦ ?_⟩
        rcases (hmem x).1 hx with hx | ⟨rfl, -⟩
        · exact absurd hx (hempty x)
        · exact Nat.le_refl _
      constructor
      · rintro ⟨⟩
        exact hleast
      · exact fun hs ↦ congrArg some (hleast.unique hs)
    · next hname =>
      refine ⟨fun hs ↦ (nomatch hs), fun hs ↦ ?_⟩
      rcases (hmem s).1 hs.1 with hs | ⟨-, hs⟩
      · exact absurd hs (hempty s)
      · exact absurd hs hname

theorem add {i : SymbolEntry} {o : Nat} (howner : i.owner = some o) (ho : o < u.size)
    (hparams : i.typeParams = []) : (u.add i).Consistent params := by
  have hold {t : SymbolId} (ht : t < u.size) : (u.add i).entry t = u.entry t :=
    entry_add_of_ne u (Nat.ne_of_lt ht)
  have hroot : (u.add i).root = u.root := (root_add u i).1
  refine ⟨?_, ?_, fun s hs hne ↦ ?_, h.names_add i, fun s ↦ ?_, fun s p hp ↦ ?_⟩
  · rw [hroot, size_add]
    exact Nat.lt_succ_of_lt h.root
  · rw [hroot, kind, hold h.root]
    exact h.top
  · rw [size_add] at hs
    rw [hroot] at hne
    rcases Nat.lt_succ_iff_lt_or_eq.1 hs with hs | rfl
    · rw [hold hs]
      exact h.owned s hs hne
    · rw [entry_add_size]
      exact ⟨o, howner, ho⟩
  · by_cases hs : s = u.size
    · rw [hs, entry_add_size, hparams, ← h.listed, entry_of_size_le u (Nat.le_refl _)]
      rfl
    · rw [entry_add_of_ne u hs]
      exact h.listed s
  · obtain ⟨hlt, hp⟩ := h.params s p hp
    rw [kind, hold hlt, size_add]
    exact ⟨Nat.lt_succ_of_lt hlt, hp⟩

theorem update {params' : SymbolId → List SymbolId} {s : Nat} {f : SymbolEntry → SymbolEntry}
    (hs : s < u.size) (hname : ∀ i, (f i).name = i.name) (howner : ∀ i, (f i).owner = i.owner)
    (hkind : ∀ i, (f i).kind = i.kind) (hself : (f (u.entry s)).typeParams = params' s)
    (hother : ∀ o, o ≠ s → params' o = params o)
    (hparams : ∀ p, p ∈ params' s → p < u.size ∧ u.kind p = .typeParam ∧
      (u.entry p).owner = some s) : (u.update s f).Consistent params' := by
  have hsame := identity_update hs hname howner hkind
  have hnamed (name : String) : (u.update s f).named name = u.named name := by
    ext t
    simp only [named, Set.mem_ofPred_eq, size_update, (hsame t).2.2,
      fullName_congr h.ownersPrecede fun x _ ↦ hsame x]
  refine ⟨by rw [size_update]; exact h.root, ?_, fun t ht hne ↦ ?_, fun name t ↦ ?_, fun o ↦ ?_,
    fun o p hp ↦ ?_⟩
  · have htop := hsame u.root
    exact ⟨htop.2.1.trans h.top.1, htop.2.2.trans h.top.2⟩
  · rw [size_update] at ht
    rw [(hsame t).2.1]
    exact h.owned t ht hne
  · rw [hnamed]
    exact h.names name t
  · by_cases ho : o = s
    · rw [ho, entry_update_self u f hs, hself]
    · rw [entry_update_of_ne u f ho, hother o ho]
      exact h.listed o
  · rw [size_update, (hsame p).2.1, (hsame p).2.2]
    by_cases ho : o = s
    · rw [ho] at hp ⊢
      exact hparams p hp
    · rw [hother o ho] at hp
      exact h.params o p hp

theorem retype {s : Nat} {f : SymbolEntry → SymbolEntry} (hs : s < u.size)
    (hname : ∀ i, (f i).name = i.name) (howner : ∀ i, (f i).owner = i.owner)
    (hkind : ∀ i, (f i).kind = i.kind) (hparams : ∀ i, (f i).typeParams = i.typeParams) :
    (u.update s f).Consistent params :=
  h.update hs hname howner hkind ((hparams _).trans (h.listed s)) (fun _ _ ↦ rfl) (h.params s)

end Consistent

namespace Consistent

variable {u : SymbolTable} {params : SymbolId → List SymbolId} (h : u.Consistent params)

include h

theorem define {o : Nat} (ho : o < u.size) (name : String) (k : SymbolKind) (v : Variance)
    (body : Option Ty) :
    (u.define { name, owner := some o, kind := k, variance := v, body }).2.Consistent params :=
  h.add rfl ho rfl

theorem package (owner : Option SymbolId) (name : String) (ho : ∀ o ∈ owner, o < u.size) :
    (u.package owner name).2.Consistent params := by
  unfold SymbolTable.package
  dsimp only
  generalize u.lookup _ = found
  cases found with
  | some s => exact h
  | none => exact h.define (h.owner_lt_size ho) name .package .invariant none

theorem typeParam {o : Nat} (name : String) (v : Variance) (ho : o < u.size) :
    (u.typeParam o name v).2.Consistent
      fun o' ↦ params o' ++ if o = o' then [u.size] else [] := by
  have hadd := h.add (i := { name, owner := some o, kind := .typeParam, variance := v })
    (o := o) rfl ho rfl
  refine hadd.update (by rw [size_add]; exact Nat.lt_succ_of_lt ho) (fun _ ↦ rfl) (fun _ ↦ rfl)
    (fun _ ↦ rfl) ?_ (fun o' hne ↦ ?_) fun p hp ↦ ?_
  · dsimp only
    rw [hadd.listed, if_pos rfl]
    rfl
  · rw [if_neg hne.symm, List.append_nil]
  · rw [if_pos rfl, List.mem_append, List.mem_singleton] at hp
    rcases hp with hp | rfl
    · exact hadd.params o p hp
    · rw [size_add, kind, entry_add_size]
      exact ⟨Nat.lt_succ_self _, rfl, rfl⟩

/-- One call keeps a table consistent, and changes at most one parameter list, by the parameter that
it creates. -/
theorem call {c : Call} (hc : c.Valid u) :
    (c.run u).2.Consistent fun o ↦ params o ++ c.createdIn u o := by
  have hkeep (hlist : c.listOwner? = none) (h' : (c.run u).2.Consistent params) :
      (c.run u).2.Consistent fun o ↦ params o ++ c.createdIn u o := by
    simpa [Call.createdIn, hlist] using h'
  cases c with
  | package owner name => exact hkeep rfl (h.package owner name hc)
  | cls o name => exact hkeep rfl (h.define hc name .cls .invariant none)
  | object o name => exact hkeep rfl (h.define hc name .object .invariant none)
  | term o name declared => exact hkeep rfl (h.define hc name .term .invariant declared)
  | typeParam o name v =>
    have hcreated (o' : SymbolId) :
        Call.createdIn u (.typeParam o name v) o' = if o = o' then [u.size] else [] := by
      simp only [Call.createdIn, Call.listOwner?, Option.some.injEq]
      rfl
    simp only [hcreated]
    exact h.typeParam name v hc
  | freeTypeParam o name v => exact hkeep rfl (h.define hc name .typeParam v none)
  | abstractType o name => exact hkeep rfl (h.define hc name .abstractType .invariant none)
  | typeAlias o name => exact hkeep rfl (h.define hc name .typeAlias .invariant none)
  | refinement o type => exact hkeep rfl (h.define hc "<refinement>" .refinement .invariant type)
  | setParents s parents =>
    exact hkeep rfl (h.retype hc (fun _ ↦ rfl) (fun _ ↦ rfl) (fun _ ↦ rfl) fun _ ↦ rfl)
  | setBounds s lower upper =>
    exact hkeep rfl (h.retype hc (fun _ ↦ rfl) (fun _ ↦ rfl) (fun _ ↦ rfl) fun _ ↦ rfl)
  | setBody s body =>
    exact hkeep rfl (h.retype hc (fun _ ↦ rfl) (fun _ ↦ rfl) (fun _ ↦ rfl) fun _ ↦ rfl)

end Consistent

def rootOnly : SymbolTable :=
  let u : SymbolTable :=
    { symbols := #[], names := [], root := 0, any := 2, anyRef := 3, nothing := 4 }
  (u.define { name := "<root>", owner := none, kind := .package }).2

theorem rootOnly_consistent : rootOnly.Consistent fun _ ↦ [] := by
  have hnil (o : SymbolId) : (rootOnly.entry o).typeParams = [] := by
    by_cases ho : o < 1
    · obtain rfl : o = 0 := Nat.lt_one_iff.1 ho
      rfl
    · rw [entry_of_size_le _ (Nat.le_of_not_lt ho)]
      rfl
  refine ⟨Nat.zero_lt_one, ⟨rfl, rfl⟩, fun s hs hne ↦ absurd (Nat.lt_one_iff.1 hs) hne,
    fun name s ↦ ?_, hnil, fun _ _ hp ↦ (nomatch hp)⟩
  have hname : rootOnly.fullName 0 = "" := rfl
  have hlookup : rootOnly.lookup name = some s ↔ name = "" ∧ s = 0 := by
    change List.lookup name [("", 0)] = some s ↔ _
    by_cases hn : name = ""
    · simp [hn, eq_comm]
    · have hne : (name == "") = false := by simpa using hn
      simp [List.lookup_cons, hne, hn]
  rw [hlookup]
  constructor
  · rintro ⟨rfl, rfl⟩
    exact ⟨⟨Nat.zero_lt_one, nofun, hname⟩, fun _ _ ↦ Nat.zero_le _⟩
  · rintro ⟨⟨hs, -, rfl⟩, -⟩
    obtain rfl : s = 0 := Nat.lt_one_iff.1 hs
    exact ⟨hname, rfl⟩

theorem Consistent.afterCalls {u : SymbolTable} {params : SymbolId → List SymbolId}
    (h : u.Consistent params) {calls : List Call} (hcalls : ValidCalls u calls) :
    (u.afterCalls calls).Consistent fun o ↦ params o ++ createdParams o u calls := by
  induction calls generalizing u params with
  | nil => simpa [createdParams, SymbolTable.afterCalls] using h
  | cons c calls ih =>
    have hrest := ih (h.call hcalls.1) hcalls.2
    simp only [List.append_assoc] at hrest
    exact hrest

theorem initial_consistent : initial.Consistent fun _ ↦ [] := by
  have hcalls : ValidCalls rootOnly
      [.package none "scala", .cls 1 "Any", .cls 1 "AnyRef", .cls 1 "Nothing"] := by
    decide
  exact rootOnly_consistent.afterCalls hcalls

/-- After any calls with symbols that are there: owners come before what they own, and a symbol has
one path of owners, which spells its full name; a name leads to the first symbol that has it; and
the parameters of a symbol are those created in it, in their order. -/
theorem afterCalls_consistent {calls : List Call} (hcalls : ValidCalls initial calls) :
    let u := initial.afterCalls calls
    (∀ s : Nat, s < u.size → s ≠ u.root → ∃ o, (u.entry s).owner = some o ∧ o < s) ∧
      (∀ s, ∃ path, u.OwnerPath s path ∧ (∀ path', u.OwnerPath s path' → path' = path) ∧
        u.fullName s = ".".intercalate (path.map fun t ↦ (u.entry t).name).reverse) ∧
      (∀ name s, u.lookup name = some s ↔ IsLeast (u.named name) s) ∧
      ∀ o, (u.entry o).typeParams = createdParams o initial calls ∧
        ∀ p ∈ (u.entry o).typeParams, u.kind p = .typeParam ∧ (u.entry p).owner = some o := by
  intro u
  have h : u.Consistent fun o ↦ createdParams o initial calls :=
    initial_consistent.afterCalls hcalls
  refine ⟨h.owned, fun s ↦ ?_, h.names, fun o ↦ ⟨h.listed o, fun p hp ↦ ?_⟩⟩
  · obtain ⟨path, hpath⟩ := h.ownersPrecede.exists_ownerPath s
    exact ⟨path, hpath, fun _ hpath' ↦ hpath'.unique hpath,
      hpath.fullName h.ownersPrecede h.kind_of_owner_eq_none⟩
  · rw [h.listed] at hp
    exact (h.params o p hp).2

/-- A package that is asked for twice, with two classes of one name and a refinement. -/
def namesakeCalls : List Call :=
  [.package none "app", .cls 5 "Box", .typeParam 6 "A" .covariant, .cls 5 "Box",
    .typeParam 6 "B" .invariant, .package (some 0) "app", .refinement 5 (.self 6),
    .setParents 8 [.self 10]]

theorem namesakeCalls_consistent :
    ValidCalls initial namesakeCalls ∧
      ((initial.afterCalls namesakeCalls).entry 6).typeParams = [7, 9] ∧
      IsLeast ((initial.afterCalls namesakeCalls).named "app.Box") 6 := by
  have hcalls : ValidCalls initial namesakeCalls := by decide
  obtain ⟨-, -, hnames, hparams⟩ := afterCalls_consistent hcalls
  refine ⟨hcalls, ?_, (hnames _ _).1 (by decide)⟩
  rw [(hparams 6).1]
  decide

end TypeTag.SymbolTable
