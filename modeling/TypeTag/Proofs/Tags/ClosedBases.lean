import TypeTag.Proofs.Builds.FreeNames
import TypeTag.Proofs.Tags.StableBases

namespace TypeTag.SymbolTable

open Build Stepped
open Descriptor (mem_freeNames_lambda)

variable {u : SymbolTable} {n : Nat}

def Component (u : SymbolTable) (root t : Ty) : Prop :=
  ∃ n ts cs, u.reachable n root = some ts ∧ u.closeOverAncestors n ts = some cs ∧ t ∈ cs

def DeclaresMember (u : SymbolTable) (root : Ty) (m : String) : Prop :=
  root.DeclaresMember m ∨ ∃ s, ∃ t ∈ (u.entry s).types, t.DeclaresMember m

/-- Where the free names of the descriptors that belong to a component come from. The parameters of
the component itself are only in the paths to terms. -/
inductive KnownName (u : SymbolTable) (root t : Ty) (d : Descriptor) (x : String) : Prop
  | typeMember (h : u.DeclaresMember root x)
  | symbol (s : SymbolId) (hlt : s < u.size) (hname : u.symName s = .type x)
    (h : u.fullName s ∉ (u.typeParams t).map u.fullName ∨ u.InPath x d)

theorem exists_of_mem_stableBases {ts : List Ty} {m : MultiMap Descriptor Descriptor}
    (h : (u.stableBases n ts).value? = some m) {e : Descriptor × Descriptor} (he : e ∈ m.edges) :
    ∃ t ∈ ts, ∃ es, (u.stableEdges n t).value? = some es ∧ e ∈ es := by
  obtain ⟨ess, hess, h⟩ := value?_bind_iff.1 h
  cases h
  obtain ⟨es, hes, he⟩ := List.mem_flatten.1 (MultiMap.mem_edges_ofList.1 he)
  obtain ⟨t, ht, hes⟩ := exists_of_mem_value?_mapM hess hes
  exact ⟨t, ht, es, hes, he⟩

theorem stableEdges_value? {t : Ty} {es : List (Descriptor × Descriptor)}
    (h : (u.stableEdges n t).value? = some es) {child parent : Descriptor}
    (he : (child, parent) ∈ es) :
    ∃ ρ own bases base d, u.stableBindings n t = some (ρ, own) ∧
      (u.describeAlone n ρ (!ρ.isEmpty) own).value? = some child ∧
      u.ancestors n own = some bases ∧ base ∈ bases ∧
      (u.describeAlone n ρ (!ρ.isEmpty) base).value? = some d ∧ parent = d.collapsed := by
  obtain ⟨⟨ρ, own⟩, hown, h⟩ := value?_bind_iff.1 h
  obtain ⟨child', hchild, h⟩ := value?_bind_iff.1 h
  obtain ⟨bases, hbases, h⟩ := value?_bind_iff.1 h
  obtain ⟨found, hfound, h⟩ := value?_bind_iff.1 h
  cases h
  obtain ⟨e, he, hsome⟩ := List.mem_filterMap.1 he
  obtain rfl : e = some (child, parent) := hsome
  obtain ⟨base, hbase, hedge⟩ := exists_of_mem_value?_mapM hfound he
  obtain ⟨d, hd, hedge⟩ := value?_bind_iff.1 hedge
  obtain ⟨p, hp, hedge⟩ := value?_bind_iff.1 hedge
  obtain rfl := Option.some.inj ((collapseBase_value? d).symm.trans hp)
  split at hedge
  · cases hedge
  · cases hedge
    exact ⟨ρ, own, bases, base, d, value?_lift_iff.1 hown, hchild, value?_lift_iff.1 hbases, hbase,
      hd, rfl⟩

section Names

variable {M : String → Prop} (hu : u.Obeys (Ty.membersNamed M)) {t : Ty}

include hu

/-- A side of an edge binds the parameters that are in force there. -/
theorem Obeys.unbound_of_mem_freeNames (ht : t.Obeys (Ty.membersNamed M)) {ρ : Bindings}
    {d : Descriptor} (h : (u.describeAlone n ρ (!ρ.isEmpty) t).value? = some d) {x : String}
    (hx : x ∈ d.freeNames) : u.Unbound M ρ x d := by
  have hpaths := fun m ↦ hu.scoped_of_isPath (fun _ ↦ trivial) (m := m)
  cases hρ : ρ.isEmpty with
  | true =>
    rw [hρ] at h
    refine (Scoped.of_mem_freeNames hpaths (describeAlone_scoped hu ht h) hx).resolve_left ?_
    rintro ⟨y, hy⟩
    rw [List.isEmpty_iff.1 hρ] at hy
    cases hy
  | false =>
    rw [hρ] at h
    obtain ⟨body, rfl, hbody⟩ := describeAlone_force_scoped hu ht h
    obtain ⟨hx, hparams⟩ := mem_freeNames_lambda.1 hx
    refine Unbound.of_part ((Scoped.of_mem_freeNames hpaths hbody hx).resolve_left ?_)
      List.mem_cons_self
    rintro ⟨y, hy⟩
    obtain ⟨l, l', rfl, -⟩ := List.lookup_eq_some_iff.1 hy
    simp at hparams

end Names

theorem not_mem_typeParams_of_lookup {t own : Ty} {ρ : Bindings}
    (h : u.stableBindings n t = some (ρ, own)) {x : String} (hx : ρ.lookup x = none) :
    x ∉ (u.typeParams t).map u.fullName := by
  obtain ⟨d, -, h⟩ := Option.map_eq_some_iff.1 h
  cases h
  have hnames := (Bindings.lookup_bindAll_eq_none hx).1
  rw [typeParams_etaExpand] at hnames
  intro hmem
  obtain ⟨p, hp, rfl⟩ := List.mem_map.1 hmem
  obtain ⟨i, hi⟩ := List.mem_iff_getElem?.1 hp
  have hpair : (p, i) ∈ (u.typeParams t).zipIdx := List.mem_zipIdx_iff_getElem?.2 hi
  exact hnames (List.mem_map.2 ⟨_, List.mem_map.2 ⟨(p, i), hpair, rfl⟩, rfl⟩)

theorem Constructible.exists_lt_size (hu : u.Constructible) (s : SymbolId) :
    ∃ s' < u.size, u.symName s' = u.symName s ∧ u.fullName s' = u.fullName s := by
  by_cases hs : s < u.size
  · exact ⟨s, hs, rfl, rfl⟩
  · have hentry := u.entry_of_size_le (Nat.le_of_not_lt hs)
    obtain ⟨howner, hkind⟩ := hu.entry_zero
    have hname : u.fullName 0 = u.fullName s := by
      have hkind : (u.entry 0).kind = .package := hkind
      have hdefault : (default : SymbolEntry).owner = none ∧
        (default : SymbolEntry).kind = .package := ⟨rfl, rfl⟩
      simp [fullName, ownerNames, hentry, howner, hkind, hdefault]
    refine ⟨0, Nat.zero_lt_of_lt hu.wellFormed.root, ?_, hname⟩
    have hkinds : u.kind s = .package := by
      rw [kind, hentry]
      rfl
    have howners : (u.entry s).owner = none := by
      rw [hentry]
      rfl
    simp [symName, howner, howners, isTerm, hkind, hkinds, hname]

/-- The classes `Iter[A]`, `Seq[A]` with the parent `Iter[A]`, and `Pair[A, B]` with the parent
`Seq[A]`. -/
def pairs : SymbolTable :=
  let (iter, u) := initial.cls 1 "Iter"
  let (_, u) := u.typeParam iter "A" .covariant
  let (seq, u) := u.cls 1 "Seq"
  let (a, u) := u.typeParam seq "A" .covariant
  let u := u.setParents seq [u.applied iter [u.typeRef a]]
  let (pair, u) := u.cls 1 "Pair"
  let (a, u) := u.typeParam pair "A" .covariant
  let (_, u) := u.typeParam pair "B" .covariant
  u.setParents pair [u.applied seq [u.typeRef a]]

def appliedTo (c x : String) : Descriptor :=
  .full (.type c) [⟨.typeName x, .covariant⟩] none

theorem constructible_pairs : pairs.Constructible := by
  refine .step (.step (.step (.step (.step (.step (.step (.step (.step .initial
    (.cls 1 "Iter" ?_)) (.typeParam 5 "A" .covariant ?_)) (.cls 1 "Seq" ?_))
    (.typeParam 7 "A" .covariant ?_)) (.setParents 7 _ ?_ ?_)) (.cls 1 "Pair" ?_))
    (.typeParam 9 "A" .covariant ?_)) (.typeParam 9 "B" .covariant ?_)) (.setParents 9 _ ?_ ?_)
  all_goals first
    | decide
    | exact fun t ht s hs ↦ (by decide : ∀ t ∈ _, ∀ s ∈ t.symbols, s < _) t ht s hs

end TypeTag.SymbolTable
