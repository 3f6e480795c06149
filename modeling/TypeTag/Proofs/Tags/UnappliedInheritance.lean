import TypeTag.Proofs.Builds.Names
import TypeTag.Proofs.Descriptor.Order
import TypeTag.Proofs.Tags.StableBases

namespace TypeTag.SymbolTable

open Relation
open Build (Ends value?_bind_iff value?_lift_iff outcome_eq_some_some_iff)

section Edges

variable {u : SymbolTable} {n : Nat} {t : Ty} {es : List (NameRef Descriptor × NameRef Descriptor)}
  {k m : NameRef Descriptor}

theorem aliasEdge_value? {target : Ty} (h : (u.aliasEdge n t target).value? = some es)
    (he : (k, m) ∈ es) : t.symbol? ≠ target.symbol? ∧ (u.ownName n t).value? = some (some k) ∧
      (u.ownName n target).value? = some (some m) := by
  unfold aliasEdge at h
  split at h
  · next hne =>
    obtain ⟨o, ho, h⟩ := value?_bind_iff.1 h
    obtain ⟨o', ho', h⟩ := value?_bind_iff.1 h
    split at h
    · cases h
      cases List.mem_singleton.1 he
      simp only [Bool.and_eq_true, bne_iff_ne] at hne
      exact ⟨hne.2, ho, ho'⟩
    · cases h
      cases he
  · cases h
    cases he

theorem unappliedEdge_value? {base : Ty} {e : Option (NameRef Descriptor × NameRef Descriptor)}
    (h : (u.unappliedEdge n k base).value? = some e) :
    (u.takesTypeArgs base = true ∧ e = none) ∨
      (u.takesTypeArgs base = false ∧ ∃ d, (u.descriptor n base).value? = some d ∧
        e = d.asName?.map fun p ↦ (k, { p with boundaries := .empty })) := by
  unfold unappliedEdge at h
  split at h
  · next hargs =>
    cases h
    exact .inl ⟨hargs, rfl⟩
  · next hargs =>
    obtain ⟨d, hd, h⟩ := value?_bind_iff.1 h
    cases h
    exact .inr ⟨by simpa using hargs, d, hd, rfl⟩

/-- The edges of a component: from an alias to what it stands for, and from the name of this to
those of its ancestors. -/
theorem unappliedEdges_value? (h : (u.unappliedEdges n t).value? = some es) :
    ∃ target own, u.dealiasResult n (u.etaExpand t) = some target ∧
      (u.ownName n target).value? = some own ∧
      ((k, m) ∈ es → (t.symbol? ≠ target.symbol? ∧ (u.ownName n t).value? = some (some k) ∧
          own = some m) ∨
        (own = some k ∧ ∃ forms, u.ancestors n t = some forms ∧
          ∃ f ∈ forms, (u.unappliedEdge n k f).value? = some (some (k, m)))) ∧
      (own = some k → ∀ forms, u.ancestors n t = some forms → ∀ f ∈ forms,
        ∃ e, (u.unappliedEdge n k f).value? = some e ∧ ∀ m, e = some (k, m) → (k, m) ∈ es) := by
  obtain ⟨target, htarget, h⟩ := value?_bind_iff.1 h
  obtain ⟨edges, hedges, h⟩ := value?_bind_iff.1 h
  obtain ⟨own, hown, h⟩ := value?_bind_iff.1 h
  have halias (he : (k, m) ∈ edges) : t.symbol? ≠ target.symbol? ∧
      (u.ownName n t).value? = some (some k) ∧ own = some m := by
    obtain ⟨hne, hk, hm⟩ := aliasEdge_value? hedges he
    exact ⟨hne, hk, Option.some.inj (hown.symm.trans hm)⟩
  refine ⟨target, own, value?_lift_iff.1 htarget, hown, ?_⟩
  cases own with
  | none =>
    cases h
    exact ⟨fun he ↦ .inl (halias he), fun heq ↦ nomatch heq⟩
  | some child =>
    obtain ⟨forms, hforms, h⟩ := value?_bind_iff.1 h
    have hforms := value?_lift_iff.1 hforms
    obtain ⟨found, hfound, h⟩ := value?_bind_iff.1 h
    cases h
    constructor
    · intro he
      rcases List.mem_append.1 he with he | he
      · exact .inl (halias he)
      · obtain ⟨e, hmem, rfl⟩ := List.mem_filterMap.1 he
        obtain ⟨f, hf, hedge⟩ := Build.exists_of_mem_value?_mapM hfound hmem
        obtain rfl : child = k := by
          rcases unappliedEdge_value? hedge with ⟨-, heq⟩ | ⟨-, d, -, heq⟩
          · cases heq
          · obtain ⟨p, -, heq⟩ := Option.map_eq_some_iff.1 heq.symm
            exact congrArg Prod.fst heq
        exact .inr ⟨rfl, forms, hforms, f, hf, hedge⟩
    · intro heq forms' hforms' f hf
      cases heq
      cases hforms.symm.trans hforms'
      obtain ⟨e, hmem, he⟩ := Build.exists_mem_of_value?_mapM hfound hf
      refine ⟨e, he, fun m hm ↦ List.mem_append_right _ (List.mem_filterMap.2 ⟨e, hmem, hm⟩)⟩

section Inheritance

variable {ts : List Ty} {edges : MultiMap (NameRef Descriptor) (NameRef Descriptor)}
  (h : (u.unappliedInheritance n ts).value? = some edges)

include h

theorem exists_unappliedEdges (ht : t ∈ ts) : ∃ es, (u.unappliedEdges n t).value? = some es := by
  obtain ⟨ess, hess, -⟩ := value?_bind_iff.1 h
  obtain ⟨es, -, hes⟩ := Build.exists_mem_of_value?_mapM hess ht
  exact ⟨es, hes⟩

theorem mem_unappliedInheritance : (k, m) ∈ edges.edges ↔
    k ≠ m ∧ ∃ t ∈ ts, ∃ es, (u.unappliedEdges n t).value? = some es ∧ (k, m) ∈ es := by
  obtain ⟨ess, hess, h⟩ := value?_bind_iff.1 h
  cases h
  rw [MultiMap.mem_edges_filter_iff, MultiMap.mem_edges_ofList, bne_iff_ne, and_comm]
  refine and_congr_right fun _ ↦ ⟨fun he ↦ ?_, fun ⟨t, ht, es, hes, he⟩ ↦ ?_⟩
  · obtain ⟨es, hmem, he⟩ := List.mem_flatten.1 he
    obtain ⟨t, ht, hes⟩ := Build.exists_of_mem_value?_mapM hess hmem
    exact ⟨t, ht, es, hes, he⟩
  · obtain ⟨es', hmem, hes'⟩ := Build.exists_mem_of_value?_mapM hess ht
    cases hes.symm.trans hes'
    exact List.mem_flatten_of_mem hmem he

end Inheritance

end Edges

section Components

variable {u : SymbolTable} (h : u.Nominal) (hu : u.Constructible) {c : SymbolId} {n : Nat} {t : Ty}
  {es : List (NameRef Descriptor × NameRef Descriptor)} {k m : NameRef Descriptor}

/-- A type whose expansion has the symbol of `c`, so that its edges start from the name of `c`. -/
def StartsFrom (u : SymbolTable) (n : Nat) (c : SymbolId) (t : Ty) : Prop :=
  ∃ d, u.dealiasResult n (u.etaExpand t) = some d ∧ d.symbol? = some c

def Inherited (u : SymbolTable) (c b : SymbolId) : Prop :=
  u.kind b = .cls ∧ u.isUniversal b = false ∧ b ≠ c ∧ ReflTransGen u.Extends c b

include h in
theorem Nominal.kind_of_reachable {b : SymbolId} (hc : u.kind c = .cls)
    (hb : ReflTransGen u.Extends c b) : u.kind b = .cls := by
  induction hb with
  | refl => exact hc
  | tail _ hstep ih => exact h.kind_of_extends ih hstep

theorem startsFrom_of_symbol? (hc : u.kind c = .cls) (hs : t.symbol? = some c) {d : Ty}
    (hd : u.dealiasResult n (u.etaExpand t) = some d) : u.StartsFrom n c t :=
  ⟨d, hd, symbol?_dealiasResult hc (symbol?_etaExpand.trans hs) hd⟩

include h hu

variable (hc : u.kind c = .cls) (ht : t.Obeys u.defaultNodes)
  (hes : (u.unappliedEdges n t).value? = some es)

include hc ht hes

theorem Nominal.of_key (he : (u.bareName c, m) ∈ es) :
    u.StartsFrom n c t ∧ ∃ b, u.Inherited c b ∧ m = u.bareName b := by
  obtain ⟨d, own, hd, hown, hcases, -⟩ := unappliedEdges_value? (k := u.bareName c) (m := m) hes
  rcases hcases he with ⟨hne, hk, -⟩ | ⟨rfl, forms, hforms, f, hf, hedge⟩
  · have hs := h.symbol?_of_ownName hc hu hk
    have hd := symbol?_dealiasResult hc (symbol?_etaExpand.trans hs) hd
    exact absurd (hs.trans hd.symm) hne
  · have hs := h.symbol?_of_ownName hc hu hown
    refine ⟨⟨d, hd, hs⟩, ?_⟩
    have hobeys := (h.obeys hu).keeps.dealiasResult_etaExpand ht hd
    obtain ⟨b, huniversal, hne, hpath, happlied⟩ :=
      (h.ancestors_of_symbol? hu hc hd hobeys hs hforms).1 f hf
    have hb := h.kind_of_reachable hc hpath
    refine ⟨b, ⟨hb, huniversal, hne, hpath⟩, ?_⟩
    obtain ⟨-, as, rfl, -⟩ := happlied
    rcases unappliedEdge_value? hedge with ⟨-, heq⟩ | ⟨hargs, e, hdesc, heq⟩
    · cases heq
    · rw [h.asName?_applied hb hargs hdesc] at heq
      cases heq
      rfl

theorem Nominal.of_startsFrom (hstart : u.StartsFrom n c t) {b : SymbolId} (hb : u.Inherited c b)
    {forms : List Ty} (hforms : u.ancestors n t = some forms) :
    (u.bareName c, u.bareName b) ∈ es := by
  obtain ⟨d, own, hd, hown, -, hedges⟩ :=
    unappliedEdges_value? (k := u.bareName c) (m := u.bareName b) hes
  obtain ⟨d', hd', hs⟩ := hstart
  cases hd.symm.trans hd'
  have hobeys := (h.obeys hu).keeps.dealiasResult_etaExpand ht hd
  cases (h.ownName_class hc hobeys hs).symm.trans hown
  obtain ⟨hk, huniversal, hne, hpath⟩ := hb
  obtain ⟨f, hf, happlied⟩ :=
    (h.ancestors_of_symbol? hu hc hd hobeys hs hforms).2 b huniversal hne hpath
  obtain ⟨e, hedge, hmem⟩ := hedges rfl forms hforms f hf
  refine hmem _ ?_
  obtain ⟨-, as, rfl, hlen⟩ := happlied
  have hargs := takesTypeArgs_applied hlen
  rcases unappliedEdge_value? hedge with ⟨hargs', -⟩ | ⟨-, e', hdesc, heq⟩
  · rw [hargs] at hargs'
    cases hargs'
  · rw [heq, h.asName?_applied hk hargs hdesc]
    rfl

omit ht in
/-- An edge to the name of a class leads to a type of that class, or to one with such an
ancestor. -/
theorem Nominal.of_value {cs : List Ty} (hobeys : ∀ t ∈ cs, t.Obeys u.defaultNodes)
    (hclosed : ∀ t ∈ cs, ∃ found, u.ancestors n t = some found ∧ found ⊆ cs)
    (huniversal : u.isUniversal c = false) (hmem : t ∈ cs) (he : (k, u.bareName c) ∈ es) :
    ∃ x ∈ cs, u.StartsFrom n c x := by
  obtain ⟨d, own, hd, hown, hcases, -⟩ := unappliedEdges_value? (k := k) (m := u.bareName c) hes
  rcases hcases he with ⟨-, -, rfl⟩ | ⟨-, forms, hforms, f, hf, hedge⟩
  · exact ⟨t, hmem, d, hd, h.symbol?_of_ownName hc hu hown⟩
  · have hexpands {x : Ty} (hx : x ∈ cs) : ∃ found d, u.ancestors n x = some found ∧ found ⊆ cs ∧
        u.dealiasResult n (u.etaExpand x) = some d := by
      obtain ⟨found, hfound, hsub⟩ := hclosed x hx
      obtain ⟨d, -, hd, -⟩ := ancestors_eq_some hfound
      exact ⟨found, d, hfound, hsub, hd⟩
    have hfcs : f ∈ cs := by
      obtain ⟨found, hfound, hsub⟩ := hclosed t hmem
      cases hforms.symm.trans hfound
      exact hsub hf
    obtain ⟨found, d, hfound, hsub, hd⟩ := hexpands hfcs
    rcases unappliedEdge_value? hedge with ⟨-, heq⟩ | ⟨hargs, e, hdesc, heq⟩
    · cases heq
    · obtain ⟨p, hp, heq⟩ := Option.map_eq_some_iff.1 heq.symm
      have hname : e.symName? = some (u.symName c) := by
        have hpname : p.name = u.symName c := congrArg (fun e ↦ e.2.name) heq
        rw [← hpname]
        cases e <;> cases hp <;> rfl
      have hrefers := h.descriptor_refers hu hc (hobeys f hfcs) hdesc hname
      rw [← refers_dealiasResult_iff (etaExpand_of_not_takesTypeArgs hargs ▸ hd)] at hrefers
      by_cases hs : d.symbol? = some c
      · exact ⟨f, hfcs, d, hd, hs⟩
      · obtain ⟨x, hx, hxs⟩ := exists_ancestor_of_refers hc huniversal hd hrefers hs hfound
        obtain ⟨-, dx, -, -, hdx⟩ := hexpands (hsub hx)
        exact ⟨x, hsub hx, startsFrom_of_symbol? hc hxs hdx⟩

omit ht hes in
theorem Nominal.mem_unappliedInheritance_iff {cs : List Ty}
    {edges : MultiMap (NameRef Descriptor) (NameRef Descriptor)}
    (hedges : (u.unappliedInheritance n cs).value? = some edges)
    (hobeys : ∀ t ∈ cs, t.Obeys u.defaultNodes)
    (hclosed : ∀ t ∈ cs, ∃ found, u.ancestors n t = some found ∧ found ⊆ cs)
    (huniversal : u.isUniversal c = false)
    (hnamed : ∃ m, (u.bareName c, m) ∈ edges.edges ∨ (m, u.bareName c) ∈ edges.edges) :
    (u.bareName c, m) ∈ edges.edges ↔ ∃ b, u.Inherited c b ∧ m = u.bareName b := by
  -- A class that only an edge's end names is there as one of the ancestors closed over.
  obtain ⟨x, hx, hstart⟩ : ∃ x ∈ cs, u.StartsFrom n c x := by
    obtain ⟨m, hm | hm⟩ := hnamed
    · obtain ⟨-, t, ht, es, hes, he⟩ := (mem_unappliedInheritance hedges).1 hm
      exact ⟨t, ht, (h.of_key hu hc (hobeys t ht) hes he).1⟩
    · obtain ⟨-, t, ht, es, hes, he⟩ := (mem_unappliedInheritance hedges).1 hm
      exact h.of_value hu hc hes hobeys hclosed huniversal ht he
  constructor
  · intro he
    obtain ⟨-, t, ht, es, hes, he⟩ := (mem_unappliedInheritance hedges).1 he
    exact (h.of_key hu hc (hobeys t ht) hes he).2
  · rintro ⟨b, hb, rfl⟩
    obtain ⟨es, hes⟩ := exists_unappliedEdges hedges hx
    obtain ⟨forms, hforms, -⟩ := hclosed x hx
    refine (mem_unappliedInheritance hedges).2 ⟨fun heq ↦ ?_, x, hx, es, hes, ?_⟩
    · exact hb.2.2.1 (h.bareName_inj hc hu heq.symm)
    · exact h.of_startsFrom hu hc (hobeys x hx) hes hstart hb hforms

end Components

/-- In a table of classes that inherit from applied classes, the tag of a type with default
qualifiers records for each class that it mentions just the classes above it. So between classes the
record is transitive, but for the way from a class back to itself. -/
theorem unapplied_iff_inherited {u : SymbolTable} (hu : u.Constructible) (h : u.Nominal)
    {cache : RootCache} (hcache : cache.Reached u) {config : Config} {alive : ObjectId → Bool}
    {k : Handle Ty} (hk : k.value.Obeys u.defaultNodes) {tag : Tag}
    (htag : Ends (fun n ↦ (u.makeTag n config cache alive k).1) (some tag)) :
    (∀ c, u.kind c = .cls → u.isUniversal c = false →
      (∃ m, (u.bareName c, m) ∈ tag.unapplied.edges ∨ (m, u.bareName c) ∈ tag.unapplied.edges) →
      ∀ m, (u.bareName c, m) ∈ tag.unapplied.edges ↔ ∃ b, u.Inherited c b ∧ m = u.bareName b) ∧
    (∀ a b, u.kind a = .cls → u.isUniversal a = false → u.kind b = .cls →
      u.isUniversal b = false → (u.bareName a, u.bareName b) ∈ tag.unapplied.edges → ∀ m,
        (u.bareName b, m) ∈ tag.unapplied.edges → u.bareName a ≠ m →
          (u.bareName a, m) ∈ tag.unapplied.edges) ∧
    ∀ m, (m, m) ∉ tag.unapplied.edges := by
  obtain ⟨n, hn⟩ := (makeTag_ends_iff hcache.sound config alive k).1 htag
  obtain ⟨-, ts, cs, -, -, hts, hcs, -, hunapplied⟩ :=
    tag_value? (outcome_eq_some_some_iff.1 (hn n (Nat.le_refl n)))
  have hobeys := (h.obeys hu).keeps.closeOverAncestors ((h.obeys hu).keeps.reachable hk hts) hcs
  have hclosed := (closeOverAncestors_closed hcs).2
  have hexact (c : SymbolId) (hc : u.kind c = .cls) (huniversal : u.isUniversal c = false)
      (hm : ∃ m, (u.bareName c, m) ∈ tag.unapplied.edges ∨ (m, u.bareName c) ∈ tag.unapplied.edges)
      (m : NameRef Descriptor) :
      (u.bareName c, m) ∈ tag.unapplied.edges ↔ ∃ b, u.Inherited c b ∧ m = u.bareName b :=
    h.mem_unappliedInheritance_iff hu hc hunapplied hobeys hclosed huniversal hm
  have hirrefl (m : NameRef Descriptor) : (m, m) ∉ tag.unapplied.edges := fun hm ↦
    ((mem_unappliedInheritance hunapplied).1 hm).1 rfl
  refine ⟨hexact, fun a b ha hau hb hbu hab m hbm hne ↦ ?_, hirrefl⟩
  obtain ⟨b', hinherited, heq⟩ := (hexact a ha hau ⟨_, .inl hab⟩ _).1 hab
  obtain rfl := h.bareName_inj hb hu heq.symm
  obtain ⟨d, hd, rfl⟩ := (hexact b' hb hbu ⟨_, .inl hbm⟩ m).1 hbm
  refine (hexact a ha hau ⟨_, .inl hab⟩ _).2 ⟨d, ⟨hd.1, hd.2.1, ?_, ?_⟩, rfl⟩
  · rintro rfl
    exact hne rfl
  · exact hinherited.2.2.2.trans hd.2.2.2

def seqAndList : SymbolTable :=
  let (seq, u) := initial.cls 1 "Seq"
  let (_, u) := u.typeParam seq "A" .covariant
  let (list, u) := u.cls 1 "List"
  let (a, u) := u.typeParam list "A" .covariant
  let u := u.setParents list [u.applied seq [u.typeRef a]]
  (u.cls 1 "Int").2

theorem constructible_seqAndList : seqAndList.Constructible := by
  refine .step (.step (.step (.step (.step (.step .initial (.cls 1 "Seq" ?_))
    (.typeParam 5 "A" .covariant ?_)) (.cls 1 "List" ?_)) (.typeParam 7 "A" .covariant ?_))
    (.setParents 7 _ ?_ ?_)) (.cls 1 "Int" ?_)
  all_goals first
    | decide
    | exact fun t ht s hs ↦ (by decide : ∀ t ∈ _, ∀ s ∈ t.symbols, s < _) t ht s hs

theorem types_seqAndList :
    (seqAndList.entry 7).types = [seqAndList.applied 5 [seqAndList.typeRef 8]] := by
  -- The two sides are built from different stages of the table, so both are compared with the type.
  have htypes : (seqAndList.entry 7).types = [.ref (some (.ref none 1 [])) 5 [.ref none 8 []]] := by
    rfl
  have happlied : seqAndList.applied 5 [seqAndList.typeRef 8] =
      .ref (some (.ref none 1 [])) 5 [.ref none 8 []] := by
    rfl
  rw [htypes, happlied]

theorem nominal_seqAndList : seqAndList.Nominal := by
  have hsize : seqAndList.size = 10 := by decide
  have hsmall : ∀ s : Nat, s < 10 →
      (seqAndList.kind s = .cls → (seqAndList.entry s).owner = some 1) ∧
      seqAndList.kind s ≠ .refinement ∧ ((seqAndList.entry s).types = [] ∨ s = 7) ∧
      ∀ s' : Nat, s' < 10 → seqAndList.fullName s = seqAndList.fullName s' → s = s' := by
    decide
  have hlt {s : SymbolId} (hs : seqAndList.kind s ≠ .package) : s < 10 := hsize ▸ kind_lt_size hs
  have htypes {s : SymbolId} {t : Ty} (ht : t ∈ (seqAndList.entry s).types) :
      s = 7 ∧ t = seqAndList.applied 5 [seqAndList.typeRef 8] := by
    by_cases hs : s < 10
    · rcases (hsmall s hs).2.2.1 with hnone | rfl
      · rw [hnone] at ht
        cases ht
      · rw [types_seqAndList] at ht
        exact ⟨rfl, List.mem_singleton.1 ht⟩
    · rw [entry_of_size_le _ (by rw [hsize]; exact Nat.le_of_not_lt hs)] at ht
      cases ht
  constructor
  · intro c hc
    exact ⟨1, (hsmall c (hlt (by simp [hc]))).1 hc, by decide⟩
  · intro s s' hs hs'
    rw [hsize] at hs hs'
    exact (hsmall s hs).2.2.2 s' hs'
  · intro s o c _ ho
    have hk : seqAndList.kind o = .refinement := by simpa [isTransparent] using ho
    exact absurd hk (hsmall o (hlt (by simp [hk]))).2.1
  · intro c hc p hp
    have hmem : p ∈ (seqAndList.entry c).types := by simp [SymbolEntry.types, hp]
    obtain ⟨rfl, rfl⟩ := htypes hmem
    exact ⟨5, by decide, _, rfl, by decide⟩
  · intro s t ht
    obtain ⟨-, rfl⟩ := htypes ht
    have hprecede := constructible_seqAndList.wellFormed.ownersPrecede
    refine applied_defaultNodes hprecede 5 fun a ha ↦ ?_
    rw [List.mem_singleton.1 ha]
    exact applied_defaultNodes hprecede 8 (by simp)

theorem list_unapplied :
    let u := seqAndList
    ∃ tag, Ends (fun n ↦ (u.makeTag n {} .empty (fun _ ↦ true) ⟨0, u.applied 7 [u.typeRef 9]⟩).1)
        (some tag) ∧ (u.bareName 7, u.bareName 5) ∈ tag.unapplied.edges ∧
      ∀ m, (u.bareName 7, m) ∈ tag.unapplied.edges ↔ ∃ b, u.Inherited 7 b ∧ m = u.bareName b := by
  intro u
  have hvalue : (u.tag 10 (u.applied 7 [u.typeRef 9])).value?.map
      (·.unapplied.edges.contains (u.bareName 7, u.bareName 5)) = some true := by decide +kernel
  obtain ⟨tag, htag, hedge⟩ := Option.map_eq_some_iff.1 hvalue
  have hedge : (u.bareName 7, u.bareName 5) ∈ tag.unapplied.edges := by simpa using hedge
  have hends := makeTag_ends_of_value? (RootCache.Reached.empty.sound (u := u)) {} (fun _ ↦ true)
    ⟨0, u.applied 7 [u.typeRef 9]⟩ htag
  have hprecede := constructible_seqAndList.wellFormed.ownersPrecede
  have hobeys : (u.applied 7 [u.typeRef 9]).Obeys u.defaultNodes := by
    refine applied_defaultNodes hprecede 7 fun a ha ↦ ?_
    rw [List.mem_singleton.1 ha]
    exact applied_defaultNodes hprecede 9 (by simp)
  obtain ⟨hexact, -, -⟩ := unapplied_iff_inherited constructible_seqAndList nominal_seqAndList
    .empty hobeys hends
  exact ⟨tag, hends, hedge, hexact 7 (by decide) (by decide) ⟨_, .inl hedge⟩⟩

/-- The classes `C` and `D`, and an abstract type below `D` inside of a refinement, which is called
by its own name `C`. -/
def namesake : SymbolTable :=
  let (_, u) := initial.cls 0 "C"
  let (d, u) := u.cls 0 "D"
  let (r, u) := u.refinement 0 (.refined [] [])
  let (c, u) := u.abstractType r "C"
  u.setBounds c u.nothingType (u.typeRef d)

theorem constructible_namesake : namesake.Constructible := by
  refine .step (.step (.step (.step (.step .initial (.cls 0 "C" ?_)) (.cls 0 "D" ?_))
    (.refinement 0 (.refined [] []) ?_ ?_)) (.abstractType 7 "C" ?_)) (.setBounds 8 _ _ ?_ ?_ ?_)
  all_goals first
    | decide
    | exact fun s hs ↦ (by decide : ∀ s ∈ _, s < _) s hs

theorem size_namesake : namesake.size = 9 := by rfl

theorem entries_namesake : ∀ s : Nat, s < 9 →
    (namesake.kind s = .cls →
      ((namesake.entry s).owner = some 0 ∨ (namesake.entry s).owner = some 1) ∧
        (namesake.entry s).parents = []) ∧
    ((namesake.entry s).types = [] ∨ s = 7 ∨ s = 8) ∧
    ∀ s' : Nat, s' < 9 → namesake.fullName s = namesake.fullName s' → s = s' := by
  decide

theorem types_namesake : (namesake.entry 8).types = [namesake.typeRef 4, namesake.typeRef 6] := by
  have htypes : (namesake.entry 8).types =
      [.ref (some (.ref none 1 [])) 4 [], .ref (some (.ref none 0 [])) 6 []] := by
    rfl
  have hnothing : namesake.typeRef 4 = .ref (some (.ref none 1 [])) 4 [] := by rfl
  have hclass : namesake.typeRef 6 = .ref (some (.ref none 0 [])) 6 [] := by rfl
  rw [htypes, hnothing, hclass]

theorem lt_of_class_namesake {c : SymbolId} (hc : namesake.kind c = .cls) : c < 9 :=
  size_namesake ▸ kind_lt_size fun h ↦ by cases hc.symm.trans h

theorem typeRef_obeys_namesake (s : SymbolId) :
    (namesake.typeRef s).Obeys namesake.defaultNodes :=
  applied_defaultNodes constructible_namesake.wellFormed.ownersPrecede s (by simp)

theorem types_obey_namesake (s : SymbolId) :
    ∀ t ∈ (namesake.entry s).types, t.Obeys namesake.defaultNodes := by
  intro t ht
  by_cases hs : s < 9
  · rcases (entries_namesake s hs).2.1 with hnone | rfl | rfl
    · rw [hnone] at ht
      cases ht
    · have hrefinement : (namesake.entry 7).types = [.refined [] []] := by rfl
      rw [hrefinement] at ht
      rw [List.mem_singleton.1 ht]
      exact .refined (by simp) (by simp) (by simp)
    · rw [types_namesake] at ht
      rcases List.mem_cons.1 ht with rfl | ht
      · exact typeRef_obeys_namesake 4
      · rw [List.mem_singleton.1 ht]
        exact typeRef_obeys_namesake 6
  · rw [entry_of_size_le _ (by rw [size_namesake]; exact Nat.le_of_not_lt hs)] at ht
    cases ht

/-- `C` is recorded to inherit from `D`, though it has no parents. -/
theorem namesake_unapplied :
    let u := namesake
    u.Constructible ∧
      (∀ c, u.kind c = .cls → ∃ o, (u.entry c).owner = some o ∧ u.kind o = .package) ∧
      (∀ s s', s < u.size → s' < u.size → u.fullName s = u.fullName s' → s = s') ∧
      (∀ c, u.kind c = .cls → (u.entry c).parents = []) ∧
      (∀ s, ∀ t ∈ (u.entry s).types, t.Obeys u.defaultNodes) ∧
      (u.typeRef 8).Obeys u.defaultNodes ∧ u.kind 5 = .cls ∧ u.isUniversal 5 = false ∧
      ∃ tag, Ends (fun n ↦ (u.makeTag n {} .empty (fun _ ↦ true) ⟨0, u.typeRef 8⟩).1) (some tag) ∧
        (u.bareName 5, u.bareName 6) ∈ tag.unapplied.edges ∧ ¬u.Inherited 5 6 := by
  intro u
  have hvalue : (u.tag 10 (u.typeRef 8)).value?.map
      (·.unapplied.edges.contains (u.bareName 5, u.bareName 6)) = some true := by decide +kernel
  obtain ⟨tag, htag, hedge⟩ := Option.map_eq_some_iff.1 hvalue
  have hparents {c : SymbolId} (hc : u.kind c = .cls) : (u.entry c).parents = [] :=
    ((entries_namesake c (lt_of_class_namesake hc)).1 hc).2
  refine ⟨constructible_namesake, fun c hc ↦ ?_, fun s s' hs hs' ↦ ?_, fun c hc ↦ hparents hc,
    types_obey_namesake, typeRef_obeys_namesake 8, by decide, by decide, tag,
    makeTag_ends_of_value? RootCache.Reached.empty.sound {} _ ⟨0, _⟩ htag, by simpa using hedge,
    fun hinherited ↦ ?_⟩
  · rcases ((entries_namesake c (lt_of_class_namesake hc)).1 hc).1 with ho | ho
    · exact ⟨0, ho, by decide⟩
    · exact ⟨1, ho, by decide⟩
  · rw [size_namesake] at hs hs'
    exact (entries_namesake s hs).2.2 s' hs'
  · have hnone : (u.entry 5).parents = [] := hparents (by decide)
    rcases hinherited.2.2.2.cases_head with heq | ⟨b, ⟨p, hp, -⟩, -⟩
    · cases heq
    · rw [hnone] at hp
      cases hp

end TypeTag.SymbolTable
