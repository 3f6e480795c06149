import TypeTag.Proofs.Builds.Scopes
import TypeTag.Proofs.Tags.Caching

namespace TypeTag

open Build (Ends value?_bind_iff value?_lift_iff outcome_eq_some_some_iff)

def IsPlaceholder (s : String) : Prop :=
  ∃ level i : Nat, s = toString level ++ ":" ++ toString i

theorem IsPlaceholder.colon_mem {s : String} (h : IsPlaceholder s) : ':' ∈ s.toList := by
  obtain ⟨level, i, rfl⟩ := h
  simp

namespace Bindings

variable {ρ : Bindings} {x : String}

/-- A name is bound, and names are only bound to placeholders. -/
structure Binds (ρ : Bindings) (x : String) : Prop where
  bound : ∃ e ∈ ρ, e.1 = x
  placeholders : ∀ e ∈ ρ, IsPlaceholder e.2

theorem placeholders_bind (h : ∀ e ∈ ρ, IsPlaceholder e.2) {y p : String} (hp : IsPlaceholder p) :
    ∀ e ∈ ρ.bind y p, IsPlaceholder e.2 := by
  intro e he
  unfold bind at he
  split at he
  · obtain ⟨e', he', rfl⟩ := List.mem_map.1 he
    split
    · exact hp
    · exact h e' he'
  · rcases List.mem_append.1 he with he | he
    · exact h e he
    · rw [List.mem_singleton.1 he]
      exact hp

theorem bound_bind {y p : String} (h : y = x ∨ ∃ e ∈ ρ, e.1 = x) : ∃ e ∈ ρ.bind y p, e.1 = x := by
  unfold bind
  split
  · next hany =>
    obtain ⟨e, he, rfl⟩ : ∃ e ∈ ρ, e.1 = x := by
      rcases h with rfl | h
      · simpa using hany
      · exact h
    refine ⟨_, List.mem_map_of_mem he, ?_⟩
    split
    · next heq => exact (eq_of_beq heq).symm
    · rfl
  · rcases h with rfl | ⟨e, he, hx⟩
    · exact ⟨_, List.mem_append_right _ (List.mem_singleton_self _), rfl⟩
    · exact ⟨e, List.mem_append_left _ he, hx⟩

theorem binds_bindAll {bs : List (String × String)} (hbs : ∀ b ∈ bs, IsPlaceholder b.2)
    (hρ : ∀ e ∈ ρ, IsPlaceholder e.2) (h : (∃ b ∈ bs, b.1 = x) ∨ ∃ e ∈ ρ, e.1 = x) :
    (ρ.bindAll bs).Binds x := by
  induction bs generalizing ρ with
  | nil =>
    refine ⟨h.resolve_left ?_, hρ⟩
    rintro ⟨b, hb, -⟩
    cases hb
  | cons b bs ih =>
    refine ih (fun c hc ↦ hbs c (List.mem_cons_of_mem b hc))
      (placeholders_bind hρ (hbs b List.mem_cons_self)) ?_
    rcases h with ⟨c, hc, hx⟩ | h
    · rcases List.mem_cons.1 hc with rfl | hc
      · exact .inr (bound_bind (.inl hx))
      · exact .inl ⟨c, hc, hx⟩
    · exact .inr (bound_bind (.inr h))

end Bindings

namespace SymbolTable

def PathOmits (u : SymbolTable) (x : String) (s : SymbolId) : Prop :=
  ∀ m, Ends (fun n ↦ u.termName (u.recursion n) s) (some m) → x ∉ (Descriptor.name m).typeNames

def withoutName (u : SymbolTable) (x : String) : Ty.Rules where
  term := u.PathOmits x
  typeMember n := n ≠ x

/-- A name that only the parameters of type functions can bring into a descriptor. -/
structure Reserves (u : SymbolTable) (x : String) : Prop where
  placeholder : ¬IsPlaceholder x
  types : ∀ s, ∀ t ∈ (u.entry s).types, t.Obeys (u.withoutName x)
  qualifiers : ∀ s, ∀ q ∈ u.defaultQualifier s, q.Obeys (u.withoutName x)
  inner : ∀ s o, (u.entry s).owner = some o → u.isTransparent o = true → (u.entry s).name ≠ x

theorem Reserves.table {u : SymbolTable} {x : String} (h : u.Reserves x) :
    u.Obeys (u.withoutName x) where
  stable := fun _ _ _ ↦ trivial
  types := h.types
  params := fun _ _ _ ↦ trivial
  qualified := fun _ ↦ trivial
  qualifier := h.qualifiers

theorem isPlaceholder_placeholders (u : SymbolTable) (level : Nat) (params : List SymbolId) :
    ∀ b ∈ u.placeholders level params, IsPlaceholder b.2 := by
  intro b hb
  obtain ⟨⟨p, i⟩, -, rfl⟩ := List.mem_map.1 hb
  exact ⟨level, i, rfl⟩

section Omits

variable {u : SymbolTable} {x : String} (hx : u.Reserves x) {ρ : Bindings} (hρ : ρ.Binds x)

include hx hρ

theorem Reserves.ne_of_namedUnder {s : SymName} (h : u.NamedUnder (u.withoutName x) ρ s) :
    s ≠ .type x := by
  cases h with
  | literal v => nofun
  | symbol s h =>
    have hne : u.fullName s ≠ x := by
      obtain ⟨e, he, rfl⟩ := hρ.bound
      simpa using List.lookup_eq_none_iff.1 h e he
    unfold symName
    dsimp only
    split
    · simp
    · split
      · next hany =>
        obtain ⟨o, ho, htransparent⟩ := (Option.any_eq_true _ _).1 hany
        simpa using hx.inner s o ho htransparent
      · simpa using hne
  | placeholder h =>
    rintro ⟨rfl⟩
    obtain ⟨l, l', rfl, -⟩ := List.lookup_eq_some_iff.1 h
    exact hx.placeholder (hρ.placeholders _ (List.mem_append_right l List.mem_cons_self))
  | typeMember h =>
    rintro ⟨rfl⟩
    exact h rfl

/-- Where the name is bound, what is described omits it; and so do the paths to terms, as far as
only those that omit it are in the types. -/
theorem Reserves.omits_of_scoped {k : Nat} {d : Descriptor}
    (h : u.Scoped (u.withoutName x) k ρ d) : d.Omits x := by
  induction h with
  | plain _ named _ ih =>
    refine Descriptor.omits_iff.2 ⟨fun h ↦ ?_, fun e he ↦ ih e he hρ⟩
    exact hx.ne_of_namedUnder hρ (named _ h) rfl
  | @path k ρ s m b term isPath _ ih =>
    obtain ⟨hname, hparts⟩ : (Descriptor.name m).symName? ≠ _ ∧ ∀ e ∈ m.types, e.Omits x :=
      Descriptor.omits_iff.1 fun hmem ↦ term m isPath (Descriptor.mem_typeNames_iff.2 hmem)
    refine Descriptor.omits_iff.2 ⟨hname, fun e he ↦ ?_⟩
    rcases List.mem_append.1 he with hb | hq
    · exact ih e hb hρ
    · exact hparts e (List.mem_append_right _ hq)
  | @lambda k level ρ params body _ _ ih =>
    refine Descriptor.omits_iff.2 ⟨nofun, fun e he ↦ ?_⟩
    rw [List.mem_singleton.1 he]
    exact ih (Bindings.binds_bindAll (isPlaceholder_placeholders u level params) hρ.placeholders
      (.inr hρ.bound))

end Omits

variable {u : SymbolTable} {x : String}

section Placeholder

variable {n : Nat} {r : Recursion} {trail : Trail Measured} {ρ : Bindings} {t : Ty} {d : Descriptor}

theorem describeNamed_placeholder (hx : u.placeholder? ρ t = some x)
    (ht : u.dealiasResult n t = some t) (h : (u.describeNamed n r trail ρ t).value? = some d) :
    d.symName? = some (.type x) := by
  obtain ⟨e, q, m, he, -, hm, h⟩ := describeNamed_cases h
  cases ht.symm.trans he
  obtain ⟨y, hy, rfl⟩ | ⟨hfree, -⟩ := headName_cases hm
  · cases hx.symm.trans hy
    obtain ⟨-, rfl⟩ | ⟨-, as, -, rfl⟩ := h <;> rfl
  · cases hx.symm.trans hfree

theorem describeProper_placeholder (hx : u.placeholder? ρ t = some x)
    (hrefined : t.isRefined = false) (hresult : t.resultType = t) (ht : ∀ n, u.dealias n t = some t)
    (h : (u.describeProper n r trail ρ t).value? = some d) : d.symName? = some (.type x) := by
  obtain ⟨p, e, hf, he, h⟩ | ⟨ps, ms, ds, hf, -⟩ := describeProper_cases h
  · cases eq_single_of_flatten ht hrefined hf
    rw [leaf, ht, ite_self] at he
    cases he
    exact describeNamed_placeholder hx (by simp [dealiasResult, ht, hresult]) h
  · cases eq_single_of_flatten ht hrefined hf

theorem nested_placeholder {q : Option Ty} {p : SymbolId} {as : List Ty}
    (hp : u.kind p = .typeParam) (hlookup : ρ.lookup (u.fullName p) = some x)
    (h : (u.nested n trail ρ (.ref q p as)).value? = some d) : d.symName? = some (.type x) := by
  have hplaceholder : u.placeholder? ρ (.ref q p as) = some x := hlookup
  obtain ⟨m, rfl, h⟩ := nested_cases h
  obtain ⟨-, h⟩ | ⟨-, h⟩ := describeNested_cases h
  · obtain ⟨y, hy, rfl⟩ | ⟨hfree, -⟩ := describeCut_cases h
    · cases hplaceholder.symm.trans hy
      rfl
    · cases hplaceholder.symm.trans hfree
  · obtain ⟨hgeneric, -⟩ | ⟨-, h⟩ := describe_cases h
    · simp [Ty.isPoly, hplaceholder] at hgeneric
    · exact describeProper_placeholder hplaceholder rfl rfl
        (fun n ↦ dealias_of_kind_ne (by simp [hp]) n) h

end Placeholder

/-- The body of a type function mentions none of its parameters by name, but has their placeholders
wherever they are referred to, provided that nothing else has such a name and that no path of a
singleton type mentions it; for these paths are described as if the parameters were not bound. -/
theorem bound_not_mentioned {c : RootCache} (hc : c.Reached u) {config : Config}
    {alive : ObjectId → Bool} {k : Handle Ty} {params : List String} {body : Descriptor}
    (hend : Ends (fun n ↦ (u.makeDescriptor n config c alive k).1) (some (.lambda params body)))
    {n : Nat} {d : Ty} (hd : u.dealias n k.value = some d)
    (hgeneric : d.isPoly = true ∨ u.takesTypeArgs d = true) {p : SymbolId} (hp : p ∈ u.typeParams d)
    (hx : u.Reserves (u.fullName p)) (ht : k.value.Obeys (u.withoutName (u.fullName p))) :
    u.fullName p ∉ body.typeNames ∧
      (u.kind p = .typeParam → ∀ n trail ρ x q as e, ρ.lookup (u.fullName p) = some x →
        (u.nested n trail ρ (.ref q p as)).value? = some e → e.symName? = some (.type x)) := by
  refine ⟨?_, fun hk n trail ρ x q as e hlookup he ↦ nested_placeholder hk hlookup he⟩
  obtain ⟨m, hm⟩ := (makeDescriptor_ends_iff hc.sound config alive k).1 hend
  obtain ⟨d', hd', hm⟩ := value?_bind_iff.1 (outcome_eq_some_some_iff.1 (hm m (Nat.le_refl m)))
  obtain rfl := dealias_unique hd (value?_lift_iff.1 hd')
  obtain ⟨-, -, hm⟩ := value?_bind_iff.1 hm
  rw [if_neg Bool.false_ne_true, placeholder?_nil, if_pos (by simpa using hgeneric)] at hm
  obtain ⟨result, body', hresult, hbody, heq⟩ := describeLambda_value? hm
  obtain ⟨-, rfl⟩ := Descriptor.lambda.inj heq
  have hbound : (Bindings.bindAll [] (u.placeholders 0 (u.typeParams (u.etaExpand d)))).Binds
      (u.fullName p) := by
    refine Bindings.binds_bindAll (isPlaceholder_placeholders u _ _) (fun _ h ↦ nomatch h) (.inl ?_)
    rw [typeParams_etaExpand]
    obtain ⟨i, hi⟩ := List.mem_iff_getElem?.1 hp
    exact ⟨_, List.mem_map.2 ⟨(p, i), List.mem_zipIdx_iff_getElem?.2 hi, rfl⟩, rfl⟩
  have hd := hx.table.etaExpand (hx.table.keeps.dealias ht hd)
  have hbody := describeBody_scoped hx.table (hx.table.scoping m)
    (hx.table.keeps.dealiasResult hd hresult) hbody
  exact fun hmem ↦ hx.omits_of_scoped hbound hbody (Descriptor.mem_typeNames_iff.1 hmem)

def boxAndObject : SymbolTable :=
  let (box, u) := initial.cls 1 "Box"
  let (_, u) := u.typeParam box "A" .covariant
  (u.object 1 "O").2

theorem entry_boxAndObject (s : Nat) : (boxAndObject.entry s).types = [] ∧
    (boxAndObject.entry s).owner.any boxAndObject.isTransparent = false := by
  have hentries : ∀ s : Nat, s < boxAndObject.size → (boxAndObject.entry s).types = [] ∧
      (boxAndObject.entry s).owner.any boxAndObject.isTransparent = false := by
    decide
  by_cases hs : s < boxAndObject.size
  · exact hentries s hs
  · rw [entry_of_size_le _ (Nat.le_of_not_lt hs)]
    exact ⟨rfl, rfl⟩

theorem qualifiers_boxAndObject (s : SymbolId) : ∀ q ∈ boxAndObject.defaultQualifier s,
    q.Obeys (boxAndObject.withoutName (boxAndObject.fullName 6)) := by
  obtain ⟨hterm, hpath⟩ :
      (∀ s : Nat, s < boxAndObject.size → boxAndObject.isTerm s = true → s = 7) ∧
      (boxAndObject.termName (boxAndObject.recursion 10) 7).value?.map (fun m ↦
        (Descriptor.name m).typeNames.contains (boxAndObject.fullName 6)) = some false := by
    decide
  refine defaultQualifier_obeys (fun _ _ ↦ trivial) (fun s hs m hm ↦ ?_) s
  have hk : boxAndObject.kind s ≠ .package := by
    intro hk
    simp [isTerm, hk] at hs
  obtain rfl := hterm s (kind_lt_size hk) hs
  obtain ⟨m', hm', hnot⟩ := Option.map_eq_some_iff.1 hpath
  have hm' := (steady_termName 7).ends (outcome_eq_some_some_iff.2 hm')
  obtain rfl := Option.some.inj (hm.unique hm')
  simpa using hnot

theorem reserves_boxAndObject : boxAndObject.Reserves (boxAndObject.fullName 6) where
  placeholder := fun h ↦ absurd (IsPlaceholder.colon_mem h) (by decide)
  types := fun s t ht ↦ by
    rw [(entry_boxAndObject s).1] at ht
    cases ht
  qualifiers := qualifiers_boxAndObject
  inner := fun s o ho htransparent ↦ by
    have hnot := (entry_boxAndObject s).2
    rw [ho, Option.any_some, htransparent] at hnot
    cases hnot

theorem box_bound_not_mentioned :
    let u := boxAndObject
    ∃ params body, Ends (fun n ↦ (u.makeDescriptor n {} .empty (fun _ ↦ true) ⟨0, u.typeRef 5⟩).1)
        (some (.lambda params body)) ∧ u.fullName 6 ∉ body.typeNames := by
  intro u
  obtain ⟨hsome, hd, hp⟩ :
      ((u.rootDescriptor 10 (u.typeRef 5)).value?.bind Descriptor.lambda?).isSome = true ∧
      u.dealias 0 (u.typeRef 5) = some (u.typeRef 5) ∧ 6 ∈ u.typeParams (u.typeRef 5) := by
    decide +kernel
  obtain ⟨l, hl⟩ := Option.isSome_iff_exists.1 hsome
  obtain ⟨d, hvalue, hl⟩ := Option.bind_eq_some_iff.1 hl
  obtain rfl := Descriptor.lambda?_eq_some_iff.1 hl
  have hends := makeDescriptor_ends_of_value? (RootCache.Reached.empty.sound (u := u)) {}
    (fun _ ↦ true) ⟨0, _⟩ hvalue
  have hobeys : (u.typeRef 5).Obeys (u.withoutName (u.fullName 6)) :=
    .ref trivial (qualifiers_boxAndObject 5) fun _ h ↦ nomatch h
  have hgeneric : (u.typeRef 5).isPoly = true ∨ u.takesTypeArgs (u.typeRef 5) = true :=
    .inr (by decide)
  exact ⟨l.params, l.body, hends,
    (bound_not_mentioned .empty hends hd hgeneric hp reserves_boxAndObject hobeys).1⟩

/-- The classes `Box[A]` and `Outer[T]` and, within the latter, the term `x`. -/
def termWithin : SymbolTable :=
  let (box, u) := initial.cls 1 "Box"
  let (_, u) := u.typeParam box "A" .covariant
  let (outer, u) := u.cls 1 "Outer"
  let (_, u) := u.typeParam outer "T" .invariant
  (u.term outer "x" none).2

/-- The function of `T` that returns `Box[x.type]` mentions `T` in the path to `x`. -/
theorem termWithin_mentions_bound :
    let u := termWithin
    (∀ s s' : Nat, s < u.size → s' < u.size → u.fullName s = u.fullName s' → s = s') ∧
      ∃ params body, Ends (fun n ↦ (u.makeDescriptor n {} .empty (fun _ ↦ true)
          ⟨0, .poly [8] (u.applied 5 [u.single 9])⟩).1) (some (.lambda params body)) ∧
        u.fullName 8 ∈ body.typeNames := by
  intro u
  obtain ⟨hdistinct, hvalue⟩ :
      (∀ s : Nat, s < u.size → ∀ s' : Nat, s' < u.size → u.fullName s = u.fullName s' → s = s') ∧
      ((u.rootDescriptor 10 (.poly [8] (u.applied 5 [u.single 9]))).value?.bind
        Descriptor.lambda?).map (·.body.typeNames.contains (u.fullName 8)) = some true := by
    decide +kernel
  obtain ⟨l, hl, hmem⟩ := Option.map_eq_some_iff.1 hvalue
  obtain ⟨d, hd, hl⟩ := Option.bind_eq_some_iff.1 hl
  obtain rfl := Descriptor.lambda?_eq_some_iff.1 hl
  refine ⟨fun s s' hs hs' ↦ hdistinct s hs s' hs', l.params, l.body, ?_, by simpa using hmem⟩
  exact makeDescriptor_ends_of_value? RootCache.Reached.empty.sound {} _ ⟨0, _⟩ hd

end SymbolTable

end TypeTag
