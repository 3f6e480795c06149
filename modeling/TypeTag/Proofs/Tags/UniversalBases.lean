import TypeTag.Proofs.SymbolTable.AncestorForms
import TypeTag.Proofs.SymbolTable.Chains
import TypeTag.Proofs.Tags.ClosedBases

namespace TypeTag

open Build (Ends value?_bind_iff outcome_eq_some_some_iff)

namespace Descriptor

def headName? : Descriptor → Option SymName
  | lambda _ b => b.symName?
  | d => d.symName?

variable {d : Descriptor} {m : SymName}

theorem headName?_of_symName? (h : d.symName? = some m) : d.headName? = some m := by
  cases d with
  | name n => exact h
  | full s as q => exact h
  | _ => cases h

theorem headName?_collapsed (h : d.headName? = some m) : d.collapsed.headName? = some m := by
  cases d with
  | lambda ps b =>
    unfold collapsed
    dsimp only [lambda?]
    split
    · exact h
    · exact headName?_of_symName? h
  | _ => exact h

end Descriptor

def universalNames : List String :=
  ["scala.Any", "scala.AnyRef", "scala.Nothing"]

def IsNumbered (s : String) : Prop :=
  s.toList.head?.any Char.isDigit = true

instance : DecidablePred IsNumbered :=
  fun _ ↦ inferInstanceAs (Decidable (_ = _))

def Bindings.Numbered (ρ : Bindings) : Prop :=
  ∀ x p, ρ.lookup x = some p → IsNumbered p

theorem isNumbered_toString_append (n : Nat) (s : String) : IsNumbered (toString n ++ s) := by
  cases hdigits : Nat.toDigits 10 n with
  | nil => exact absurd hdigits Nat.toDigits_ne_nil
  | cons c cs =>
    have hc : c.isDigit = true :=
      Nat.isDigit_of_mem_toDigits (b := 10) (by decide) (by decide) (hdigits ▸ List.mem_cons_self)
    simp [IsNumbered, hdigits, hc]

namespace SymbolTable

variable {u : SymbolTable} {n : Nat} {c : SymbolId} {t : Ty} {r : Recursion}
  {trail : Trail Measured} {ρ : Bindings} {d : Descriptor}

/-- A type with the symbol at its head, from without. -/
def HeadedBy (c : SymbolId) (t : Ty) : Prop :=
  (∃ q as, t = .ref q c as) ∨ ∃ q, t = .single q c

/-- The name of the symbol, or a placeholder for it. -/
def MayName (u : SymbolTable) (c : SymbolId) (m : SymName) : Prop :=
  m = u.symName c ∨ ∃ p, IsNumbered p ∧ m = .type p

theorem numbered_bindAll_placeholders {level : Nat} {params : List SymbolId} (hρ : ρ.Numbered) :
    (ρ.bindAll (u.placeholders level params)).Numbered := by
  intro x p h
  rcases Bindings.lookup_bindAll_eq_some h with h | h
  · simp only [placeholders, List.map_map, List.mem_map, Function.comp] at h
    obtain ⟨i, -, rfl⟩ := h
    rw [String.append_assoc]
    exact isNumbered_toString_append level _
  · exact hρ x p h

theorem numbered_of_stableBindings {own : Ty} (hown : u.stableBindings n t = some (ρ, own)) :
    ρ.Numbered := by
  intro x p h
  obtain ⟨d, -, hown⟩ := Option.map_eq_some_iff.1 hown
  cases hown
  rcases Bindings.lookup_bindAll_eq_some h with h | h
  · simp only [List.map_map, List.mem_map, Function.comp] at h
    obtain ⟨i, -, rfl⟩ := h
    rw [← String.append_empty (s := toString i.2)]
    exact isNumbered_toString_append _ ""
  · cases h

theorem IsClass.kind_ne (hc : u.IsClass c) : u.kind c ≠ .typeAlias ∧ u.kind c ≠ .term := by
  rcases hc with h | h | h <;> simp [h]

section Described

variable (hc : u.IsClass c) (ht : HeadedBy c t)

include ht

theorem HeadedBy.isPoly : t.isPoly = false := by
  rcases ht with ⟨q, as, rfl⟩ | ⟨q, rfl⟩ <;> rfl

include hc

theorem HeadedBy.dealias (n : Nat) : u.dealias n t = some t := by
  rcases ht with ⟨q, as, rfl⟩ | ⟨q, rfl⟩
  · exact dealias_of_kind_ne hc.kind_ne.1 n
  · exact dealias_single q c n

theorem HeadedBy.dealiasResult (n : Nat) : u.dealiasResult n t = some t := by
  have hd := ht.dealias hc n
  have hresult : t.resultType = t := by
    rcases ht with ⟨q, as, rfl⟩ | ⟨q, rfl⟩ <;> rfl
  rw [SymbolTable.dealiasResult, hd]
  show u.dealias n t.resultType = some t
  rw [hresult, hd]

theorem HeadedBy.nameOf {b : Boundaries Descriptor} {q : Option Descriptor}
    {m : NameRef Descriptor} (h : (u.nameOf r t b q).value? = some m) : m.name = u.symName c := by
  rcases ht with ⟨q', as, rfl⟩ | ⟨q', rfl⟩
  · cases h
    rfl
  · have hresolve : u.resolveTerm c = c := by
      refine resolveTerm_of_termAlias? ?_
      have hterm : (u.entry c).kind ≠ .term := hc.kind_ne.2
      unfold termAlias?
      dsimp only
      split
      · next hk _ => exact absurd hk hterm
      · rfl
    obtain ⟨m', hm', h⟩ := value?_bind_iff.1 h
    obtain ⟨q'', -, hm'⟩ := value?_bind_iff.1 hm'
    cases hm'
    cases h
    exact congrArg u.symName hresolve

theorem HeadedBy.etaExpand {result : Ty}
    (h : u.dealiasResult n (u.etaExpand t) = some result) :
    HeadedBy c result ∧ (result = t ∨ u.takesTypeArgs result = false) := by
  cases hargs : u.takesTypeArgs t with
  | false =>
    rw [etaExpand_of_not_takesTypeArgs hargs, ht.dealiasResult hc] at h
    cases h
    exact ⟨ht, .inl rfl⟩
  | true =>
    rcases ht with ⟨q, as, rfl⟩ | ⟨q, rfl⟩
    · cases as with
      | cons a as => cases hargs
      | nil =>
        have hparams : (u.entry c).typeParams.isEmpty = false := by
          simpa [takesTypeArgs, typeParams] using hargs
        have happlied (as : List Ty) := HeadedBy.dealias hc (.inl ⟨q, as, rfl⟩) n
        have hpoly : u.dealias n (.poly (u.entry c).typeParams
            (.ref q c ((u.entry c).typeParams.map u.typeRef))) = some _ :=
          dealias_of_aliasRedex?_eq_none rfl n
        simp only [SymbolTable.etaExpand, hparams, Bool.false_eq_true, if_false] at h
        rw [SymbolTable.dealiasResult, hpoly] at h
        cases (happlied _).symm.trans h
        refine ⟨.inl ⟨q, _, rfl⟩, .inr ?_⟩
        cases hps : (u.entry c).typeParams with
        | nil => simp [hps] at hparams
        | cons p ps => rfl
    · cases hargs

variable (hρ : ρ.Numbered)

include hρ

theorem HeadedBy.describeCut (h : (u.describeCut r trail ρ t).value? = some d) :
    ∃ m, d.symName? = some m ∧ u.MayName c m := by
  obtain ⟨p, hp, rfl⟩ | ⟨-, q, m, -, hm, rfl⟩ := describeCut_cases h
  · obtain ⟨s, -, hp⟩ := Option.bind_eq_some_iff.1 hp
    exact ⟨.type p, rfl, .inr ⟨p, hρ _ p hp, rfl⟩⟩
  · exact ⟨m.name, rfl, .inl (ht.nameOf hc hm)⟩

theorem HeadedBy.headName {q : Option Descriptor} {m : NameRef Descriptor}
    (h : (u.headName r trail ρ t q).value? = some m) : u.MayName c m.name := by
  obtain ⟨p, hp, rfl⟩ | ⟨-, b, -, hm⟩ := headName_cases h
  · obtain ⟨s, -, hp⟩ := Option.bind_eq_some_iff.1 hp
    exact .inr ⟨p, hρ _ p hp, rfl⟩
  · exact .inl (ht.nameOf hc hm)

theorem HeadedBy.describeNamed (h : (u.describeNamed n r trail ρ t).value? = some d) :
    ∃ m, d.symName? = some m ∧ u.MayName c m := by
  obtain ⟨e, q, m, he, -, hm, h⟩ := describeNamed_cases h
  obtain rfl : t = e := Option.some.inj ((ht.dealiasResult hc n).symm.trans he)
  have hname := ht.headName hc hρ hm
  obtain ⟨-, rfl⟩ | ⟨-, as, -, rfl⟩ := h <;> exact ⟨m.name, rfl, hname⟩

theorem HeadedBy.describeProper (h : (u.describeProper n r trail ρ t).value? = some d) :
    ∃ m, d.symName? = some m ∧ u.MayName c m := by
  have hrefined : t.isRefined = false := by
    rcases ht with ⟨q, as, rfl⟩ | ⟨q, rfl⟩ <;> rfl
  obtain ⟨p, e, hf, he, h⟩ | ⟨ps, ms, ds, hf, -⟩ := describeProper_cases h
  · cases eq_single_of_flatten (ht.dealias hc) hrefined hf
    rw [leaf, ht.dealias hc, ite_self] at he
    cases he
    exact ht.describeNamed hc hρ h
  · cases eq_single_of_flatten (ht.dealias hc) hrefined hf

theorem HeadedBy.nested (hargs : u.takesTypeArgs t = false)
    (h : (u.nested n trail ρ t).value? = some d) : ∃ m, d.symName? = some m ∧ u.MayName c m := by
  obtain ⟨m, rfl, h⟩ := nested_cases h
  obtain ⟨-, h⟩ | ⟨-, h⟩ := describeNested_cases h
  · exact ht.describeCut hc hρ h
  · obtain ⟨hgeneric, -⟩ | ⟨-, h⟩ := describe_cases h
    · simp [ht.isPoly, hargs] at hgeneric
    · exact ht.describeProper hc hρ h

theorem HeadedBy.describeAlone (force : Bool)
    (h : (u.describeAlone n ρ force t).value? = some d) :
    ∃ m, d.headName? = some m ∧ u.MayName c m := by
  cases force with
  | true =>
    obtain ⟨body, hbody, rfl⟩ := describe_force_value? h
    exact ht.describeProper hc hρ hbody
  | false =>
    obtain ⟨-, h⟩ | ⟨-, h⟩ := describe_cases h
    · -- the body is the class applied to its own parameters, which are bound further inside
      obtain ⟨result, body, hresult, hbody, rfl⟩ := describeLambda_value? h
      obtain ⟨hheaded, hcases⟩ := ht.etaExpand hc hresult
      have hnumbered : (ρ.bindAll (u.placeholders (Trail.empty.enter t.measured).level
          (u.typeParams (u.etaExpand t)))).Numbered := numbered_bindAll_placeholders hρ
      unfold describeBody at hbody
      split at hbody
      · exact hheaded.describeProper hc hnumbered hbody
      · next hne => exact hheaded.nested hc hnumbered (hcases.resolve_left hne) hbody
    · obtain ⟨m, hm, hname⟩ := ht.describeProper hc hρ h
      exact ⟨m, Descriptor.headName?_of_symName? hm, hname⟩

end Described

def BaseClass (u : SymbolTable) (t : Ty) (c : SymbolId) : Prop :=
  ∃ n d bases, u.dealiasResult n (u.etaExpand t) = some d ∧ u.baseClasses n d = some bases ∧
    c ∈ bases

theorem Climbs.isClass {k : Nat} {s : SymbolId} (h : u.Climbs c k s) : u.IsClass c := by
  induction h with
  | here hc => exact hc
  | up _ _ _ _ ih => exact ih

/-- The forms of a class are headed by it, but for the type that a refinement stands for. -/
theorem headedBy_of_findBase {visiting : List SymbolId} {f : Ty}
    (h : u.findBase c n visiting t = some (some f)) :
    HeadedBy c f ∨ (u.kind c = .refinement ∧ (u.entry c).body = some f) := by
  rcases findBase_form h with ⟨q, as, rfl⟩ | ⟨q, rfl⟩ | rfl
  · exact .inl (.inl ⟨q, as, rfl⟩)
  · exact .inl (.inr ⟨q, rfl⟩)
  · unfold symbolType
    dsimp only
    split
    · next hk =>
      cases hbody : (u.entry c).body with
      | none => exact .inl (.inl ⟨_, _, rfl⟩)
      | some b => exact .inr ⟨hk, rfl⟩
    · exact .inl (.inl ⟨_, _, rfl⟩)

theorem exists_baseClass {own f : Ty} {forms : List Ty} (h : u.ancestors n own = some forms)
    (hf : f ∈ forms) : ∃ c, u.BaseClass own c ∧ u.IsClass c ∧ u.isUniversal c = false ∧
      (HeadedBy c f ∨ (u.kind c = .refinement ∧ (u.entry c).body = some f)) := by
  obtain ⟨d, bases, hd, hbases, -, hforms⟩ := ancestors_eq_some h
  obtain ⟨-, c, hc, huniversal, -, hbase⟩ := (hforms f).1 hf
  obtain ⟨_, _, _, -, -, hclimbs⟩ := (mem_baseClasses_iff huniversal hbases).1 hc
  exact ⟨c, ⟨n, d, bases, hd, hbases, hc⟩, hclimbs.isClass, huniversal,
    headedBy_of_findBase ((baseType_eq_some_iff huniversal).1 hbase)⟩

/-- How a class that is not universal may still be described by a universal name: as a member of a
refinement, named without its owner, or as the type that a refinement stands for. -/
inductive Disguised (u : SymbolTable) (c : SymbolId) (ρ : Bindings) (parent : Descriptor) : Prop
  | member (owner : (u.entry c).owner.any u.isTransparent = true)
    (name : (u.entry c).name ∈ universalNames) (head : parent.headName? = some (u.symName c))
  | refinement {n : Nat} {b : Ty} {d : Descriptor} (kind : u.kind c = .refinement)
    (body : (u.entry c).body = some b)
    (described : (u.describeAlone n ρ (!ρ.isEmpty) b).value? = some d)
    (collapsed : parent = d.collapsed)

/-- A class with a name of its own has a universal one only as a member of a refinement. -/
theorem MayName.eq_of_universal {m : SymName} (h : u.MayName c m)
    (hname : u.fullName c ∉ universalNames) (hm : m.text ∈ universalNames) :
    m = u.symName c ∧ (u.entry c).owner.any u.isTransparent = true ∧
      (u.entry c).name ∈ universalNames := by
  have hnumbered : ∀ p ∈ universalNames, ¬IsNumbered p := by decide
  rcases h with rfl | ⟨p, hp, rfl⟩
  · have htext : (u.symName c).text =
        if (u.entry c).owner.any u.isTransparent then (u.entry c).name else u.fullName c := by
      unfold symName
      dsimp only
      split <;> rfl
    rw [htext] at hm
    split at hm
    · next howner => exact ⟨rfl, howner, hm⟩
    · exact absurd hm hname
  · exact absurd hp (hnumbered p hm)

/-- Where no class but the universal ones has a universal name, no edge of a tag leads to such a
name, unless a class that the component inherits from is disguised. -/
theorem stableBases_not_universal {c : RootCache} (hc : c.Reached u)
    (hnames : ∀ s < u.size, u.isUniversal s = false → u.fullName s ∉ universalNames)
    {config : Config} {alive : ObjectId → Bool} {k : Handle Ty} {tag : Tag}
    (hend : Ends (fun n ↦ (u.makeTag n config c alive k).1) (some tag)) {child parent : Descriptor}
    (he : (child, parent) ∈ tag.stableBases.edges) :
    (∀ m ∈ parent.headName?, m.text ∉ universalNames) ∨
      ∃ t ρ own s, u.Component k.value t ∧ (∃ n, u.stableBindings n t = some (ρ, own)) ∧
        u.BaseClass own s ∧ u.isUniversal s = false ∧ u.Disguised s ρ parent := by
  obtain ⟨n, hn⟩ := (makeTag_ends_iff hc.sound config alive k).1 hend
  obtain ⟨-, ts, cs, -, -, hts, hcs, hstable, -⟩ :=
    tag_value? (outcome_eq_some_some_iff.1 (hn n (Nat.le_refl n)))
  obtain ⟨t, ht, es, hes, he⟩ := exists_of_mem_stableBases hstable he
  obtain ⟨ρ, own, bases, base, d, hown, -, hbases, hbase, hd, rfl⟩ := stableEdges_value? hes he
  obtain ⟨s, hs, hclass, huniversal, hform⟩ := exists_baseClass hbases hbase
  have hcomponent : u.Component k.value t := ⟨n, ts, cs, hts, hcs, ht⟩
  rcases hform with hheaded | ⟨hkind, hbody⟩
  · obtain ⟨m, hm, hname⟩ :=
      hheaded.describeAlone hclass (numbered_of_stableBindings hown) _ hd
    have hfull : u.fullName s ∉ universalNames := by
      refine hnames s (kind_lt_size ?_) huniversal
      rcases hclass with h | h | h <;> simp [h]
    have hparent := Descriptor.headName?_collapsed hm
    by_cases hmember : m.text ∈ universalNames
    · obtain ⟨heq, howner, hsimple⟩ := hname.eq_of_universal hfull hmember
      exact .inr ⟨t, ρ, own, s, hcomponent, ⟨n, hown⟩, hs, huniversal,
        .member howner hsimple (heq ▸ hparent)⟩
    · left
      intro m' hm'
      rwa [Option.some.inj (hm'.symm.trans hparent)]
  · exact .inr ⟨t, ρ, own, s, hcomponent, ⟨n, hown⟩, hs, huniversal,
      .refinement hkind hbody hd rfl⟩

theorem pairs_stableBases_not_universal :
    let u := pairs
    ∃ tag, Ends (fun n ↦ (u.makeTag n {} .empty (fun _ ↦ true) ⟨0, u.typeRef 9⟩).1) (some tag) ∧
      tag.stableBases.edges ≠ [] ∧
      (∀ s < u.size, u.isUniversal s = false → u.fullName s ∉ universalNames) ∧
      ∀ e ∈ tag.stableBases.edges, ∀ m ∈ e.2.headName?, m.text ∉ universalNames := by
  intro u
  obtain ⟨hvalue, hnames, hkinds⟩ :
      (u.tag 10 (u.typeRef 9)).value?.any (fun tag ↦ !tag.stableBases.edges.isEmpty) = true ∧
      (∀ s : Nat, s < u.size → u.isUniversal s = false → u.fullName s ∉ universalNames) ∧
      ∀ s : Nat, s < u.size → u.kind s ≠ .refinement ∧
        (u.entry s).owner.any u.isTransparent = false := by decide +kernel
  obtain ⟨tag, htag, hedges⟩ := (Option.any_eq_true _ _).1 hvalue
  have hend := makeTag_ends_of_value? (RootCache.Reached.empty.sound (u := u)) {} (fun _ ↦ true)
    ⟨0, _⟩ htag
  have hplain (s : SymbolId) : u.kind s ≠ .refinement ∧
      (u.entry s).owner.any u.isTransparent = false := by
    by_cases hs : s < u.size
    · exact hkinds s hs
    · rw [kind, u.entry_of_size_le (Nat.le_of_not_lt hs)]
      exact ⟨by decide, rfl⟩
  refine ⟨tag, hend, by simpa using hedges, hnames, fun e he ↦ ?_⟩
  refine (stableBases_not_universal .empty hnames hend he).resolve_right fun h ↦ ?_
  obtain ⟨_, _, _, s, -, -, -, -, hdisguised⟩ := h
  cases hdisguised with
  | member owner =>
    rw [(hplain s).2] at owner
    cases owner
  | refinement kind => exact (hplain s).1 kind

/-- The class `D`, whose parent is the class behind the refinement type of `AnyRef` alone. -/
def refinedAnyRef : SymbolTable :=
  let (r, u) := initial.refinement 1 (.refined [initial.anyRefType] [])
  let (d, u) := u.cls 1 "D"
  u.setParents d [.self r]

theorem constructible_refinedAnyRef : refinedAnyRef.Constructible := by
  refine .step (.step (.step .initial (.refinement 1 _ ?_ ?_)) (.cls 1 "D" ?_))
    (.setParents 6 _ ?_ ?_)
  all_goals first
    | decide
    | exact fun s hs ↦ (by decide : ∀ s ∈ _, s < _) s hs
    | exact fun t ht s hs ↦ (by decide : ∀ t ∈ _, ∀ s ∈ t.symbols, s < _) t ht s hs

/-- That class is not universal, but the type that it stands for has the name of one. -/
theorem refinedAnyRef_stableBases :
    let u := refinedAnyRef
    u.Constructible ∧ (∀ s < u.size, u.isUniversal s = false → u.fullName s ∉ universalNames) ∧
      ∃ tag, Ends (fun n ↦ (u.makeTag n {} .empty (fun _ ↦ true) ⟨0, u.typeRef 6⟩).1) (some tag) ∧
        (tag.reference, Descriptor.typeName "scala.AnyRef") ∈ tag.stableBases.edges := by
  intro u
  obtain ⟨hnames, hvalue⟩ :
      (∀ s : Nat, s < u.size → u.isUniversal s = false → u.fullName s ∉ universalNames) ∧
      (u.tag 10 (u.typeRef 6)).value?.any (fun tag ↦
        (tag.reference, Descriptor.typeName "scala.AnyRef") ∈ tag.stableBases.edges) = true := by
    decide +kernel
  obtain ⟨tag, htag, hedge⟩ := (Option.any_eq_true _ _).1 hvalue
  exact ⟨constructible_refinedAnyRef, hnames, tag,
    makeTag_ends_of_value? (RootCache.Reached.empty.sound (u := u)) {} (fun _ ↦ true) ⟨0, _⟩ htag,
    of_decide_eq_true hedge⟩

end SymbolTable

end TypeTag
