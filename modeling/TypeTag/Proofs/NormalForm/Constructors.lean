import TypeTag.Proofs.Descriptor.Order
import TypeTag.Proofs.NormalForm.Descriptor
import TypeTag.Proofs.SymbolTable.EtaExpansion

namespace TypeTag

open Build (Ends value?_bind_iff value?_lift_iff outcome_eq_some_some_iff)

namespace Descriptor

def plugging : Algebra ((String → Option Descriptor) → Descriptor) where
  name n σ :=
    match n.name with
    | .type x => (σ x).getD (.name (n.map (· σ)))
    | _ => .name (n.map (· σ))
  full s as q σ := .full s (as.map (TypeArg.map (· σ))) (q.map (· σ))
  lambda ps b σ := .lambda ps (b fun x ↦ if ps.contains x then none else σ x)
  intersection ps σ := .intersection (SortedSet.ofList (ps.map (· σ)))
  refinement p ds σ := .refinement (p σ) (SortedSet.ofList (ds.map (Decl.map (· σ))))

/-- The descriptor with the free type names that `σ` knows replaced by what they stand for there. A
name that is applied itself stays. -/
def plug (d : Descriptor) (σ : String → Option Descriptor) : Descriptor :=
  d.fold plugging σ

variable {σ : String → Option Descriptor}

theorem plug_typeName {x : String} {e : Descriptor} (h : σ x = some e) :
    (typeName x).plug σ = e := by
  simp [plug, typeName, plugging, NameRef.map, h]

theorem plug_name {s : SymName} (h : ∀ x, s = .type x → σ x = none) :
    (name { name := s }).plug σ = name { name := s } := by
  cases s with
  | type x => simp [plug, plugging, NameRef.map, Boundaries.map, h x rfl]
  | _ => simp [plug, plugging, NameRef.map, Boundaries.map]

theorem plug_full (s : SymName) (as : List (TypeArg Descriptor)) :
    (full s as none).plug σ = full s (as.map (TypeArg.map (·.plug σ))) none := by
  simp [plug, plugging, TypeArg.map]

end Descriptor

namespace Bindings

theorem lookup_eq_some_of_nodup {α : Type} {l : List (String × α)} (h : (l.map (·.1)).Nodup)
    {k : String} {a : α} (hmem : (k, a) ∈ l) : l.lookup k = some a := by
  induction l with
  | nil => cases hmem
  | cons e l ih =>
    obtain ⟨hnot, hl⟩ := List.nodup_cons.1 h
    rcases List.mem_cons.1 hmem with rfl | hmem
    · simp
    · have hne : k ≠ e.1 := fun heq ↦ hnot (List.mem_map.2 ⟨_, hmem, heq⟩)
      rw [List.lookup_cons, beq_eq_false_iff_ne.2 hne]
      exact ih hl hmem

theorem lookup_zip {α : Type} {ks : List String} {as : List α} (h : ks.Nodup)
    (hlen : ks.length ≤ as.length) {i : Nat} {k : String} {a : α} (hk : ks[i]? = some k)
    (ha : as[i]? = some a) : (ks.zip as).lookup k = some a := by
  refine lookup_eq_some_of_nodup ?_ (List.mem_of_getElem? (i := i) ?_)
  · rwa [List.map_fst_zip hlen]
  · exact List.getElem?_zip_eq_some.2 ⟨hk, ha⟩

theorem bindAll_of_nodup {ρ : Bindings} {bs : List (String × String)}
    (h : ((ρ ++ bs).map (·.1)).Nodup) : ρ.bindAll bs = ρ ++ bs := by
  induction bs generalizing ρ with
  | nil => simp [bindAll]
  | cons b bs ih =>
    have hnew : ρ.any (·.1 == b.1) = false := by
      rw [Bool.eq_false_iff, Ne, List.any_eq_true]
      rintro ⟨e, he, heq⟩
      rw [List.map_append] at h
      exact List.disjoint_of_nodup_append h (List.mem_map_of_mem he)
        (by simpa using .inl (eq_of_beq heq))
    have hbind : ρ.bind b.1 b.2 = ρ ++ [b] := by
      rw [bind, if_neg (by simp [hnew])]
    calc ρ.bindAll (b :: bs) = (ρ ++ [b]).bindAll bs := by rw [← hbind]; rfl
      _ = ρ ++ [b] ++ bs := ih (by simpa using h)
      _ = ρ ++ b :: bs := by simp

end Bindings

def places (n : Nat) : List String :=
  (List.range n).map fun i ↦ "0:" ++ toString i

theorem length_places (n : Nat) : (places n).length = n := by
  simp [places]

theorem place_injective : Function.Injective fun i : Nat ↦ "0:" ++ toString i := by
  intro i j h
  have hdigits : Nat.toDigits 10 i = Nat.toDigits 10 j := by
    have hlist := congrArg String.toList h
    simp only [String.toList_append, Nat.toString_eq_ofList_toDigits, String.toList_ofList] at hlist
    exact List.append_cancel_left hlist
  rw [← Nat.ofDigitChars_ten_toDigits (n := i), hdigits, Nat.ofDigitChars_ten_toDigits]

theorem nodup_places (n : Nat) : (places n).Nodup :=
  List.nodup_range.map place_injective

theorem head?_of_mem_places {n : Nat} {x : String} (h : x ∈ places n) :
    x.toList.head? = some '0' := by
  obtain ⟨i, -, rfl⟩ := List.mem_map.1 h
  rw [String.toList_append]
  rfl

namespace SymbolTable

variable {u : SymbolTable}

theorem placeholders_zero (u : SymbolTable) (ps : List SymbolId) :
    u.placeholders 0 ps = (ps.map u.fullName).zip (places ps.length) := by
  rw [placeholders, List.zipIdx_eq_zip_range', places, List.range_eq_range', List.zip_map]
  rfl

theorem map_fst_placeholders (u : SymbolTable) (ps : List SymbolId) :
    (u.placeholders 0 ps).map (·.1) = ps.map u.fullName := by
  rw [placeholders_zero, List.map_fst_zip (by simp [length_places])]

theorem map_snd_placeholders (u : SymbolTable) (ps : List SymbolId) :
    (u.placeholders 0 ps).map (·.2) = places ps.length := by
  rw [placeholders_zero, List.map_snd_zip (by simp [length_places])]

section Plug

variable {D : SymbolId → Prop} {ρ : Bindings} {σ : String → Option Descriptor}

theorem exists_of_forall₂ {P Q S : Ty → Ty → Prop} {l l' : List Ty}
    (h : List.Forall₂ (fun t t' ↦ ∃ e f, P t e ∧ Q t' f ∧ S e f) l l') :
    ∃ es fs, List.Forall₂ P l es ∧ List.Forall₂ Q l' fs ∧ List.Forall₂ S es fs := by
  induction h with
  | nil => exact ⟨[], [], .nil, .nil, .nil⟩
  | cons h _ ih =>
    obtain ⟨e, f, hP, hQ, hS⟩ := h
    obtain ⟨es, fs, hes, hfs, hall⟩ := ih
    exact ⟨e :: es, f :: fs, .cons hP hes, .cons hQ hfs, .cons hS hall⟩

theorem imageArgs_eq_plug {params : List SymbolId} {k : Nat} {es fs : List Ty}
    (h : List.Forall₂ (fun e f ↦ u.image f = (u.imageUnder ρ e).plug σ) es fs) :
    u.imageArgs [] params k fs =
      (u.imageArgs ρ params k es).map (TypeArg.map fun d ↦ d.plug σ) := by
  induction h generalizing k with
  | nil => rfl
  | cons h _ ih =>
    simp only [imageArgs, List.map_cons, TypeArg.map, ih]
    rw [← h]
    rfl

/-- The normal forms of the types, the second one closed, have the same descriptor when `σ` is
plugged into that of the first. -/
def Plugs (u : SymbolTable) (ρ : Bindings) (σ : String → Option Descriptor) (t t' : Ty) : Prop :=
  ∃ e f, u.NormalForm t e ∧ u.NormalForm t' f ∧ u.image f = (u.imageUnder ρ e).plug σ

theorem plugs_handsOn (hc : u.ParamsAreParams) (hu : u.Vocabulary D)
    (hρ : ∀ s, D s → ρ.lookup (u.fullName s) = none)
    (hσ : ∀ s, D s → (u.kind s = .cls ∨ u.kind s = .typeAlias) → σ (u.fullName s) = none) :
    u.HandsOn D (u.Plugs ρ σ) := by
  have hname {s : SymbolId} (hD : D s) (hs : u.Declares s) (x : String)
      (hx : u.symName s = .type x) : σ x = none := by
    rw [(hu.owned s hD).symName_eq hs] at hx
    split at hx
    · cases hx
    · next hobject =>
      cases hx
      exact hσ s hD (hs.imp_right (·.resolve_left hobject))
  refine hu.handsOn hc (fun s bs bs' hD hs hstuck hbs ↦ ?_) (fun t t' v v' ht hv ↦ ?_)
    (fun s hD hs ↦ ?_) fun v ↦ ?_
  · obtain ⟨es, fs, hes, hfs, hall⟩ := exists_of_forall₂ hbs
    refine ⟨_, _, .ref_of_forall₂ (hstuck bs) hes, .ref_of_forall₂ (hstuck bs') hfs, ?_⟩
    have hunder : u.nameUnder ρ s = u.symName s := by rw [nameUnder, hρ s hD]
    have hempty : es.isEmpty = fs.isEmpty := by
      rw [Bool.eq_iff_iff, List.isEmpty_iff, List.isEmpty_iff, ← List.length_eq_zero_iff,
        hall.length_eq, List.length_eq_zero_iff]
    rw [image, imageUnder, imageUnder, hunder, hempty]
    split
    · exact (Descriptor.plug_name (hname hD (hs.imp_right .inr))).symm
    · rw [Descriptor.plug_full, imageArgs_eq_plug hall]
      rfl
  · intro h
    obtain ⟨e, f, he, hf, himage⟩ := h
    exact ⟨e, f, he.of_expands ht, hf.of_expands hv, himage⟩
  · refine ⟨_, _, .single _ s, .single _ s, ?_⟩
    exact (Descriptor.plug_name (hname hD (.inr (.inl hs)))).symm
  · refine ⟨_, _, .constant v, .constant v, ?_⟩
    exact (Descriptor.plug_name (by simp)).symm

theorem plugs_params {ps : List SymbolId} (hkind : ∀ p ∈ ps, u.kind p = .typeParam)
    (hdistinct : (ps.map u.fullName).Nodup) {ts fs : List Ty}
    (hfs : List.Forall₂ u.NormalForm ts fs) (hlen : ts.length = ps.length) :
    List.Forall₂ (u.Plugs (u.placeholders 0 ps)
      fun x ↦ ((places ps.length).zip (fs.map u.image)).lookup x) (ps.map u.typeRef) ts := by
  refine List.forall₂_iff_get.2 ⟨by simp [hlen], fun i hi hi' ↦ ?_⟩
  rw [List.length_map] at hi
  have hif : i < fs.length := hfs.length_eq ▸ hi'
  obtain ⟨x, hx⟩ : ∃ x, (places ps.length)[i]? = some x :=
    ⟨_, List.getElem?_eq_getElem (by rwa [length_places])⟩
  have hplace : (u.placeholders 0 ps).lookup (u.fullName ps[i]) = some x := by
    rw [placeholders_zero]
    exact Bindings.lookup_zip hdistinct (by simp [length_places]) (i := i) (by simp [hi]) hx
  have hvalue : ((places ps.length).zip (fs.map u.image)).lookup x = some (u.image fs[i]) :=
    Bindings.lookup_zip (nodup_places _) (by simp [length_places, ← hfs.length_eq, hlen]) hx
      (by simp [hif])
  have himage : u.imageUnder (u.placeholders 0 ps) (u.typeRef ps[i]) = .typeName x := by
    simp [typeRef, applied, imageUnder, nameUnder, hplace, Descriptor.typeName]
  simp only [List.get_eq_getElem, List.getElem_map]
  refine ⟨_, fs[i], .ref_of_forall₂ (aliasRedex?_ref (.inl ?_)) .nil, hfs.get hi' hif, ?_⟩
  · simp [hkind _ (List.getElem_mem hi)]
  · exact (himage ▸ Descriptor.plug_typeName hvalue).symm

end Plug

section Lambda

variable {D : SymbolId → Prop} {s : SymbolId}

theorem aliasRedex?_typeRef (h : (u.entry s).typeParams ≠ []) :
    u.aliasRedex? (u.typeRef s) = none := by
  unfold aliasRedex? typeRef applied
  dsimp only
  split
  · exact if_neg fun hlen ↦ h (List.length_eq_zero_iff.1 hlen.symm)
  · rfl

theorem over_applied_params (hD : D s) (hs : u.kind s = .cls ∨ u.kind s = .typeAlias) :
    u.Over D (u.entry s).typeParams (u.applied s ((u.entry s).typeParams.map u.typeRef)) := by
  refine .applied hD hs (by simp) fun a ha ↦ ?_
  obtain ⟨p, hp, rfl⟩ := List.mem_map.1 ha
  exact .param hp

theorem binds_placeholders {ps : List SymbolId} (hkind : ∀ p ∈ ps, u.kind p = .typeParam)
    (htypeParams : ∀ p ∈ ps, (u.entry p).typeParams = [])
    (hfresh : ∀ p ∈ ps, ∀ s, D s → u.fullName s ≠ u.fullName p) :
    u.Binds D ps (u.placeholders 0 ps) := by
  have hkeys (e : String × String) (he : e ∈ u.placeholders 0 ps) :
      ∃ p ∈ ps, u.fullName p = e.1 := by
    rw [← List.mem_map, ← map_fst_placeholders u]
    exact List.mem_map_of_mem he
  refine ⟨hkind, htypeParams, fun p hp ↦ ?_, fun s hs ↦ ?_⟩
  · have hmem : u.fullName p ∈ (u.placeholders 0 ps).map (·.1) := by
      rw [map_fst_placeholders]
      exact List.mem_map_of_mem hp
    obtain ⟨e, he, heq⟩ := List.mem_map.1 hmem
    exact List.lookup_isSome_iff.2 ⟨e, he, by simp [heq]⟩
  · rw [List.lookup_eq_none_iff]
    intro e he
    obtain ⟨p, hp, heq⟩ := hkeys e he
    simpa [← heq] using hfresh p hp s hs

/-- A constructor on its own is described as the type function of its application to its
parameters. -/
theorem constructor_ends (hc : u.ParamsAreParams) (hu : u.Vocabulary D) (hD : D s)
    (hs : u.kind s = .cls ∨ u.kind s = .typeAlias) (hparams : (u.entry s).typeParams ≠ [])
    (hdistinct : ((u.entry s).typeParams.map u.fullName).Nodup)
    (hρ : u.Binds D (u.entry s).typeParams (u.placeholders 0 (u.entry s).typeParams)) {e : Ty}
    (he : u.NormalForm (u.applied s ((u.entry s).typeParams.map u.typeRef)) e) :
    Ends (u.rootDescriptor · (u.typeRef s))
      (some (.lambda (places (u.entry s).typeParams.length)
        (u.imageUnder (u.placeholders 0 (u.entry s).typeParams) e))) := by
  obtain ⟨N₁, d, -, hde, hdover, hdealias⟩ :=
    he.exists_dealias hc hu hρ.kind (over_applied_params hD hs)
  obtain ⟨N₂, hnested⟩ := exists_nested hc hu hρ hde hdover (hde.exists_describe hc hu hρ hdover)
  have htakes : u.takesTypeArgs (u.typeRef s) = true := by
    simpa [SymbolTable.takesTypeArgs, typeRef, applied, typeParams] using hparams
  -- The constructor is on the trail, but no applied type is cut for that.
  have hencloses : u.Encloses (Trail.empty.enter (u.typeRef s).measured) e := by
    intro t ht
    rcases Trail.contains_enter_iff.1 ht with ht | ht
    · rw [Ty.measured_inj.1 ht]
      exact .inl htakes
    · cases ht
  refine ⟨max N₁ N₂, fun n hn ↦ outcome_eq_some_some_iff.2 ?_⟩
  have hself : u.dealias n (u.typeRef s) = some (u.typeRef s) :=
    dealias_of_aliasRedex?_eq_none (aliasRedex?_typeRef hparams) n
  have hresult : u.dealiasResult n (u.etaExpand (u.typeRef s)) = some d := by
    rw [etaExpand_typeRef hparams, dealiasResult, dealias_of_aliasRedex?_eq_none rfl]
    exact hdealias n (by omega)
  have hbind : Bindings.bindAll [] (u.placeholders 0 (u.entry s).typeParams) =
      u.placeholders 0 (u.entry s).typeParams :=
    Bindings.bindAll_of_nodup (by simpa [map_fst_placeholders] using hdistinct)
  have hbody : (u.describeBody n (u.recursion n) (Trail.empty.enter (u.typeRef s).measured)
      (Bindings.bindAll [] (u.placeholders 0 (u.entry s).typeParams)) (u.typeRef s) d).value? =
      some (u.imageUnder (u.placeholders 0 (u.entry s).typeParams) e) := by
    rw [hbind, describeBody, if_neg]
    · exact hnested n (by omega) _ hencloses
    · rintro rfl
      cases htakes.symm.trans (hdover.takesTypeArgs hρ)
  refine value?_bind_iff.2 ⟨u.typeRef s, value?_lift_iff.2 hself, ?_⟩
  rw [descriptor, describeAlone, describe_eq_describeLambda (by simp [Proper, htakes])]
  refine value?_bind_iff.2 ⟨(), rfl, ?_⟩
  have hown : u.typeParams (u.etaExpand (u.typeRef s)) = (u.entry s).typeParams := by
    rw [etaExpand_typeRef hparams]
    rfl
  have hlambda := describeLambda_value?_of hresult (by rw [hown]; exact hbody)
  rw [hown] at hlambda
  rw [← map_snd_placeholders u]
  exact hlambda

end Lambda

section Agreement

variable (u) in
def IsConstructor (s : SymbolId) : Prop :=
  u.kind s = .cls ∨ u.kind s = .typeAlias

instance (s : SymbolId) : Decidable (u.IsConstructor s) :=
  inferInstanceAs (Decidable (_ ∨ _))

def DescribedAs (u : SymbolTable) (t : Ty) (d : Descriptor) : Prop :=
  ∀ c : RootCache, c.Reached u → ∀ (config : Config) (alive : ObjectId → Bool) (o : ObjectId),
    Ends (fun n ↦ (u.makeDescriptor n config c alive ⟨o, t⟩).1) (some d)

theorem describedAs_iff {t : Ty} {d : Descriptor} :
    u.DescribedAs t d ↔ Ends (u.rootDescriptor · t) (some d) := by
  constructor
  · intro h
    exact (makeDescriptor_ends_iff RootCache.Reached.empty.sound {} (fun _ ↦ true) ⟨0, t⟩).1
      (h .empty .empty {} _ 0)
  · exact fun h c hc config alive o ↦ (makeDescriptor_ends_iff hc.sound config alive ⟨o, t⟩).2 h

theorem DescribedAs.unique {t : Ty} {d e : Descriptor} (hd : u.DescribedAs t d)
    (he : u.DescribedAs t e) : d = e :=
  Option.some.inj ((describedAs_iff.1 hd).unique (describedAs_iff.1 he))

/-- A constructor on its own is described as a type function, whose body, with the descriptors of
arguments plugged in for the parameters, is the descriptor of the constructor applied to these. -/
theorem applied_descriptor_eq_plug (hc : u.Constructible) (hu : u.Vocabulary u.IsConstructor)
    (hnames : ∀ s, u.IsConstructor s → ∀ x ∈ (u.fullName s).toList.head?, x.isDigit = false)
    {s : SymbolId} (hs : u.IsConstructor s) (hparams : (u.entry s).typeParams ≠ [])
    (hdistinct : ((u.entry s).typeParams.map u.fullName).Nodup)
    (hfresh : ∀ p ∈ (u.entry s).typeParams, ∀ s', u.IsConstructor s' →
      u.fullName s' ≠ u.fullName p) :
    let xs := places (u.entry s).typeParams.length
    ∃ body, u.DescribedAs (u.typeRef s) (.lambda xs body) ∧
      ∀ ts, ts.length = xs.length → (∀ t ∈ ts, u.Over u.IsConstructor [] t) →
        ∃ ds, List.Forall₂ u.DescribedAs ts ds ∧
          u.DescribedAs (u.applied s ts) (body.plug fun x ↦ (xs.zip ds).lookup x) := by
  intro xs
  have hp := hc.paramsAreParams
  have hxs : xs.length = (u.entry s).typeParams.length := length_places _
  have hbinds := binds_placeholders (hp s) (hu.params s hs) hfresh
  have hover : u.Over u.IsConstructor (u.entry s).typeParams
      (u.applied s ((u.entry s).typeParams.map u.typeRef)) := over_applied_params hs hs
  obtain ⟨e, he⟩ := hover.exists_normalForm hp hu (hp s)
  refine ⟨_, describedAs_iff.2 (constructor_ends hp hu hs hs hparams hdistinct hbinds he),
    fun ts hlen hts ↦ ?_⟩
  obtain ⟨fs, hfs⟩ := exists_forall₂ fun t ht ↦ (hts t ht).exists_normalForm hp hu (by simp)
  refine ⟨fs.map u.image, ?_, ?_⟩
  · refine List.forall₂_map_right_iff.2 (List.Forall₂.imp (fun t f h ↦ ?_)
      ((List.forall₂_and_left ts fs).2 ⟨hts, hfs⟩))
    exact describedAs_iff.2 (h.1.rootDescriptor_ends hp hu h.2)
  have hfree (s' : SymbolId) (hs' : u.IsConstructor s') :
      (xs.zip (fs.map u.image)).lookup (u.fullName s') = none := by
    rw [List.lookup_eq_none_iff]
    intro e he
    have hhead := head?_of_mem_places (List.of_mem_zip he).1
    rw [bne_iff_ne]
    intro heq
    rw [← heq] at hhead
    exact absurd (hnames s' hs' '0' hhead) (by decide)
  obtain ⟨e', f, he', hf, himage⟩ :=
    (plugs_handsOn hp hu hbinds.free fun s' hs' _ ↦ hfree s' hs').applied s _ _ hs hs (by simp)
      (plugs_params (hp s) hdistinct hfs (hlen.trans hxs))
  rw [he'.unique he] at himage
  rw [← himage]
  exact describedAs_iff.2 ((Over.applied hs hs (hlen.trans hxs) hts).rootDescriptor_ends hp hu hf)

theorem over_typeRef {ps : List SymbolId} {s : SymbolId} (hs : u.IsConstructor s)
    (h : (u.entry s).typeParams = []) : u.Over u.IsConstructor ps (u.typeRef s) :=
  .applied hs hs (by simp [h]) (by simp)

/-- The classes `Int`, `Pair[A, A]` and `Const.A`; `Swap[X, Y]` stands for `Pair[Y, X]` and
`Const[A]` for the class `Const.A`. -/
def pairAliases : SymbolTable :=
  let (_, u) := initial.cls 1 "Int"
  let (pair, u) := u.cls 1 "Pair"
  let (_, u) := u.typeParam pair "A" .covariant
  let (_, u) := u.typeParam pair "A" .covariant
  let (swap, u) := u.typeAlias 1 "Swap"
  let (x, u) := u.typeParam swap "X" .invariant
  let (y, u) := u.typeParam swap "Y" .invariant
  let (named, u) := u.cls 1 "Const.A"
  let (const, u) := u.typeAlias 1 "Const"
  let (_, u) := u.typeParam const "A" .invariant
  let u := u.setBody swap (u.applied pair [u.typeRef y, u.typeRef x])
  u.setBody const (u.typeRef named)

theorem constructible_pairAliases : pairAliases.Constructible := by
  refine .step (.step (.step (.step (.step (.step (.step (.step (.step (.step (.step (.step .initial
    (.cls 1 "Int" ?_)) (.cls 1 "Pair" ?_)) (.typeParam 6 "A" .covariant ?_))
    (.typeParam 6 "A" .covariant ?_)) (.typeAlias 1 "Swap" ?_)) (.typeParam 9 "X" .invariant ?_))
    (.typeParam 9 "Y" .invariant ?_)) (.cls 1 "Const.A" ?_)) (.typeAlias 1 "Const" ?_))
    (.typeParam 13 "A" .invariant ?_)) (.setBody 9 _ ?_ ?_)) (.setBody 13 _ ?_ ?_)
  all_goals first
    | decide
    | exact fun s hs ↦ (by decide : ∀ s ∈ _, s < _) s hs

theorem lt_size_pairAliases {s : Nat} (hs : pairAliases.IsConstructor s) : s < 15 := by
  refine kind_lt_size (u := pairAliases) ?_
  rcases hs with hs | hs <;> simp [hs]

theorem vocabulary_pairAliases : pairAliases.Vocabulary pairAliases.IsConstructor := by
  obtain ⟨howner, hparams, hbodies, hnames⟩ :
      (∀ s : Nat, s < 15 → pairAliases.IsConstructor s → (pairAliases.entry s).owner = some 1) ∧
      (∀ s : Nat, s < 15 → ∀ p ∈ (pairAliases.entry s).typeParams,
        (pairAliases.entry p).typeParams = []) ∧
      (∀ s : Nat, s < 15 → pairAliases.kind s = .typeAlias →
        (s = 9 ∧ (pairAliases.entry s).body =
          some (pairAliases.applied 6 [pairAliases.typeRef 11, pairAliases.typeRef 10])) ∨
        (s = 13 ∧ (pairAliases.entry s).body = some (pairAliases.typeRef 12))) ∧
      (∀ s : Nat, s < 15 → ∀ s' : Nat, s' < 15 → pairAliases.kind s' = .typeAlias →
        (pairAliases.entry s).body.any (·.symbols.contains s') = true → s' < s) := by
    decide +kernel
  refine ⟨fun s hs ↦ ⟨1, howner s (lt_size_pairAliases hs) hs, by decide⟩,
    fun s hs ↦ hparams s (lt_size_pairAliases hs), fun s hD hs b hb ↦ ?_,
    not_transGen_of_lt fun s s' ⟨hs, hs', b, hb, hmem⟩ ↦ ?_⟩
  · have hb : (pairAliases.entry s).body = some b := hb
    rcases hbodies s (lt_size_pairAliases hD) hs with ⟨rfl, h⟩ | ⟨rfl, h⟩
    · cases h.symm.trans hb
      refine .applied (by decide) (by decide) (by decide) fun a ha ↦ ?_
      rcases List.mem_pair.1 ha with rfl | rfl <;> exact .param (by decide)
    · cases h.symm.trans hb
      exact over_typeRef (by decide) (by decide)
  · refine hnames s (lt_size_pairAliases (.inr hs)) s' (lt_size_pairAliases (.inr hs')) hs' ?_
    have hb : (pairAliases.entry s).body = some b := hb
    simpa [hb] using hmem

theorem names_pairAliases :
    (∀ s s', pairAliases.IsConstructor s → pairAliases.IsConstructor s' →
      pairAliases.fullName s = pairAliases.fullName s' → s = s') ∧
    ∀ s, pairAliases.IsConstructor s → ∀ x ∈ (pairAliases.fullName s).toList.head?,
      x.isDigit = false := by
  obtain ⟨hdistinct, hdigit⟩ :
      (∀ s : Nat, s < 15 → ∀ s' : Nat, s' < 15 → pairAliases.IsConstructor s →
        pairAliases.IsConstructor s' → pairAliases.fullName s = pairAliases.fullName s' → s = s') ∧
      (∀ s : Nat, s < 15 → pairAliases.IsConstructor s →
        (pairAliases.fullName s).toList.head?.all (!·.isDigit) = true) := by
    decide
  refine ⟨fun s s' hs hs' ↦ ?_, fun s hs x hx ↦ ?_⟩
  · exact hdistinct s (lt_size_pairAliases hs) s' (lt_size_pairAliases hs') hs hs'
  · simpa using (Option.all_eq_true _ _).1 (hdigit s (lt_size_pairAliases hs) hs) x hx

theorem swap_descriptor :
    let u := pairAliases
    ∃ body, u.DescribedAs (u.typeRef 9) (.lambda ["0:0", "0:1"] body) ∧
      ∃ ds, List.Forall₂ u.DescribedAs [u.typeRef 5, u.typeRef 2] ds ∧
        u.DescribedAs (u.applied 9 [u.typeRef 5, u.typeRef 2])
          (body.plug fun x ↦ (["0:0", "0:1"].zip ds).lookup x) := by
  obtain ⟨hs, hparams, hdistinct, hfresh, hint, hany⟩ : pairAliases.IsConstructor 9 ∧
      (pairAliases.entry 9).typeParams = [10, 11] ∧ ([10, 11].map pairAliases.fullName).Nodup ∧
      (∀ p ∈ [10, 11], ∀ s : Nat, s < 15 → pairAliases.IsConstructor s →
        pairAliases.fullName s ≠ pairAliases.fullName p) ∧
      (pairAliases.IsConstructor 5 ∧ (pairAliases.entry 5).typeParams = []) ∧
      pairAliases.IsConstructor 2 ∧ (pairAliases.entry 2).typeParams = [] := by
    decide
  obtain ⟨body, hlambda, happlied⟩ := applied_descriptor_eq_plug constructible_pairAliases
    vocabulary_pairAliases names_pairAliases.2 hs (by rw [hparams]; simp) (by rwa [hparams])
    (by
      rw [hparams]
      exact fun p hp s hs ↦ hfresh p hp s (lt_size_pairAliases hs) hs)
  rw [hparams] at hlambda happlied
  refine ⟨body, hlambda, happlied _ rfl fun t ht ↦ ?_⟩
  rcases List.mem_pair.1 ht with rfl | rfl
  · exact over_typeRef hint.1 hint.2
  · exact over_typeRef hany.1 hany.2

theorem DescribedAs.of_value? {t : Ty} {d : Descriptor} {n : Nat}
    (h : (u.rootDescriptor n t).value? = some d) : u.DescribedAs t d :=
  fun _ hc config alive o ↦ makeDescriptor_ends_of_value? hc.sound config alive ⟨o, t⟩ h

/-- The two parameters of `Pair` have one name, and the class `Const.A` is called like the parameter
of `Const`: their type functions are `[0:0, 0:1] ↦ Pair[0:1, 0:1]` and `[0:0] ↦ 0:0`, but
`Pair[Int, Any]` and `Const[Int]` are described as they stand. -/
theorem namesake_descriptor_ne :
    let u := pairAliases
    (u.Constructible ∧ u.Vocabulary u.IsConstructor ∧
      (∀ s s', u.IsConstructor s → u.IsConstructor s' → u.fullName s = u.fullName s' → s = s') ∧
      ∀ s, u.IsConstructor s → ∀ x ∈ (u.fullName s).toList.head?, x.isDigit = false) ∧
    ∃ int any : Descriptor, u.DescribedAs (u.typeRef 5) int ∧ u.DescribedAs (u.typeRef 2) any ∧
      (∃ body d, u.DescribedAs (u.typeRef 6) (.lambda ["0:0", "0:1"] body) ∧
        u.DescribedAs (u.applied 6 [u.typeRef 5, u.typeRef 2]) d ∧
        d ≠ body.plug fun x ↦ (["0:0", "0:1"].zip [int, any]).lookup x) ∧
      ∃ body d, u.DescribedAs (u.typeRef 13) (.lambda ["0:0"] body) ∧
        u.DescribedAs (u.applied 13 [u.typeRef 5]) d ∧
        d ≠ body.plug fun x ↦ (["0:0"].zip [int]).lookup x := by
  intro u
  let pair (a b : Descriptor) : Descriptor :=
    .full (.type "scala.Pair") [⟨a, .covariant⟩, ⟨b, .covariant⟩] none
  obtain ⟨hint, hany, hpair, happlied, hconst, hnamed, hne, hne'⟩ :
      (u.rootDescriptor 10 (u.typeRef 5)).value? = some (.typeName "scala.Int") ∧
      (u.rootDescriptor 10 (u.typeRef 2)).value? = some (.typeName "scala.Any") ∧
      (u.rootDescriptor 10 (u.typeRef 6)).value? =
        some (.lambda ["0:0", "0:1"] (pair (.typeName "0:1") (.typeName "0:1"))) ∧
      (u.rootDescriptor 10 (u.applied 6 [u.typeRef 5, u.typeRef 2])).value? =
        some (pair (.typeName "scala.Int") (.typeName "scala.Any")) ∧
      (u.rootDescriptor 10 (u.typeRef 13)).value? = some (.lambda ["0:0"] (.typeName "0:0")) ∧
      (u.rootDescriptor 10 (u.applied 13 [u.typeRef 5])).value? =
        some (.typeName "scala.Const.A") ∧
      pair (.typeName "scala.Int") (.typeName "scala.Any") ≠
        (pair (.typeName "0:1") (.typeName "0:1")).plug (fun x ↦ (["0:0", "0:1"].zip
          [Descriptor.typeName "scala.Int", .typeName "scala.Any"]).lookup x) ∧
      Descriptor.typeName "scala.Const.A" ≠ (Descriptor.typeName "0:0").plug (fun x ↦
        (["0:0"].zip [Descriptor.typeName "scala.Int"]).lookup x) := by
    decide +kernel
  exact ⟨⟨constructible_pairAliases, vocabulary_pairAliases, names_pairAliases⟩, _, _,
    .of_value? hint, .of_value? hany, ⟨_, _, .of_value? hpair, .of_value? happlied, hne⟩,
    _, _, .of_value? hconst, .of_value? hnamed, hne'⟩

end Agreement

end SymbolTable

end TypeTag
