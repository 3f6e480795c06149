import TypeTag.Proofs.Builds.AliasArguments
import TypeTag.Proofs.Builds.FreeNames
import TypeTag.Proofs.NormalForm.Constructors

namespace TypeTag

open Build (value?_bind_iff value?_lift_iff)

namespace SymbolTable

variable {u : SymbolTable} {ps : List SymbolId} {c p : SymbolId} {i n : Nat}

section Bound

/-- What the parameters of an outermost type function are bound to. -/
def boundBy (u : SymbolTable) (ps : List SymbolId) : Bindings :=
  Bindings.bindAll [] (u.placeholders 0 ps)

theorem isSome_lookup_boundBy (hp : p ∈ ps) :
    ((u.boundBy ps).lookup (u.fullName p)).isSome = true := by
  rw [← Option.ne_none_iff_isSome]
  intro hnone
  refine (Bindings.lookup_bindAll_eq_none hnone).1 ?_
  rw [map_fst_placeholders]
  exact List.mem_map_of_mem hp

theorem nameUnder_boundBy_iff (hp : p ∈ ps) {x : String} :
    u.nameUnder (u.boundBy ps) p = .type x ↔ (u.boundBy ps).lookup (u.fullName p) = some x := by
  obtain ⟨y, hy⟩ := Option.isSome_iff_exists.1 (isSome_lookup_boundBy hp)
  rw [nameUnder, hy, Option.some.injEq, SymName.type.injEq]

theorem nameUnder_of_lookup {ρ : Bindings} {s : SymbolId} {x : String}
    (h : ρ.lookup (u.fullName s) = some x) : u.nameUnder ρ s = .type x := by
  rw [nameUnder, h]

theorem boundBy_of_nodup (h : (ps.map u.fullName).Nodup) : u.boundBy ps = u.placeholders 0 ps :=
  Bindings.bindAll_of_nodup (by rwa [List.nil_append, map_fst_placeholders])

theorem lookup_boundBy_iff : (∀ (i : Nat) p, ps[i]? = some p →
      (u.boundBy ps).lookup (u.fullName p) = some ("0:" ++ toString i)) ↔
    (ps.map u.fullName).Nodup := by
  constructor
  · intro h
    rw [List.nodup_iff_getElem?_ne_getElem?]
    intro i j hij hj heq
    rw [List.length_map] at hj
    have hi := h i _ (List.getElem?_eq_getElem (hij.trans hj))
    have hname : u.fullName ps[i] = u.fullName ps[j] := by
      simpa [hj, hij.trans hj] using heq
    rw [hname, h j _ (List.getElem?_eq_getElem hj)] at hi
    exact hij.ne' (place_injective (Option.some.inj hi))
  · intro h i p hp
    have hi : i < ps.length := (List.getElem?_eq_some_iff.1 hp).1
    rw [boundBy_of_nodup h, placeholders_zero]
    exact Bindings.lookup_zip h (by simp [length_places]) (i := i) (by simp [hp])
      (by simp [places, hi])

/-- With a placeholder for each parameter, the name of a class means the class unless a parameter
that is called like the class has another placeholder. -/
theorem nameUnder_eq_iff (hdistinct : (ps.map u.fullName).Nodup)
    (hc : u.symName c = .type (u.fullName c)) :
    u.nameUnder (u.boundBy ps) c = .type (u.fullName c) ↔
      ∀ (i : Nat) p, ps[i]? = some p → u.fullName p = u.fullName c →
        u.fullName c = "0:" ++ toString i := by
  have hplaces := lookup_boundBy_iff.2 hdistinct
  constructor
  · intro h i p hp hname
    have hplace := hplaces i p hp
    rw [hname] at hplace
    rw [nameUnder_of_lookup hplace] at h
    exact (SymName.type.inj h).symm
  · intro h
    by_cases hnamed : ∃ (i : Nat) (p : SymbolId), ps[i]? = some p ∧ u.fullName p = u.fullName c
    · obtain ⟨i, p, hp, hname⟩ := hnamed
      have hplace := hplaces i p hp
      rw [hname] at hplace
      rw [nameUnder_of_lookup hplace, h i p hp hname]
    · have hfree : (u.boundBy ps).lookup (u.fullName c) = none := by
        rw [boundBy_of_nodup hdistinct, List.lookup_eq_none_iff]
        intro e he
        have hkey : e.1 ∈ ps.map u.fullName := by
          rw [← map_fst_placeholders u]
          exact List.mem_map_of_mem he
        obtain ⟨p, hp, hpe⟩ := List.mem_map.1 hkey
        obtain ⟨i, hi⟩ := List.mem_iff_getElem?.1 hp
        rw [bne_iff_ne]
        exact fun heq ↦ hnamed ⟨i, p, hi, hpe.trans heq.symm⟩
      rw [nameUnder, hfree, hc]

end Bound

section Images

def backReferences (u : SymbolTable) (c : SymbolId) (n : Nat) : List (TypeArg Descriptor) :=
  (List.range n).map fun i ↦
    ⟨.typeName ("0:" ++ toString i), u.argVariance (u.entry c).typeParams i⟩

theorem getElem?_imageArgs (ρ : Bindings) (params : List SymbolId) (k i : Nat) (es : List Ty) :
    (u.imageArgs ρ params k es)[i]? =
      es[i]?.map fun e ↦ ⟨u.imageUnder ρ e, u.argVariance params (k + i)⟩ := by
  induction es generalizing k i with
  | nil => rfl
  | cons e es ih =>
    cases i with
    | zero => rfl
    | succ i => simp only [imageArgs, List.getElem?_cons_succ, ih, Nat.add_right_comm, Nat.add_assoc]

theorem imageArgs_eq_iff {ρ : Bindings} :
    u.imageArgs ρ (u.entry c).typeParams 0 (ps.map u.typeRef) = u.backReferences c ps.length ↔
      ∀ (i : Nat) p, ps[i]? = some p → u.nameUnder ρ p = .type ("0:" ++ toString i) := by
  rw [List.ext_getElem?_iff]
  refine forall_congr' fun i ↦ ?_
  rw [getElem?_imageArgs, List.getElem?_map, backReferences, List.getElem?_map]
  cases hp : ps[i]? with
  | none =>
    have hlen := List.getElem?_eq_none_iff.1 hp
    simp [hlen]
  | some p =>
    have hi : i < ps.length := (List.getElem?_eq_some_iff.1 hp).1
    have himage : u.imageUnder ρ (u.typeRef p) = .name { name := u.nameUnder ρ p } := rfl
    simp [hi, himage, Descriptor.typeName]

theorem imageUnder_applied_eq_iff {ρ : Bindings} (hne : ps ≠ []) :
    u.imageUnder ρ (u.applied c (ps.map u.typeRef)) =
        .full (.type (u.fullName c)) (u.backReferences c ps.length) none ↔
      u.nameUnder ρ c = .type (u.fullName c) ∧
        ∀ (i : Nat) p, ps[i]? = some p → u.nameUnder ρ p = .type ("0:" ++ toString i) := by
  rw [applied, imageUnder, if_neg (by simpa using hne), Descriptor.full.injEq, imageArgs_eq_iff]
  simp

end Images

section Describe

theorem nested_boundParam {trail : Trail Measured} {ρ : Bindings} (hp : u.kind p = .typeParam)
    (hbound : (ρ.lookup (u.fullName p)).isSome = true)
    (hnot : trail.contains (u.typeRef p).measured = false) (n : Nat) :
    (u.nested (n + 2) trail ρ (u.typeRef p)).value? = some (u.imageUnder ρ (u.typeRef p)) := by
  obtain ⟨x, hx⟩ := Option.isSome_iff_exists.1 hbound
  have hself (n : Nat) : u.dealias n (u.typeRef p) = some (u.typeRef p) :=
    dealias_of_kind_ne (by simp [hp]) n
  have hleaf : u.leaf (n + 1) (u.typeRef p) = some (u.typeRef p) := by
    rw [leaf, hself, ite_self]
  have hplaceholder : u.placeholder? ρ (u.typeRef p) = some x := hx
  have hpoly : (u.typeRef p).isPoly = false := rfl
  rw [nested, describeNested_eq_describe (isExpanding_eq_false (hself _) hnot hnot), describe]
  refine value?_bind_iff.2 ⟨(), rfl, ?_⟩
  rw [if_neg Bool.false_ne_true, if_neg (by simp [hplaceholder, hpoly]),
    describeProper_eq_of_leaf (flatten_eq_single (hself _) rfl) hleaf]
  exact describeNamed_param hp hbound

variable (hc : u.kind c = .cls) (ho : u.PackageOwned c) (hne : ps ≠ [])
  (hkind : ∀ p ∈ ps, u.kind p = .typeParam)

include hc ho hne hkind

theorem describedAs_poly : u.DescribedAs (.poly ps (u.applied c (ps.map u.typeRef)))
    (.lambda (places ps.length)
      (u.imageUnder (u.boundBy ps) (u.applied c (ps.map u.typeRef)))) := by
  let t : Ty := .poly ps (u.applied c (ps.map u.typeRef))
  let result := u.applied c (ps.map u.typeRef)
  have hself (n : Nat) : u.dealias n result = some result := dealias_of_kind_ne (by simp [hc]) n
  have htakes : u.takesTypeArgs result = false := by
    obtain ⟨p, ps, rfl⟩ := List.exists_cons_of_ne_nil hne
    rfl
  have hne' : result ≠ t := nofun
  -- Only the type function and its body are being expanded, neither of which is a parameter.
  have hnot : (Trail.empty.enter t.measured).contains result.measured = false :=
    Trail.not_contains_enter hne' rfl
  have hnotParam (p : SymbolId) : ((Trail.empty.enter t.measured).enter result.measured).contains
      (u.typeRef p).measured = false := by
    refine Trail.not_contains_enter (fun heq ↦ ?_) (Trail.not_contains_enter nofun rfl)
    exact hne (by simpa using (Ty.ref.inj heq).2.2.symm)
  have hbody : (u.nested 3 (Trail.empty.enter t.measured) (u.boundBy ps) result).value? =
      some (u.imageUnder (u.boundBy ps) result) := by
    rw [nested, describeNested_eq_describe (isExpanding_eq_false (hself _) hnot hnot),
      describe_eq_describeProper rfl htakes,
      describeProper_eq_describeNamed (flatten_eq_single (hself _) rfl) htakes (hself _)]
    refine value?_bind_iff.2 ⟨(), rfl, ?_⟩
    refine describeNamed_applied (.inl hc) ho (aliasRedex?_ref (.inl (by simp [hc]))) rfl
      fun i a e ha he ↦ ?_
    obtain rfl := Option.some.inj (ha.symm.trans he)
    obtain ⟨p, hp, rfl⟩ := List.mem_map.1 (List.mem_of_getElem? ha)
    exact nested_boundParam (hkind p hp) (isSome_lookup_boundBy hp) (hnotParam p) 0
  have hresult : u.dealiasResult 3 (u.etaExpand t) = some result := by
    rw [show u.etaExpand t = t from rfl, dealiasResult, dealias_of_aliasRedex?_eq_none rfl]
    exact hself 3
  refine .of_value? (n := 3) ?_
  refine value?_bind_iff.2 ⟨t, value?_lift_iff.2 (dealias_of_aliasRedex?_eq_none rfl 3), ?_⟩
  rw [descriptor, describeAlone, describe_eq_describeLambda (by simp [Proper, t, Ty.isPoly])]
  refine value?_bind_iff.2 ⟨(), rfl, ?_⟩
  rw [← map_snd_placeholders u]
  refine describeLambda_value?_of hresult ?_
  rw [describeBody, if_neg hne']
  exact hbody

/-- The type function refers to its parameters in their order exactly if their full names differ and
none of them is the full name of the class, unless it is called like its placeholder. -/
theorem describedAs_poly_iff :
    (∃ d, u.DescribedAs (.poly ps (u.applied c (ps.map u.typeRef))) d) ∧
      (u.DescribedAs (.poly ps (u.applied c (ps.map u.typeRef))) (.lambda (places ps.length)
          (.full (.type (u.fullName c)) (u.backReferences c ps.length) none)) ↔
        (ps.map u.fullName).Nodup ∧ ∀ (i : Nat) p, ps[i]? = some p → u.fullName p = u.fullName c →
          u.fullName c = "0:" ++ toString i) := by
  have hdescribed := describedAs_poly hc ho hne hkind
  have hname : u.symName c = .type (u.fullName c) := by
    rw [ho.symName_eq (.inl hc), if_neg (by simp [hc])]
  have hanswer (d : Descriptor) :
      u.DescribedAs (.poly ps (u.applied c (ps.map u.typeRef))) (.lambda (places ps.length) d) ↔
        u.imageUnder (u.boundBy ps) (u.applied c (ps.map u.typeRef)) = d := by
    refine ⟨fun h ↦ (Descriptor.lambda.inj (hdescribed.unique h)).2, ?_⟩
    rintro rfl
    exact hdescribed
  have hparams : (∀ (i : Nat) p, ps[i]? = some p →
      u.nameUnder (u.boundBy ps) p = .type ("0:" ++ toString i)) ↔ (ps.map u.fullName).Nodup := by
    rw [← lookup_boundBy_iff]
    refine forall_congr' fun i ↦ forall_congr' fun p ↦ forall_congr' fun hp ↦ ?_
    exact nameUnder_boundBy_iff (List.mem_of_getElem? hp)
  refine ⟨⟨_, hdescribed⟩, ?_⟩
  rw [hanswer, imageUnder_applied_eq_iff hne, hparams, and_comm]
  exact and_congr_right fun hdistinct ↦ nameUnder_eq_iff hdistinct hname

end Describe

section Samples

/-- The classes `Pair[A, B]` and `Box[A]`, and the parameters `X`, `Y`, `X` again and `Box`. -/
def freeParams : SymbolTable :=
  let (pair, u) := initial.cls 1 "Pair"
  let (_, u) := u.typeParam pair "A" .covariant
  let (_, u) := u.typeParam pair "B" .covariant
  let (box, u) := u.cls 1 "Box"
  let (_, u) := u.typeParam box "A" .covariant
  let (_, u) := u.freeTypeParam 1 "X" .invariant
  let (_, u) := u.freeTypeParam 1 "Y" .invariant
  let (_, u) := u.freeTypeParam 1 "X" .invariant
  (u.freeTypeParam 1 "Box" .invariant).2

theorem constructible_freeParams : freeParams.Constructible := by
  refine .step (.step (.step (.step (.step (.step (.step (.step (.step .initial
    (.cls 1 "Pair" ?_)) (.typeParam 5 "A" .covariant ?_)) (.typeParam 5 "B" .covariant ?_))
    (.cls 1 "Box" ?_)) (.typeParam 8 "A" .covariant ?_)) (.freeTypeParam 1 "X" .invariant ?_))
    (.freeTypeParam 1 "Y" .invariant ?_)) (.freeTypeParam 1 "X" .invariant ?_))
    (.freeTypeParam 1 "Box" .invariant ?_)
  all_goals decide

theorem freeParams_describedAs_poly :
    let u := freeParams
    (u.kind 5 = .cls ∧ u.PackageOwned 5 ∧ ∀ p ∈ [10, 11], u.kind p = .typeParam) ∧
      u.DescribedAs (.poly [10, 11] (u.applied 5 [u.typeRef 10, u.typeRef 11]))
        (.lambda ["0:0", "0:1"] (.full (.type "scala.Pair")
          [⟨.typeName "0:0", .covariant⟩, ⟨.typeName "0:1", .covariant⟩] none)) := by
  intro u
  obtain ⟨hc, ho, hkind, hdistinct, hnames, hclaimed⟩ : u.kind 5 = .cls ∧
      ((u.entry 5).owner = some 1 ∧ u.kind 1 = .package) ∧
      (∀ p ∈ [10, 11], u.kind p = .typeParam) ∧ ([10, 11].map u.fullName).Nodup ∧
      (∀ p ∈ [10, 11], u.fullName p ≠ u.fullName 5) ∧
      (Descriptor.full (.type (u.fullName 5)) (u.backReferences 5 2) none =
        .full (.type "scala.Pair") [⟨.typeName "0:0", .covariant⟩, ⟨.typeName "0:1", .covariant⟩]
          none) := by
    decide +kernel
  have hne : [10, 11] ≠ ([] : List SymbolId) := by simp
  have hdescribed := (describedAs_poly_iff hc ⟨1, ho⟩ hne hkind).2.2
    ⟨hdistinct, fun i p hp hname ↦ absurd hname (hnames p (List.mem_of_getElem? hp))⟩
  refine ⟨⟨hc, ⟨1, ho⟩, hkind⟩, ?_⟩
  rw [← hclaimed]
  exact hdescribed

/-- Over two parameters `X`, `Pair[X, X]` is described as `[0:0, 0:1] ↦ Pair[0:1, 0:1]`; and over a
parameter that is called like the class, `Box[Box]` as `[0:0] ↦ 0:0[0:0]`. -/
theorem sharedName_descriptor_ne :
    let u := freeParams
    (u.Constructible ∧ (u.PackageOwned 5 ∧ u.kind 5 = .cls ∧ (u.entry 5).typeParams = [6, 7]) ∧
      (u.PackageOwned 8 ∧ u.kind 8 = .cls ∧ (u.entry 8).typeParams = [9]) ∧
      (∀ p ∈ [6, 7, 9], (u.entry p).typeParams = []) ∧
      ∀ p ∈ [10, 12, 13], u.kind p = .typeParam) ∧
    (∃ d, u.DescribedAs (.poly [10, 12] (u.applied 5 [u.typeRef 10, u.typeRef 12])) d ∧
      d ≠ .lambda (places 2) (.full (.type (u.fullName 5)) (u.backReferences 5 2) none)) ∧
    ∃ d, u.DescribedAs (.poly [13] (u.applied 8 [u.typeRef 13])) d ∧
      d ≠ .lambda (places 1) (.full (.type (u.fullName 8)) (u.backReferences 8 1) none) := by
  intro u
  let pair : Descriptor := .lambda ["0:0", "0:1"]
    (.full (.type "scala.Pair") [⟨.typeName "0:1", .covariant⟩, ⟨.typeName "0:1", .covariant⟩] none)
  let box : Descriptor := .lambda ["0:0"] (.full (.type "0:0") [⟨.typeName "0:0", .covariant⟩] none)
  obtain ⟨hpair, hbox, hkind, hpairs, hboxes, hne, hne'⟩ :
      ((u.entry 5).owner = some 1 ∧ u.kind 1 = .package) ∧ (u.entry 8).owner = some 1 ∧
      ((u.kind 5 = .cls ∧ (u.entry 5).typeParams = [6, 7]) ∧
        (u.kind 8 = .cls ∧ (u.entry 8).typeParams = [9]) ∧
        (∀ p ∈ [6, 7, 9], (u.entry p).typeParams = []) ∧
        ∀ p ∈ [10, 12, 13], u.kind p = .typeParam) ∧
      (u.rootDescriptor 3 (.poly [10, 12] (u.applied 5 [u.typeRef 10, u.typeRef 12]))).value? =
        some pair ∧
      (u.rootDescriptor 3 (.poly [13] (u.applied 8 [u.typeRef 13]))).value? = some box ∧
      pair ≠ .lambda (places 2) (.full (.type (u.fullName 5)) (u.backReferences 5 2) none) ∧
      box ≠ .lambda (places 1) (.full (.type (u.fullName 8)) (u.backReferences 8 1) none) := by
    decide +kernel
  exact ⟨⟨constructible_freeParams, ⟨⟨1, hpair⟩, hkind.1⟩, ⟨⟨1, hbox, hpair.2⟩, hkind.2.1⟩,
    hkind.2.2⟩, ⟨pair, .of_value? hpairs, hne⟩, box, .of_value? hboxes, hne'⟩

end Samples

end SymbolTable

end TypeTag
