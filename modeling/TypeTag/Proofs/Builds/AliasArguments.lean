import TypeTag.Proofs.Builds.Trails
import TypeTag.Proofs.Tags.Caching

namespace TypeTag

open Build (Ends value?_bind_iff outcome_eq_some_some_iff outcome_bind_congr
  outcome_emit_bind)

namespace SymbolTable

variable {u : SymbolTable} {r : Recursion} {trail : Trail Measured} {ρ : Bindings} {n : Nat}
  {t : Ty}

theorem isExpanding_eq_false {d : Ty} (hd : u.dealias n t = some d)
    (ht : trail.contains t.measured = false) (hd' : trail.contains d.measured = false) :
    u.isExpanding n trail t = some false := by
  unfold isExpanding
  rw [ht, hd]
  simp [hd']

theorem describeNested_eq_describe (h : u.isExpanding n trail t = some false) :
    u.describeNested n r trail ρ t = u.describe n r (trail.enter t.measured) ρ false t := by
  unfold describeNested
  rw [h, Build.liftM_some, pure_bind]
  rfl

theorem describeProper_eq_of_dealias {t' : Ty} (ht : u.takesTypeArgs t = false)
    (ht' : u.takesTypeArgs t' = false) (h : u.dealias (n + 1) t = u.dealias (n + 1) t') :
    u.describeProper (n + 1) r trail ρ t = u.describeProper (n + 1) r trail ρ t' := by
  cases hd : u.dealias (n + 1) t' with
  | none => simp [describeProper, flatten, flattenFrom, h, hd]
  | some d =>
    have hd' := h.trans hd
    cases hrefined : d.isRefined with
    | false => rw [describeProper_eq_describeNamed (flatten_eq_single hd' hrefined) ht hd',
        describeProper_eq_describeNamed (flatten_eq_single hd hrefined) ht' hd]
    | true =>
      have hflat : u.flatten (n + 1) t = u.flatten (n + 1) t' := by
        unfold flatten flattenFrom
        rw [hd', hd]
        cases d with
        | refined ps ms => rfl
        | _ => cases hrefined
      rw [describeProper, describeProper, hflat]

theorem describeNamed_lambda? {d : Descriptor}
    (h : (u.describeNamed n r trail ρ t).value? = some d) : d.lambda? = none := by
  obtain ⟨e, q, m, -, -, -, ⟨-, rfl⟩ | ⟨-, as, -, rfl⟩⟩ := describeNamed_cases h <;> rfl

theorem qualifierOf_outcome {t' : Ty} (h : t.qualifier? = t'.qualifier?) :
    (u.qualifierOf r trail ρ t).outcome = (u.qualifierOf r trail ρ t').outcome := by
  have hqualifier (q : Ty) : (describeQualifier r trail ρ t q).outcome =
      (describeQualifier r trail ρ t' q).outcome := by
    refine outcome_bind_congr rfl fun d ↦ ?_
    split <;> rfl
  unfold qualifierOf
  rw [h]
  split
  · rfl
  · split
    · rfl
    · split
      · dsimp only
        split
        · rfl
        · exact outcome_bind_congr (hqualifier _) fun _ ↦ rfl
      · rfl
      · exact outcome_bind_congr (hqualifier _) fun _ ↦ rfl

section Applied

variable {c : SymbolId} (hc : u.kind c = .cls) {x : Ty}

include hc

theorem dealias_applied (as : List Ty) (n : Nat) :
    u.dealias n (u.applied c as) = some (u.applied c as) :=
  dealias_of_kind_ne (by simp [hc]) n

theorem boundTypes_applied (as : List Ty) : u.boundTypes (u.applied c as) = [] := by
  have hk : (u.entry c).kind = .cls := hc
  simp [boundTypes, applied, Ty.symbol?, signature, hk]

theorem asks_applied {as : List Ty} (ht : u.Proper (u.applied c as))
    (h : u.Asks (u.applied c as) x) : x ∈ u.qualifierTypes (u.applied c as) ++ as := by
  have hd := dealias_applied hc as
  have hflat {n : Nat} {f : Flattening} (hf : u.flatten n (u.applied c as) = some f) :
      f = .single (u.applied c as) := eq_single_of_flatten hd rfl hf
  cases h with
  | result hgeneric => exact absurd ht hgeneric
  | part hf => cases hflat hf
  | member hf => cases hflat hf
  | named hf hl he hx =>
    cases hflat hf
    rw [leaf, hd, ite_self] at hl
    cases hl
    rw [dealiasResult, hd] at he
    cases (hd _).symm.trans he
    rwa [boundTypes_applied hc, List.append_nil] at hx
  | cut hx => exact List.mem_append_left as hx

theorem rootDescriptor_applied (x : Ty) (n : Nat) :
    u.rootDescriptor (n + 1) (u.applied c [x]) = do
      let trail := Trail.empty.enter (u.applied c [x]).measured
      .emit (.describing (u.applied c [x]) trail.level false)
      let q ← u.qualifierOf (u.recursion (n + 1)) trail [] (u.applied c [x])
      let d ← u.nested (n + 1) trail [] x
      return .full (u.symName c) [⟨d, u.argVariance (u.entry c).typeParams 0⟩] q := by
  have hd := dealias_applied hc [x] (n + 1)
  have hparams : u.headParams (n + 1) (u.applied c [x]) = some (u.entry c).typeParams := by
    rw [headParams, hd]
    rfl
  rw [rootDescriptor, hd, Build.liftM_some, pure_bind, descriptor, describeAlone,
    describe_eq_describeProper rfl rfl, describeProper_applied hc rfl]
  simp only [describeArgs, hparams, Build.liftM_some, pure_bind]
  simp [applied, Ty.args, recursion]

end Applied

/-- An alias without parameters stands for a type, which is no alias and does not mention it. -/
structure StandsFor (u : SymbolTable) (a : SymbolId) (b : Ty) : Prop where
  kind : u.kind a = .typeAlias
  params : (u.entry a).typeParams = []
  expansion : ∃ n, u.dealias n (u.typeRef a) = some b
  ended : u.aliasRedex? b = none
  absent : a ∉ b.symbols

def aroundArgument (u : SymbolTable) (a c : SymbolId) (b : Ty) : List Ty :=
  [u.typeRef a, b, u.applied c [u.typeRef a], u.applied c [b]]

/-- What the description of an argument of `c` comes to is not being expanded around it, nor is what
the description of the qualifier of `c` comes to. -/
structure Apart (u : SymbolTable) (a c : SymbolId) (b : Ty) : Prop where
  argument : ∀ x, Relation.TransGen u.Asks b x → u.Visible (· ∉ u.aroundArgument a c b) x
  qualifier : ∀ q ∈ u.qualifierTypes (u.applied c [b]), ∀ x, Relation.ReflTransGen u.Asks q x →
    u.Visible (· ∉ u.aroundArgument a c b) x

theorem ne_applied_self (c : SymbolId) (x : Ty) : x ≠ u.applied c [x] := by
  intro h
  have hsize := congrArg Ty.size h
  simp only [applied, Ty.size, Ty.sizeList] at hsize
  omega

theorem alike_applied {a c : SymbolId} {b : Ty} : Trail.Alike (· ∉ u.aroundArgument a c b)
    (Trail.empty.enter (u.applied c [u.typeRef a]).measured)
    (Trail.empty.enter (u.applied c [b]).measured) :=
  (Trail.Alike.refl .empty).enter_of_not (by simp [aroundArgument]) (by simp [aroundArgument])

section StandsFor

variable {a c : SymbolId} {b : Ty} (hab : u.StandsFor a b)

include hab

theorem StandsFor.dealias (n : Nat) : u.dealias n b = some b :=
  dealias_of_aliasRedex?_eq_none hab.ended n

theorem StandsFor.proper : u.Proper (u.typeRef a) :=
  ⟨rfl, takesTypeArgs_applied (by simp [hab.params])⟩

theorem StandsFor.ne_applied (c : SymbolId) : b ≠ u.applied c [u.typeRef a] := by
  intro h
  exact hab.absent (by simp [h, typeRef, applied, Ty.symbols, Ty.symbolsList])

theorem StandsFor.isExpanding {x : Ty} (hx : x = u.typeRef a ∨ x = b)
    (hn : u.dealias n (u.typeRef a) = some b) :
    u.isExpanding n (Trail.empty.enter (u.applied c [x]).measured) x = some false := by
  have hcontains (t : Ty) (ht : t ≠ u.applied c [x]) :
      (Trail.empty.enter (u.applied c [x]).measured).contains t.measured = false :=
    Trail.not_contains_enter ht rfl
  have hd : u.dealias n x = some b := by
    rcases hx with rfl | rfl
    · exact hn
    · exact hab.dealias n
  refine isExpanding_eq_false hd (hcontains x (ne_applied_self c x)) (hcontains b ?_)
  rcases hx with rfl | rfl
  · exact hab.ne_applied c
  · exact ne_applied_self c _

theorem StandsFor.nested_outcome (hb : u.Proper b)
    (hapart : ∀ x, Relation.TransGen u.Asks b x → u.Visible (· ∉ u.aroundArgument a c b) x)
    (hn : u.dealias (n + 1) (u.typeRef a) = some b) :
    (u.nested (n + 2) (Trail.empty.enter (u.applied c [u.typeRef a]).measured) []
      (u.typeRef a)).outcome =
      (u.nested (n + 2) (Trail.empty.enter (u.applied c [b]).measured) [] b).outcome := by
  let p := (Trail.empty.enter (u.applied c [u.typeRef a]).measured).enter (u.typeRef a).measured
  let q := (Trail.empty.enter (u.applied c [b]).measured).enter b.measured
  have hpq : Trail.Alike (· ∉ u.aroundArgument a c b) p q :=
    alike_applied.enter_of_not (by simp [aroundArgument]) (by simp [aroundArgument])
  have hdealias : u.dealias (n + 1) (u.typeRef a) = u.dealias (n + 1) b :=
    hn.trans (hab.dealias (n + 1)).symm
  have hproper : u.describeProper (n + 1) (u.recursion (n + 1)) p [] (u.typeRef a) =
      u.describeProper (n + 1) (u.recursion (n + 1)) q [] b := by
    rw [describeProper_eq_of_dealias hab.proper.2 hb.2 hdealias]
    exact describeProper_congr fun x hx ↦
      sameOn_of_alike (n + 1) hpq fun y hy ↦ hapart y (.head' hx hy)
  have hnested {x : Ty} (hx : x = u.typeRef a ∨ x = b) (hproper : u.Proper x) :
      (u.nested (n + 2) (Trail.empty.enter (u.applied c [x]).measured) [] x).outcome =
        (u.describeProper (n + 1) (u.recursion (n + 1))
          ((Trail.empty.enter (u.applied c [x]).measured).enter x.measured) [] x).outcome := by
    rw [nested, describeNested_eq_describe (hab.isExpanding hx hn),
      describe_eq_describeProper hproper.1 hproper.2, outcome_emit_bind]
    rfl
  rw [hnested (.inl rfl) hab.proper, hnested (.inr rfl) hb]
  exact congrArg _ hproper

theorem StandsFor.rootDescriptor_outcome (hc : u.kind c = .cls) (hb : u.Proper b)
    (hapart : u.Apart a c b) (hn : u.dealias (n + 1) (u.typeRef a) = some b) :
    (u.rootDescriptor (n + 2) (u.applied c [u.typeRef a])).outcome =
      (u.rootDescriptor (n + 2) (u.applied c [b])).outcome := by
  simp only [rootDescriptor_applied hc, outcome_emit_bind]
  refine outcome_bind_congr ?_ fun q ↦
    outcome_bind_congr (hab.nested_outcome hb hapart.argument hn) fun d ↦ rfl
  have hqualifier := qualifierOf_congr (ρ := []) fun q hq ↦
    sameOn_of_alike (n + 2) alike_applied (hapart.qualifier q hq)
  exact (qualifierOf_outcome (by rfl)).trans (congrArg Build.outcome hqualifier)

theorem StandsFor.rootDescriptor_ne (hc : u.kind c = .cls) (hb : ¬u.Proper b)
    (hn : u.dealias (n + 1) (u.typeRef a) = some b) {d d' : Descriptor}
    (hd : (u.rootDescriptor (n + 2) (u.applied c [u.typeRef a])).value? = some d)
    (hd' : (u.rootDescriptor (n + 2) (u.applied c [b])).value? = some d') : d ≠ d' := by
  have hargument {x : Ty} {d : Descriptor}
      (hd : (u.rootDescriptor (n + 2) (u.applied c [x])).value? = some d) :
      ∃ e q,
        (u.nested (n + 2) (Trail.empty.enter (u.applied c [x]).measured) [] x).value? = some e ∧
        d = .full (u.symName c) [⟨e, u.argVariance (u.entry c).typeParams 0⟩] q := by
    rw [rootDescriptor_applied hc] at hd
    obtain ⟨-, -, hd⟩ := value?_bind_iff.1 hd
    obtain ⟨q, -, hd⟩ := value?_bind_iff.1 hd
    obtain ⟨e, he, hd⟩ := value?_bind_iff.1 hd
    cases hd
    exact ⟨e, q, he, rfl⟩
  obtain ⟨e, q, he, rfl⟩ := hargument hd
  obtain ⟨e', q', he', rfl⟩ := hargument hd'
  have hname : e.lambda? = none := by
    have hrefined : b.isRefined = false := by
      cases b with
      | refined ps ms => exact absurd ⟨rfl, rfl⟩ hb
      | _ => rfl
    rw [nested, describeNested_eq_describe (hab.isExpanding (.inl rfl) hn),
      describe_eq_describeProper hab.proper.1 hab.proper.2,
      describeProper_eq_describeNamed (flatten_eq_single hn hrefined) hab.proper.2 hn] at he
    obtain ⟨-, -, he⟩ := value?_bind_iff.1 he
    exact describeNamed_lambda? he
  have hlambda : e'.lambda? ≠ none := by
    rw [nested, describeNested_eq_describe (hab.isExpanding (.inr rfl) hn),
      describe_eq_describeLambda hb] at he'
    obtain ⟨-, -, he'⟩ := value?_bind_iff.1 he'
    obtain ⟨result, body, -, -, rfl⟩ := describeLambda_value? he'
    simp [Descriptor.lambda?]
  rintro heq
  cases heq
  exact hlambda hname

end StandsFor

/-- An alias of a proper type is transparent as an argument of a class, provided that describing it
does not come back to the alias or its expansion, alone or as that argument. An alias of a type
function never is. -/
theorem alias_argument_descriptor {cache cache' : RootCache} (hcache : cache.Reached u)
    (hcache' : cache'.Reached u) (config config' : Config) (alive alive' : ObjectId → Bool)
    (o o' : ObjectId) {a c : SymbolId} {b : Ty} (hab : u.StandsFor a b) (hc : u.kind c = .cls) :
    (u.Proper b → u.Apart a c b → ∀ r,
      Ends (fun n ↦ (u.makeDescriptor n config cache alive ⟨o, u.applied c [u.typeRef a]⟩).1) r ↔
        Ends (fun n ↦ (u.makeDescriptor n config' cache' alive' ⟨o', u.applied c [b]⟩).1) r) ∧
      (¬u.Proper b → ∀ d d',
        Ends (fun n ↦ (u.makeDescriptor n config cache alive ⟨o, u.applied c [u.typeRef a]⟩).1)
          (some d) →
        Ends (fun n ↦ (u.makeDescriptor n config' cache' alive' ⟨o', u.applied c [b]⟩).1)
          (some d') →
        d ≠ d') := by
  simp only [makeDescriptor_ends_iff hcache.sound, makeDescriptor_ends_iff hcache'.sound]
  obtain ⟨k, hk⟩ := hab.expansion
  have hexpansion (n : Nat) (hn : k ≤ n) : u.dealias n (u.typeRef a) = some b :=
    u.dealias_keeps hn _ b hk
  refine ⟨fun hb hapart r ↦ Build.ends_congr (n := k + 2) fun m hm ↦ ?_, fun hb d d' hd hd' ↦ ?_⟩
  · obtain ⟨m, rfl⟩ : ∃ i, m = i + 2 := ⟨m - 2, by omega⟩
    exact hab.rootDescriptor_outcome hc hb hapart (hexpansion (m + 1) (by omega))
  · obtain ⟨n, hn⟩ := hd
    obtain ⟨n', hn'⟩ := hd'
    have hm := hn (max k (max n n') + 2) (by omega)
    have hm' := hn' (max k (max n n') + 2) (by omega)
    exact hab.rootDescriptor_ne hc hb (hexpansion _ (by omega))
      (outcome_eq_some_some_iff.1 hm) (outcome_eq_some_some_iff.1 hm')

/-- The classes `Box[A]`, `Functor[F]` and `Int`; the aliases `Ints = Box[Int]` and
`Boxes = Box`. -/
def functorAliases : SymbolTable :=
  let (box, u) := initial.cls 1 "Box"
  let (_, u) := u.typeParam box "A" .covariant
  let (functor, u) := u.cls 1 "Functor"
  let (_, u) := u.typeParam functor "F" .invariant
  let (int, u) := u.cls 1 "Int"
  let (ints, u) := u.typeAlias 1 "Ints"
  let u := u.setBody ints (u.applied box [u.typeRef int])
  let (boxes, u) := u.typeAlias 1 "Boxes"
  u.setBody boxes (u.typeRef box)

theorem not_asks_int (x : Ty) : ¬functorAliases.Asks (functorAliases.typeRef 9) x := by
  intro hx
  have hnone : functorAliases.qualifierTypes (functorAliases.applied 9 []) ++ [] = [] := by
    decide
  have hmem := asks_applied (c := 9) (by decide) (by decide) hx
  rw [hnone] at hmem
  cases hmem

theorem eq_of_asks_box_int {x : Ty}
    (hx : functorAliases.Asks (functorAliases.applied 5 [functorAliases.typeRef 9]) x) :
    x = functorAliases.typeRef 9 := by
  have hone : functorAliases.qualifierTypes (functorAliases.applied 5 [functorAliases.typeRef 9]) ++
      [functorAliases.typeRef 9] = [functorAliases.typeRef 9] := by rfl
  have hmem := asks_applied (c := 5) (by decide) (by decide) hx
  rw [hone] at hmem
  exact List.mem_singleton.1 hmem

theorem dealias_ints : functorAliases.dealias 1 (functorAliases.typeRef 10) =
    some (functorAliases.applied 5 [functorAliases.typeRef 9]) := by
  have hdealias : functorAliases.dealias 1 (functorAliases.typeRef 10) =
      some (.ref (some (.ref none 1 [])) 5 [.ref (some (.ref none 1 [])) 9 []]) := by
    rfl
  have happlied : functorAliases.applied 5 [functorAliases.typeRef 9] =
      .ref (some (.ref none 1 [])) 5 [.ref (some (.ref none 1 [])) 9 []] := by
    rfl
  rw [hdealias, happlied]

theorem dealias_boxes : functorAliases.dealias 1 (functorAliases.typeRef 11) =
    some (functorAliases.typeRef 5) := by
  have hdealias : functorAliases.dealias 1 (functorAliases.typeRef 11) =
      some (.ref (some (.ref none 1 [])) 5 []) := by
    rfl
  have hbox : functorAliases.typeRef 5 = .ref (some (.ref none 1 [])) 5 [] := by rfl
  rw [hdealias, hbox]

theorem ints_standsFor :
    functorAliases.StandsFor 10 (functorAliases.applied 5 [functorAliases.typeRef 9]) := by
  constructor <;> first | decide | exact ⟨1, dealias_ints⟩

theorem ints_apart :
    functorAliases.Apart 10 5 (functorAliases.applied 5 [functorAliases.typeRef 9]) := by
  constructor
  · intro x hx
    obtain rfl : x = functorAliases.typeRef 9 := by
      obtain ⟨y, hy, hx⟩ := Relation.TransGen.head'_iff.1 hx
      obtain rfl := eq_of_asks_box_int hy
      cases hx.cases_head with
      | inl heq => exact heq.symm
      | inr h => exact absurd h.choose_spec.1 (not_asks_int _)
    refine ⟨by decide +kernel, fun n d hd ↦ ?_⟩
    rw [typeRef, dealias_applied (by decide)] at hd
    cases hd
    decide +kernel
  · intro q hq
    have hnone : functorAliases.qualifierTypes (functorAliases.applied 5
        [functorAliases.applied 5 [functorAliases.typeRef 9]]) = [] := by decide
    rw [hnone] at hq
    cases hq

theorem box_ints_descriptor :
    let u := functorAliases
    ∃ d,
      Ends (fun n ↦ (u.makeDescriptor n {} .empty (fun _ ↦ true) ⟨0, u.applied 5 [u.typeRef 10]⟩).1)
        (some d) ∧
      Ends (fun n ↦ (u.makeDescriptor n {} .empty (fun _ ↦ true)
        ⟨1, u.applied 5 [u.applied 5 [u.typeRef 9]]⟩).1) (some d) := by
  intro u
  have hvalue : (u.rootDescriptor 10 (u.applied 5 [u.typeRef 10])).value?.isSome = true := by
    decide +kernel
  obtain ⟨d, hd⟩ := Option.isSome_iff_exists.1 hvalue
  have hends :=
    makeDescriptor_ends_of_value? RootCache.Reached.empty.sound {} (fun _ ↦ true) ⟨0, _⟩ hd
  have hsame := (alias_argument_descriptor .empty .empty {} {} (fun _ ↦ true) (fun _ ↦ true) 0 1
    ints_standsFor (c := 5) (by decide)).1 (by decide) ints_apart (some d)
  exact ⟨d, hends, hsame.1 hends⟩

/-- `Functor[Boxes]` is not `Functor[Box]`, though both have descriptors. -/
theorem functor_boxes_descriptor_ne :
    let u := functorAliases
    u.StandsFor 11 (u.typeRef 5) ∧ ∃ d d',
      Ends (fun n ↦ (u.makeDescriptor n {} .empty (fun _ ↦ true) ⟨0, u.applied 7 [u.typeRef 11]⟩).1)
        (some d) ∧
      Ends (fun n ↦ (u.makeDescriptor n {} .empty (fun _ ↦ true) ⟨1, u.applied 7 [u.typeRef 5]⟩).1)
        (some d') ∧ d ≠ d' := by
  intro u
  have hab : u.StandsFor 11 (u.typeRef 5) := by
    constructor <;> first | decide | exact ⟨1, dealias_boxes⟩
  obtain ⟨halias, hbox⟩ :
      (u.rootDescriptor 10 (u.applied 7 [u.typeRef 11])).value?.isSome = true ∧
      (u.rootDescriptor 10 (u.applied 7 [u.typeRef 5])).value?.isSome = true := by decide +kernel
  obtain ⟨d, hd⟩ := Option.isSome_iff_exists.1 halias
  obtain ⟨d', hd'⟩ := Option.isSome_iff_exists.1 hbox
  have hsound := RootCache.Reached.empty.sound (u := u)
  exact ⟨hab, d, d', makeDescriptor_ends_of_value? hsound {} _ ⟨0, _⟩ hd,
    makeDescriptor_ends_of_value? hsound {} _ ⟨1, _⟩ hd',
    hab.rootDescriptor_ne (by decide) (by decide) (n := 8) (by decide +kernel) hd
      hd'⟩

end SymbolTable

end TypeTag
