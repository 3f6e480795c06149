import TypeTag.Proofs.Builds.Success
import TypeTag.Proofs.Tags.StableBases
import TypeTag.Proofs.Tags.UnappliedInheritance

namespace TypeTag

open Build (Delivers Succeeds Ends)

theorem RootCache.describe_succeeds {c : RootCache} {alive : ObjectId → Bool} {k : Handle Ty}
    {build : Unit → Build Descriptor} (h : (build ()).Succeeds) :
    (c.describe alive k build).1.Succeeds := by
  intro r hr
  unfold RootCache.describe at hr
  split at hr
  · cases hr
    exact ⟨_, rfl, trivial⟩
  · split at hr
    · cases hr
    · next heq =>
      obtain ⟨a, ha, -⟩ := h none (by rw [heq]; rfl)
      cases ha
    · cases hr
      exact ⟨_, rfl, trivial⟩

namespace SymbolTable

variable {u : SymbolTable} (hu : u.Constructible) (hfull : u.FullyApplied)
  (hrefinements : u.RefinementsApplied) {n : Nat} {t : Ty}

include hu hfull hrefinements

section StableBases

theorem stableEdge_succeeds (ρ : Bindings) (child : Descriptor) (ht : u.WellApplied t) :
    (u.stableEdge n ρ child t).Succeeds := by
  refine (describeAlone_succeeds hu hfull hrefinements ht ρ _).bind fun d ↦ ?_
  refine (Succeeds.of_value? (collapseBase_value? d)).bind fun parent ↦ ?_
  split
  · exact .pure _
  · exact (Succeeds.emit _).bind fun _ ↦ .pure _

theorem stableEdges_succeeds (ht : u.WellApplied t) : (u.stableEdges n t).Succeeds := by
  have hkeeps := hfull.keeps hu hrefinements
  refine Delivers.bind (Delivers.lift fun b hb ↦ hb) fun (ρ, own) hown ↦ ?_
  have hown := hkeeps.stableBindings ht hown
  refine (describeAlone_succeeds hu hfull hrefinements hown ρ _).bind fun child ↦ ?_
  refine Delivers.bind (Delivers.lift fun bs hbs ↦ hbs) fun bases hbases ↦ ?_
  refine Succeeds.bind (.mapM fun base hbase ↦ ?_) fun _ ↦ .pure _
  exact stableEdge_succeeds hu hfull hrefinements ρ child (hkeeps.ancestors hown hbases base hbase)

end StableBases

section UnappliedInheritance

theorem ownName_succeeds (ht : u.WellApplied t) : (u.ownName n t).Succeeds := by
  unfold ownName
  split
  · exact .pure _
  · have hr := unfailing hu hfull hrefinements n
    exact (qualifierOf_succeeds hfull hr ht).bind fun _ ↦ .pure _

theorem aliasEdge_succeeds {target : Ty} (ht : u.WellApplied t) (htarget : u.WellApplied target) :
    (u.aliasEdge n t target).Succeeds := by
  unfold aliasEdge
  split
  · refine (ownName_succeeds hu hfull hrefinements ht).bind fun c ↦ ?_
    refine (ownName_succeeds hu hfull hrefinements htarget).bind fun p ↦ ?_
    split <;> exact .pure _
  · exact .pure _

theorem unappliedEdge_succeeds (child : NameRef Descriptor) (ht : u.WellApplied t) :
    (u.unappliedEdge n child t).Succeeds := by
  unfold unappliedEdge
  split
  · exact .pure _
  · exact (describeAlone_succeeds hu hfull hrefinements ht [] false).bind fun _ ↦ .pure _

theorem unappliedEdges_succeeds (ht : u.WellApplied t) : (u.unappliedEdges n t).Succeeds := by
  have hkeeps := hfull.keeps hu hrefinements
  refine Delivers.bind (Delivers.lift fun d hd ↦ hd) fun target htarget ↦ ?_
  have htarget := hkeeps.dealiasResult_etaExpand ht htarget
  refine Succeeds.bind (aliasEdge_succeeds hu hfull hrefinements ht htarget) fun edges ↦ ?_
  refine (ownName_succeeds hu hfull hrefinements htarget).bind fun own ↦ ?_
  split
  · exact .pure _
  · next child =>
    refine Delivers.bind (Delivers.lift fun bs hbs ↦ hbs) fun bases hbases ↦ ?_
    refine Succeeds.bind (.mapM fun base hbase ↦ ?_) fun _ ↦ .pure _
    exact unappliedEdge_succeeds hu hfull hrefinements child
      (hkeeps.ancestors ht hbases base hbase)

end UnappliedInheritance

theorem tagOf_succeeds (d : Descriptor) (ht : u.WellApplied t) : (u.tagOf n d t).Succeeds := by
  have hkeeps := hfull.keeps hu hrefinements
  refine Delivers.bind (Delivers.lift fun ts hts ↦ hts) fun ts hts ↦ ?_
  refine Delivers.bind (Delivers.lift fun cs hcs ↦ hcs) fun components hcs ↦ ?_
  have hcomponents := hkeeps.closeOverAncestors (hkeeps.reachable ht hts) hcs
  have hstable : (u.stableBases n components).Succeeds :=
    Succeeds.bind (.mapM fun t ht ↦ stableEdges_succeeds hu hfull hrefinements (hcomponents t ht))
      fun _ ↦ .pure _
  have hunapplied : (u.unappliedInheritance n components).Succeeds :=
    Succeeds.bind
      (.mapM fun t ht ↦ unappliedEdges_succeeds hu hfull hrefinements (hcomponents t ht))
      fun _ ↦ .pure _
  exact hstable.bind fun _ ↦ hunapplied.bind fun _ ↦ (Succeeds.emit _).bind fun _ ↦ .pure _

/-- A request for a saturated type, or for a symbol without arguments, gives a descriptor and a tag
if it terminates. -/
theorem requests_succeed (config : Config) (c : RootCache) (alive : ObjectId → Bool)
    (k : Handle Ty) (hk : u.WellApplied k.value) :
    ((∃ r, Ends (fun n ↦ (u.makeDescriptor n config c alive k).1) r) →
      ∃ d, Ends (fun n ↦ (u.makeDescriptor n config c alive k).1) (some d)) ∧
    ((∃ r, Ends (fun n ↦ (u.makeTag n config c alive k).1) r) →
      ∃ tag, Ends (fun n ↦ (u.makeTag n config c alive k).1) (some tag)) := by
  have hroot (n : Nat) : (u.makeDescriptor n config c alive k).1.Succeeds := by
    have hbuild : (u.rootDescriptor n k.value).Succeeds := by
      refine Delivers.bind (Delivers.lift fun d hd ↦ hd) fun d hd ↦ ?_
      have hd := (hfull.keeps hu hrefinements).dealias hk hd
      exact describeAlone_succeeds hu hfull hrefinements hd [] false
    unfold makeDescriptor
    split
    · exact RootCache.describe_succeeds hbuild
    · exact hbuild
  have htag (n : Nat) : (u.makeTag n config c alive k).1.Succeeds :=
    (hroot n).bind fun d ↦ tagOf_succeeds hu hfull hrefinements d hk
  exact ⟨fun ⟨r, hr⟩ ↦ Succeeds.ends hroot hr, fun ⟨r, hr⟩ ↦ Succeeds.ends htag hr⟩

omit hu hfull hrefinements

inductive GenForm where
  | applied
  | bare

/-- The classes `Int`, `Gen[T]` and `Box[A]`, and a class behind a refinement: it inherits from
`Box[Int]`, and what it stands for is a `Box` of an `Int` with a method that returns `Gen[Int]`, or
`Gen` without its argument. -/
def refinedBox (form : GenForm) : SymbolTable :=
  let (app, u) := initial.package none "app"
  let (int, u) := u.cls app "Int"
  let (gen, u) := u.cls app "Gen"
  let (_, u) := u.typeParam gen "T" .invariant
  let (box, u) := u.cls app "Box"
  let (_, u) := u.typeParam box "A" .invariant
  let result := match form with
    | .applied => u.applied gen [u.typeRef int]
    | .bare => u.typeRef gen
  let (r, u) := u.refinement app
    (u.applied box [.refined [u.typeRef int] [.method "m" [] result]])
  u.setParents r [u.applied box [u.typeRef int]]

theorem constructible_refinedBox (form : GenForm) : (refinedBox form).Constructible := by
  refine .step (.step (.step (.step (.step (.step (.step (.step .initial (.package none "app" ?_))
    (.cls 5 "Int" ?_)) (.cls 5 "Gen" ?_)) (.typeParam 7 "T" .invariant ?_)) (.cls 5 "Box" ?_))
    (.typeParam 9 "A" .invariant ?_)) (.refinement 5 _ ?_ ?_)) (.setParents 11 _ ?_ ?_)
  all_goals cases form
  all_goals first
    | decide
    | exact fun s hs ↦ (by decide : ∀ s ∈ _, s < _) s hs
    | exact fun t ht s hs ↦ (by decide : ∀ t ∈ _, ∀ s ∈ t.symbols, s < _) t ht s hs

theorem saturated_int (form : GenForm) :
    (refinedBox form).Saturated ((refinedBox form).typeRef 6) :=
  .ref (by cases form <;> decide) (by simp)

theorem saturated_box {form : GenForm} {t : Ty} (ht : (refinedBox form).Saturated t) :
    (refinedBox form).Saturated ((refinedBox form).applied 9 [t]) := by
  have hlength : ((refinedBox form).entry 9).typeParams.length = 1 := by
    cases form <;> decide
  exact .ref hlength.symm (by simpa using ht)

theorem typeRef_int (form : GenForm) :
    (refinedBox form).typeRef 6 = .ref (some (.ref none 5 [])) 6 [] := by
  rfl

theorem parents_refinedBox (form : GenForm) : ((refinedBox form).entry 11).parents =
    [(refinedBox form).applied 9 [(refinedBox form).typeRef 6]] := by
  have hparents : ((refinedBox form).entry 11).parents =
      [.ref (some (.ref none 5 [])) 9 [.ref (some (.ref none 5 [])) 6 []]] := by
    rfl
  have happlied (as : List Ty) :
      (refinedBox form).applied 9 as = .ref (some (.ref none 5 [])) 9 as := by
    rfl
  rw [hparents, happlied, typeRef_int]

theorem body_refinedBox : ((refinedBox .applied).entry 11).body =
    some ((refinedBox .applied).applied 9 [.refined [(refinedBox .applied).typeRef 6]
      [.method "m" [] ((refinedBox .applied).applied 7 [(refinedBox .applied).typeRef 6])]]) := by
  have hbody : ((refinedBox .applied).entry 11).body = some (.ref (some (.ref none 5 [])) 9
      [.refined [.ref (some (.ref none 5 [])) 6 []]
        [.method "m" [] (.ref (some (.ref none 5 [])) 7 [.ref (some (.ref none 5 [])) 6 []])]]) := by
    rfl
  have happlied (as : List Ty) :
      (refinedBox .applied).applied 9 as = .ref (some (.ref none 5 [])) 9 as ∧
        (refinedBox .applied).applied 7 as = .ref (some (.ref none 5 [])) 7 as := by
    constructor <;> rfl
  rw [hbody, (happlied _).1, (happlied _).2, typeRef_int]

theorem fullyApplied_refinedBox (form : GenForm) : (refinedBox form).FullyApplied := by
  have hsize : (refinedBox form).size = 12 := by cases form <;> decide
  have hentry : ∀ s : Nat,
      (∀ o ∈ ((refinedBox form).entry s).owner,
        (refinedBox form).kind o = .package ∨ (refinedBox form).kind s = .typeParam) ∧
      ((refinedBox form).kind s = .typeParam → ((refinedBox form).entry s).typeParams = []) ∧
      (((refinedBox form).entry s).parents = [] ∨ s = 11) ∧
      ((refinedBox form).entry s).bounds = none ∧
      (refinedBox form).kind s ≠ .typeAlias ∧ (refinedBox form).kind s ≠ .term := by
    intro s
    by_cases hs : s < 12
    · revert s
      cases form <;> decide
    · rw [← hsize, Nat.not_lt] at hs
      simp [kind, entry_of_size_le _ hs, default]
  constructor
  · intro s hs o ho
    exact .inl (((hentry s).1 o ho).resolve_right hs)
  · exact fun s ↦ (hentry s).2.1
  · intro s p hp
    rcases (hentry s).2.2.1 with hnone | rfl
    · rw [hnone] at hp
      cases hp
    · rw [parents_refinedBox] at hp
      rw [List.mem_singleton.1 hp]
      exact saturated_box (saturated_int form)
  · intro s b hb
    rw [(hentry s).2.2.2.1] at hb
    cases hb
  · intro s t hs ht
    rcases hs with hs | hs
    · exact absurd hs (hentry s).2.2.2.2.1
    · exact absurd hs (hentry s).2.2.2.2.2

theorem refinedBox_succeeds :
    let u := refinedBox .applied
    u.Constructible ∧ u.FullyApplied ∧ u.RefinementsApplied ∧ u.WellApplied (.self 11) ∧
      (∃ d, Ends (fun n ↦ (u.makeDescriptor n {} .empty (fun _ ↦ true) ⟨0, .self 11⟩).1)
        (some d)) ∧
      ∃ tag, Ends (fun n ↦ (u.makeTag n {} .empty (fun _ ↦ true) ⟨0, .self 11⟩).1) (some tag) := by
  intro u
  have hrefinements : u.RefinementsApplied := by
    intro s t hs ht
    have hrefinement : ∀ s : Nat, s < 12 → u.kind s = .refinement → s = 11 := by decide
    have hlt : s < 12 := by
      have hsize : u.size = 12 := by decide
      exact hsize ▸ kind_lt_size (by simp [hs])
    rw [hrefinement s hlt hs, body_refinedBox] at ht
    cases ht
    have hgen : u.Saturated (u.applied 7 [u.typeRef 6]) :=
      .ref (by decide) (by simpa using saturated_int .applied)
    refine saturated_box (.refined (by simpa using saturated_int .applied) ?_)
    simpa [memberTypes, Member.types] using hgen
  have hself : u.WellApplied (.self 11) := .inl (.self 11)
  obtain ⟨hdescriptor, htag⟩ := requests_succeed (constructible_refinedBox .applied)
    (fullyApplied_refinedBox .applied) hrefinements {} .empty (fun _ ↦ true) ⟨0, .self 11⟩ hself
  obtain ⟨hroot, hends⟩ : (u.rootDescriptor 10 (.self 11)).outcome.isSome = true ∧
      (u.tag 10 (.self 11)).outcome.isSome = true := by
    decide +kernel
  have hsound := RootCache.Reached.empty.sound (u := u)
  obtain ⟨r, hr⟩ := Option.isSome_iff_exists.1 hroot
  obtain ⟨r', hr'⟩ := Option.isSome_iff_exists.1 hends
  exact ⟨constructible_refinedBox .applied, fullyApplied_refinedBox .applied, hrefinements, hself,
    hdescriptor ⟨r, (makeDescriptor_ends_iff hsound {} _ ⟨0, _⟩).2
      ((u.steady_rootDescriptor _).ends hr)⟩,
    htag ⟨r', (makeTag_ends_iff hsound {} _ ⟨0, _⟩).2 ((u.steady_tag _).ends hr')⟩⟩

/-- What is behind a refinement class has to be fully applied too: with `Gen` alone there, the tag
of the class has no descriptor for the `Box` that it inherits from. -/
theorem refinedBox_bare_fails :
    let u := refinedBox .bare
    u.Constructible ∧ u.FullyApplied ∧ u.WellApplied (.self 11) ∧
      Ends (fun n ↦ (u.makeTag n {} .empty (fun _ ↦ true) ⟨0, .self 11⟩).1) none := by
  intro u
  have hfails : (u.tag 10 (.self 11)).outcome.any (·.isNone) = true := by decide +kernel
  obtain ⟨r, hr, hnone⟩ := (Option.any_eq_true _ _).1 hfails
  rw [Option.isNone_iff_eq_none.1 hnone] at hr
  exact ⟨constructible_refinedBox .bare, fullyApplied_refinedBox .bare, .inl (.self 11),
    (makeTag_ends_iff RootCache.Reached.empty.sound {} _ ⟨0, _⟩).2 ((u.steady_tag _).ends hr)⟩

end SymbolTable

end TypeTag
