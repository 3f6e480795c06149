import TypeTag.Proofs.Builds.AliasArguments
import TypeTag.Proofs.Builds.Grammar
import TypeTag.Proofs.SymbolTable.AliasChains

namespace TypeTag

open Relation
open Build (Ends value?_bind_iff value?_lift_iff outcome_eq_some_some_iff)

namespace SymbolTable

open Descriptor (intersect_parts)

variable {u : SymbolTable} {n : Nat} {root x : Ty}

structure ImproperLeaf (u : SymbolTable) (root x : Ty) : Prop where
  leaf : ∃ t, ReflTransGen u.Visits root t ∧ u.LeafOf t x
  improper : ¬u.Proper x

theorem LeafOf.isRefined_root (h : u.LeafOf root x) {n : Nat} {t : Ty}
    (ht : u.dealias n t = some root) : root.isRefined = true := by
  obtain ⟨m, ps, ms, hf, hx⟩ := h
  obtain ⟨parts, hfrom, -⟩ := Option.bind_eq_some_iff.1 hf
  cases m with
  | zero => cases hfrom
  | succ m =>
    obtain ⟨e, he, -⟩ := Option.bind_eq_some_iff.1 hfrom
    cases hrefined : e.isRefined with
    | false => cases eq_single_of_isRefined_eq_false he hrefined hf
    | true =>
      rw [dealias_dealias ht he]
      exact hrefined

theorem LeafOf.nested_of_improper (h : u.LeafOf root x) (hrefined : root.isRefined = true)
    (hx : ¬u.Proper x) {e : Descriptor}
    (he : (u.nested n (Trail.empty.enter root.measured) [] x).value? = some e) :
    ∃ ps b, e = .lambda ps b := by
  obtain ⟨k, d, hd, hleaf⟩ := h.isRefined
  have hfresh {y : Ty} (hne : y ≠ root) :
      (Trail.empty.enter root.measured).contains y.measured = false :=
    Trail.not_contains_enter hne rfl
  have hself : u.aliasRedex? root = none := by
    cases root with
    | refined ps ms => rfl
    | _ => cases hrefined
  have hxroot : x ≠ root := by
    rintro rfl
    rw [dealias_of_aliasRedex?_eq_none hself] at hd
    cases hd
    cases hleaf.symm.trans hrefined
  have hdroot : d ≠ root := by
    rintro rfl
    cases hleaf.symm.trans hrefined
  obtain ⟨n, rfl, he⟩ := nested_cases he
  obtain ⟨hcut, -⟩ | ⟨-, he⟩ := describeNested_cases he
  · unfold isExpanding at hcut
    rw [hfresh hxroot] at hcut
    split at hcut
    · cases hcut
    · obtain ⟨e, he, hcut⟩ := Option.bind_eq_some_iff.1 hcut
      rw [dealias_unique he hd, hfresh hdroot] at hcut
      cases hcut
  · rw [describe_eq_describeLambda hx] at he
    obtain ⟨-, -, he⟩ := value?_bind_iff.1 he
    obtain ⟨result, body, -, -, rfl⟩ := describeLambda_value? he
    exact ⟨_, _, rfl⟩

theorem isApplied_of_mem_combined {d : Descriptor} (hd : (u.descriptor n root).value? = some d)
    {e : Descriptor} (he : e.OccursIn d) {p : Descriptor} (hp : p ∈ e.combined) :
    p.isApplied = true ∨
      ∃ x, u.ImproperLeaf root x ∧ ∃ n trail ρ, (u.nested n trail ρ x).value? = some p := by
  have hcomposed : u.Composed (ReflTransGen u.Visits root) d :=
    describeAlone_composed (fun _ _ h hx ↦ h.tail hx) .refl hd
  have hleaf (hp : u.DescribesLeaf (ReflTransGen u.Visits root) p) : p.isApplied = true ∨
      ∃ x, u.ImproperLeaf root x ∧ ∃ n trail ρ, (u.nested n trail ρ x).value? = some p := by
    obtain ⟨t, x, hvisited, hx, n, trail, ρ, hp⟩ := hp
    by_cases hproper : u.Proper x
    · obtain ⟨j, y, hy, hrefined⟩ := hx.isRefined
      rcases nested_isNamed hy hrefined hp with hnamed | ⟨himproper, -⟩
      · left
        cases p <;> first | rfl | cases hnamed
      · exact absurd hproper himproper
    · exact .inr ⟨x, ⟨⟨t, hvisited, hx⟩, hproper⟩, n, trail, ρ, hp⟩
  rcases (hcomposed e he).of_mem_combined hp with hp | hp | hp
  · exact hleaf hp
  · exact hleaf hp
  · left
    cases p <;> first | rfl | cases hp

/-- The description of a refinement has the type functions of its improper leaves in the
combination, or nothing else is left of it. -/
theorem LeafOf.exists_combined {d : Descriptor} (hd : (u.descriptor n root).value? = some d)
    (hrefined : root.isRefined = true) (hx : u.LeafOf root x) (hproper : ¬u.Proper x) :
    ∃ p, p.isApplied = false ∧ (∃ n trail, (u.nested n trail [] x).value? = some p) ∧
      (d = p ∨ ∃ e : Descriptor, e.OccursIn d ∧ p ∈ e.combined) := by
  have hpoly : root.isPoly = false ∧ u.takesTypeArgs root = false := by
    cases root with
    | refined ps ms => exact ⟨rfl, rfl⟩
    | _ => cases hrefined
  have hleaf := hx
  obtain ⟨j, ps, ms, hf, hmem⟩ := hleaf
  rw [descriptor, describeAlone, describe_eq_describeProper hpoly.1 hpoly.2] at hd
  obtain ⟨-, -, hd⟩ := value?_bind_iff.1 hd
  obtain ⟨f, hf', hd⟩ := value?_bind_iff.1 hd
  obtain rfl : f = .compound ps ms := flatten_unique (value?_lift_iff.1 hf') hf
  obtain ⟨ds, hds, hd⟩ := value?_bind_iff.1 hd
  obtain ⟨p, hp, hval⟩ := Build.exists_mem_of_value?_mapM hds hmem
  obtain ⟨qs, b, rfl⟩ := hx.nested_of_improper hrefined hproper hval
  refine ⟨_, rfl, ⟨n, _, hval⟩, ?_⟩
  obtain ⟨es, hes, hcases⟩ := intersect_parts ds
  have hlambda : Descriptor.lambda qs b ∈ es := (hes _).2 ⟨_, hp, List.mem_singleton_self _⟩
  have hparent : Descriptor.intersect ds = .lambda qs b ∨
      .lambda qs b ∈ (Descriptor.intersect ds).combined := by
    rcases hcases with heq | ⟨-, heq⟩
    · rw [heq] at hlambda
      exact .inl (List.mem_singleton.1 hlambda).symm
    · rw [heq]
      exact .inr hlambda
  dsimp only at hd
  split at hd
  · cases hd
    exact hparent.imp_right fun hp ↦ ⟨_, .refl _, hp⟩
  · obtain ⟨decls, -, hd⟩ := value?_bind_iff.1 hd
    cases hd
    right
    rcases hparent with heq | hp
    · exact ⟨_, .refl _, List.mem_singleton.2 heq.symm⟩
    · exact ⟨_, (Descriptor.OccursIn.refl _).of_part List.mem_cons_self, hp⟩

/-- In the descriptor of a type, what is combined is no type function unless it describes a leaf
that is no proper type. But the leaves of the type itself are not refused for that: when it has a
descriptor, their type functions are in the combination, or are all that is left of it. -/
theorem combined_isApplied {c : RootCache} (hc : c.Reached u) {config : Config}
    {alive : ObjectId → Bool} {k : Handle Ty} {d : Descriptor}
    (hend : Ends (fun n ↦ (u.makeDescriptor n config c alive k).1) (some d))
    (hroot : u.dealias n k.value = some root) :
    (∀ e : Descriptor, e.OccursIn d → ∀ p ∈ e.combined, p.isApplied = true ∨
      ∃ x, u.ImproperLeaf root x ∧ ∃ n trail ρ, (u.nested n trail ρ x).value? = some p) ∧
    ∀ x, u.LeafOf root x → ¬u.Proper x → ∃ p, p.isApplied = false ∧
      (∃ n trail, (u.nested n trail [] x).value? = some p) ∧
      (d = p ∨ ∃ e : Descriptor, e.OccursIn d ∧ p ∈ e.combined) := by
  obtain ⟨m, hm⟩ := (makeDescriptor_ends_iff hc.sound config alive k).1 hend
  obtain ⟨t, ht, hd⟩ := value?_bind_iff.1 (outcome_eq_some_some_iff.1 (hm m (Nat.le_refl m)))
  have ht := value?_lift_iff.1 ht
  obtain rfl := dealias_unique hroot ht
  exact ⟨fun e he p hp ↦ isApplied_of_mem_combined hd he hp,
    fun x hx hproper ↦ LeafOf.exists_combined hd (hx.isRefined_root ht) hx hproper⟩

theorem boxWithInt_combined :
    let u := functorAliases
    let t := Ty.refined [u.typeRef 5, u.typeRef 9] [.method "f" [] (u.typeRef 9)]
    u.LeafOf t (u.typeRef 5) ∧ ¬u.Proper (u.typeRef 5) ∧ u.dealias 0 t = some t ∧
      ∃ d, Ends (fun n ↦ (u.makeDescriptor n {} .empty (fun _ ↦ true) ⟨0, t⟩).1) (some d) ∧
        (∀ e : Descriptor, e.OccursIn d → ∀ p ∈ e.combined, p.isApplied = true ∨
          ∃ x, u.ImproperLeaf t x ∧ ∃ n trail ρ, (u.nested n trail ρ x).value? = some p) ∧
        ∃ p, p.isApplied = false ∧
          (∃ n trail, (u.nested n trail [] (u.typeRef 5)).value? = some p) ∧
          (d = p ∨ ∃ e : Descriptor, e.OccursIn d ∧ p ∈ e.combined) := by
  intro u t
  have hleaf : u.LeafOf t (u.typeRef 5) := by
    have hbox : u.dealias 3 (u.typeRef 5) = some (u.typeRef 5) :=
      dealias_applied (by decide) [] 3
    have hint : u.dealias 3 (u.typeRef 9) = some (u.typeRef 9) :=
      dealias_applied (by decide) [] 3
    have hfrom : u.flattenFrom 3 3 [t] [] [] =
        some ([u.typeRef 5, u.typeRef 9], [.method "f" [] (u.typeRef 9)]) := by
      rw [flattenFrom_refined rfl, List.cons_append, flattenFrom_leaf hbox rfl]
      refine (flattenFrom_leaf hint rfl).trans ?_
      rw [if_neg (by decide +kernel)]
      rfl
    have hflat : u.flatten 3 t =
        some (.compound [u.typeRef 5, u.typeRef 9] [.method "f" [] (u.typeRef 9)]) := by
      rw [flatten, hfrom]
      rfl
    exact ⟨3, _, _, hflat, List.mem_cons_self⟩
  have himproper : ¬u.Proper (u.typeRef 5) := by decide +kernel
  have hsome : (u.rootDescriptor 10 t).value?.isSome = true := by decide +kernel
  obtain ⟨d, hd⟩ := Option.isSome_iff_exists.1 hsome
  have hend :=
    makeDescriptor_ends_of_value? RootCache.Reached.empty.sound {} (fun _ ↦ true) ⟨0, t⟩ hd
  have hself : u.dealias 0 t = some t := rfl
  obtain ⟨happlied, hcombined⟩ := combined_isApplied .empty hend hself
  exact ⟨hleaf, himproper, hself, d, hend, happlied, hcombined _ hleaf himproper⟩

/-- The refinement of `Box` and `Int` has a descriptor, an intersection of a type function with
`Int`. -/
theorem boxWithInt_combines_lambda :
    let u := functorAliases
    ∃ d, Ends (fun n ↦ (u.makeDescriptor n {} .empty (fun _ ↦ true)
        ⟨0, .refined [u.typeRef 5, u.typeRef 9] []⟩).1) (some d) ∧
      ∃ e : Descriptor, e.OccursIn d ∧ ∃ p ∈ e.combined, p.isApplied = false := by
  intro u
  have hvalue : (u.rootDescriptor 10 (.refined [u.typeRef 5, u.typeRef 9] [])).value?.any
      (·.combined.any fun p ↦ !p.isApplied) = true := by
    decide +kernel
  obtain ⟨d, hd, hcombined⟩ := (Option.any_eq_true _ _).1 hvalue
  obtain ⟨p, hp, happlied⟩ := List.any_eq_true.1 hcombined
  exact ⟨d, makeDescriptor_ends_of_value? RootCache.Reached.empty.sound {} (fun _ ↦ true) ⟨0, _⟩ hd,
    d, .refl d, p, hp, by simpa using happlied⟩

end SymbolTable

end TypeTag
