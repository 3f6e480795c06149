import TypeTag.Proofs.Descriptor.Grammar
import TypeTag.Proofs.Descriptor.RoundTrip
import TypeTag.Proofs.Steps.Delivers
import TypeTag.Proofs.Builds.Basic

namespace TypeTag

open Build

namespace Descriptor

theorem canonical_name {m : NameRef Descriptor} : (name m).Canonical ↔ m.Canonical :=
  canonical_iff.trans (and_iff_right trivial)

theorem canonical_intersect {ds : List Descriptor} (h : ∀ d ∈ ds, d.Canonical) :
    (intersect ds).Canonical := by
  have hopened : ∀ d ∈ SortedSet.ofList (ds.flatMap opened), d.Canonical := by
    intro d hd
    obtain ⟨p, hp, hd⟩ := List.mem_flatMap.1 (SortedSet.mem_ofList_iff.1 hd)
    cases p with
    | intersection es => exact (h _ hp).part hd
    | _ => exact List.mem_singleton.1 hd ▸ h _ hp
  rw [intersect_eq]
  split
  · next heq => exact hopened _ (heq ▸ List.mem_singleton_self _)
  · exact canonical_iff.2 ⟨SortedSet.increasing_ofList, hopened⟩

end Descriptor

namespace SymbolTable

open Descriptor (Canonical canonical_iff canonical_name canonical_typeName)

structure Canonizing (r : Recursion) : Prop where
  nested : ∀ {trail ρ t}, (r.nested trail ρ t).Yields Canonical
  termQualifier : ∀ {s}, (r.termQualifier s).Yields fun q ↦ ∀ d ∈ q, d.Canonical

variable {u : SymbolTable} {n : Nat}

theorem canonical_nameRef {m : NameRef Descriptor} (hb : ∀ d ∈ m.boundaries.types, d.Canonical)
    (hq : ∀ d ∈ m.qualifier, d.Canonical) : m.Canonical :=
  fun d hd ↦ (List.mem_append.1 hd).elim (hb d) fun hd ↦ hq d (Option.mem_toList.1 hd)

section Describe

variable {r : Recursion} (hr : Canonizing r) {trail : Trail Measured} {ρ : Bindings} {t : Ty}

include hr

theorem termName_canonical {s : SymbolId} :
    (u.termName r s).Yields fun m ↦ m.boundaries = .empty ∧ ∀ d ∈ m.qualifier, d.Canonical :=
  hr.termQualifier.bind fun _ hq ↦ .pure ⟨rfl, hq⟩

theorem describeQualifier_canonical {q : Ty} :
    (describeQualifier r trail ρ t q).Yields Canonical := by
  refine hr.nested.bind fun d hd ↦ ?_
  split
  · exact .pure hd
  · exact .fail

theorem qualifierOf_canonical :
    (u.qualifierOf r trail ρ t).Yields fun q ↦ ∀ d ∈ q, d.Canonical := by
  have hnone : (Pure.pure none : Build (Option Descriptor)).Yields fun q ↦ ∀ d ∈ q, d.Canonical :=
    .pure (by simp)
  have hsome {q : Ty} : (some <$> describeQualifier r trail ρ t q).Yields
      fun q ↦ ∀ d ∈ q, d.Canonical :=
    (describeQualifier_canonical hr).map fun d hd _ he ↦ Option.mem_some.1 he ▸ hd
  unfold qualifierOf
  split
  · exact hnone
  · split
    · exact hnone
    · split
      · dsimp only
        split
        · exact hnone
        · exact hsome
      · refine (termName_canonical hr).bind fun m hm ↦ .pure fun d hd ↦ ?_
        rw [← Option.mem_some.1 hd, canonical_name]
        exact canonical_nameRef (by simp [hm.1, Boundaries.types]) hm.2
      · exact hsome

theorem describeBounds_canonical {l h : Ty} :
    (u.describeBounds r trail ρ l h).Yields fun b ↦ ∀ d ∈ b.types, d.Canonical := by
  have hempty : ∀ d ∈ (Boundaries.empty : Boundaries Descriptor).types, d.Canonical := by
    simp [Boundaries.types]
  unfold describeBounds
  split
  · exact .pure hempty
  · split
    · exact Yields.any.bind fun _ _ ↦ .pure hempty
    · refine hr.nested.bind fun d hd ↦ hr.nested.bind fun e he ↦ .pure fun x hx ↦ ?_
      rcases List.mem_cons.1 hx with rfl | hx
      · exact hd
      · exact List.mem_singleton.1 hx ▸ he

theorem nameOf_canonical {b : Boundaries Descriptor} (hb : ∀ d ∈ b.types, d.Canonical)
    {q : Option Descriptor} (hq : ∀ d ∈ q, d.Canonical) :
    (u.nameOf r t b q).Yields NameRef.Canonical := by
  unfold nameOf
  split
  · exact .pure (canonical_nameRef hb hq)
  · exact (termName_canonical hr).bind fun m hm ↦ .pure (canonical_nameRef hb hm.2)
  · split
    · exact .pure (canonical_nameRef hb hq)
    · exact .fail

theorem describeCut_canonical : (u.describeCut r trail ρ t).Yields Canonical := by
  unfold describeCut
  split
  · exact .pure (canonical_typeName _)
  · refine (qualifierOf_canonical hr).bind fun q hq ↦ ?_
    exact (nameOf_canonical hr (b := .empty) (by simp [Boundaries.types]) hq).bind fun m hm ↦
      .pure (canonical_name.2 hm)

theorem headName_canonical {q : Option Descriptor} (hq : ∀ d ∈ q, d.Canonical) :
    (u.headName r trail ρ t q).Yields NameRef.Canonical := by
  unfold headName
  split
  · exact .pure (canonical_name.1 (canonical_typeName _))
  · have hbounds : (u.boundariesOf r trail ρ t).Yields fun b ↦ ∀ d ∈ b.types, d.Canonical := by
      unfold boundariesOf
      split
      · exact describeBounds_canonical hr
      · exact .pure (by simp [Boundaries.types])
    exact hbounds.bind fun b hb ↦ nameOf_canonical hr hb hq

theorem describeNamed_canonical : (u.describeNamed n r trail ρ t).Yields Canonical := by
  refine Yields.any.bind fun t _ ↦ (qualifierOf_canonical hr).bind fun q hq ↦
    (headName_canonical hr hq).bind fun m hm ↦ ?_
  split
  · exact .pure (canonical_name.2 hm)
  · have hargs : (u.describeArgs n r trail ρ t).Yields
        fun as ↦ ∀ a ∈ as, a.reference.Canonical :=
      Yields.any.bind fun params _ ↦ .mapM fun a _ ↦ hr.nested.bind fun d hd ↦ .pure hd
    refine hargs.bind fun as has ↦ .pure (canonical_iff.2 ⟨trivial, fun d hd ↦ ?_⟩)
    rcases List.mem_append.1 hd with hd | hd
    · obtain ⟨a, ha, rfl⟩ := List.mem_map.1 hd
      exact has a ha
    · exact hq d (Option.mem_toList.1 hd)

theorem describeSignatureType_canonical {m : String} :
    (describeSignatureType r trail ρ m t).Yields Canonical := by
  refine hr.nested.bind fun d hd ↦ ?_
  split
  · exact .pure hd
  · exact .fail

theorem describeMember_canonical {m : Member Ty} :
    (u.describeMember r trail ρ m).Yields fun cs ↦ ∀ c ∈ cs, ∀ d ∈ c.types, d.Canonical := by
  cases m with
  | method m lists result =>
    refine (describeSignatureType_canonical hr).bind fun d hd ↦ ?_
    have hsignature {ps : List Descriptor} (hps : ∀ p ∈ ps, p.Canonical) :
        ∀ e ∈ (Decl.signature m ps d).types, e.Canonical := by
      intro e he
      rcases List.mem_append.1 he with he | he
      · exact hps e he
      · exact List.mem_singleton.1 he ▸ hd
    split
    · refine .pure fun c hc ↦ ?_
      rw [List.mem_singleton.1 hc]
      exact hsignature (by simp)
    · exact .mapM fun ps _ ↦ (Yields.mapM fun p _ ↦ describeSignatureType_canonical hr).bind
        fun es hes ↦ .pure (hsignature hes)
  | type m t =>
    have hmember {d : Descriptor} (hd : d.Canonical) :
        ∀ c ∈ [Decl.typeMember m d], ∀ e ∈ c.types, e.Canonical := by
      intro c hc e he
      obtain rfl := List.mem_singleton.1 hc
      exact List.mem_singleton.1 he ▸ hd
    unfold describeMember
    dsimp only
    split
    · exact (describeBounds_canonical hr).bind fun b hb ↦ .pure
        (hmember (canonical_name.2 (canonical_nameRef hb (by simp))))
    · exact hr.nested.bind fun d hd ↦ .pure (hmember hd)

theorem describeProper_canonical : (u.describeProper n r trail ρ t).Yields Canonical := by
  refine Yields.any.bind fun f _ ↦ ?_
  split
  · exact Yields.any.bind fun _ _ ↦ describeNamed_canonical hr
  · refine (Yields.mapM fun p _ ↦ hr.nested).bind fun ds hds ↦ ?_
    have hparent := Descriptor.canonical_intersect hds
    dsimp only
    split
    · exact .pure hparent
    · refine (Yields.mapM fun m _ ↦ describeMember_canonical hr).bind fun css hcss ↦ .pure ?_
      refine canonical_iff.2 ⟨SortedSet.increasing_ofList, fun d hd ↦ ?_⟩
      rcases List.mem_cons.1 hd with rfl | hd
      · exact hparent
      · obtain ⟨c, hc, hd⟩ := List.mem_flatMap.1 hd
        obtain ⟨cs, hcs, hc⟩ := List.mem_flatten.1 (SortedSet.mem_ofList_iff.1 hc)
        exact hcss cs hcs c hc d hd

theorem describe_canonical {force : Bool} : (u.describe n r trail ρ force t).Yields Canonical := by
  have hlambda {ps : List String} {b : Descriptor} (hb : b.Canonical) :
      (Descriptor.lambda ps b).Canonical :=
    canonical_iff.2 ⟨trivial, fun d hd ↦ List.mem_singleton.1 hd ▸ hb⟩
  refine Yields.any.bind fun _ _ ↦ ?_
  split
  · exact (describeProper_canonical hr).bind fun b hb ↦ .pure (hlambda hb)
  · split
    · refine Yields.any.bind fun result _ ↦ ?_
      have hbody {ρ : Bindings} : (u.describeBody n r trail ρ t result).Yields Canonical := by
        unfold describeBody
        split
        · exact describeProper_canonical hr
        · exact hr.nested
      exact hbody.bind fun b hb ↦ Yields.any.bind fun _ _ ↦ .pure (hlambda hb)
    · exact describeProper_canonical hr

theorem describeNested_canonical : (u.describeNested n r trail ρ t).Yields Canonical := by
  refine Yields.any.bind fun cut _ ↦ ?_
  split
  · exact Yields.any.bind fun _ _ ↦ describeCut_canonical hr
  · exact describe_canonical hr

end Describe

theorem canonizing (u : SymbolTable) (n : Nat) : Canonizing (u.recursion n) := by
  induction n with
  | zero =>
    refine ⟨@fun trail ρ t ↦ ?_, @fun s ↦ ?_⟩
    · simp only [recursion, nested]
      exact .exhausted
    · simp only [recursion, termQualifier]
      exact Yields.exhausted
  | succ n ih =>
    refine ⟨@fun trail ρ t ↦ ?_, @fun s ↦ ?_⟩
    · simpa only [recursion, nested] using describeNested_canonical ih
    · simpa only [recursion, termQualifier] using qualifierOf_canonical ih

theorem describeAlone_canonical {ρ : Bindings} {force : Bool} {t : Ty} :
    (u.describeAlone n ρ force t).Yields Canonical :=
  describe_canonical (canonizing u n)

end SymbolTable

end TypeTag
