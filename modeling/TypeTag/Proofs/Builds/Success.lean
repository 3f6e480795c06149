import TypeTag.Proofs.Builds.Grammar
import TypeTag.Proofs.Steps.Delivers
import TypeTag.Proofs.SymbolTable.Saturated

namespace TypeTag

open Build (Delivers Succeeds)

namespace Descriptor

theorem isApplied_intersect {ds : List Descriptor} (h : ∀ d ∈ ds, d.isNamed = true) :
    (intersect ds).isApplied = true := by
  obtain ⟨opened, hopened, hcases⟩ := intersect_parts ds
  rcases hcases with heq | ⟨-, heq⟩
  · obtain ⟨p, hp, hd⟩ := (hopened _).1 (heq ▸ List.mem_singleton_self _)
    have hnamed := h p hp
    cases p with
    | name | full => rw [List.mem_singleton.1 hd]; rfl
    | _ => cases hnamed
  · rw [heq]
    rfl

end Descriptor

namespace SymbolTable

variable {u : SymbolTable} {n : Nat} {t : Ty}

theorem isRefined_of_flatten_single {p : Ty} (hf : u.flatten n t = some (.single p)) :
    ∃ d, u.dealias n p = some d ∧ d.isRefined = false :=
  (isRefined_of_mem_flattenFrom (flattenFrom_of_single hf) (List.mem_singleton_self p)).resolve_left
    (by simp)

/-- Types are described without errors, and saturated types not by type functions; and so are the
qualifiers of the paths to terms. -/
structure Unfailing (u : SymbolTable) (r : Recursion) : Prop where
  nested : ∀ {trail ρ t}, u.WellApplied t →
    (r.nested trail ρ t).Delivers fun d ↦ u.Saturated t → d.isApplied = true
  termQualifier : ∀ s, (r.termQualifier s).Succeeds

section Describe

variable (hu : u.Constructible) (hfull : u.FullyApplied) (hrefinements : u.RefinementsApplied)
  {r : Recursion} (hr : u.Unfailing r) {trail : Trail Measured} {ρ : Bindings}

include hr

theorem termName_succeeds (s : SymbolId) : (u.termName r s).Succeeds :=
  (hr.termQualifier _).bind fun _ ↦ .pure _

theorem describeBounds_succeeds {l h : Ty} (hl : u.WellApplied l) (hh : u.WellApplied h) :
    (u.describeBounds r trail ρ l h).Succeeds := by
  unfold describeBounds
  split
  · exact .pure _
  · split
    · exact (Succeeds.emit _).bind fun _ ↦ .pure _
    · exact (hr.nested hl).succeeds.bind fun _ ↦ (hr.nested hh).succeeds.bind fun _ ↦ .pure _

theorem nameOf_succeeds (ht : t.symbol?.isSome = true ∨ ∃ v, t = .constant v)
    (b : Boundaries Descriptor) (q : Option Descriptor) : (u.nameOf r t b q).Succeeds := by
  unfold nameOf
  split
  · exact .pure _
  · exact (termName_succeeds hr _).bind fun _ ↦ .pure _
  · next hconstant _ =>
    split
    · exact .pure _
    · next hsymbol =>
      rcases ht with ht | ⟨v, rfl⟩
      · rw [hsymbol] at ht
        cases ht
      · exact absurd rfl (hconstant v)

theorem describeSignatureType_succeeds (m : String) (ht : u.Saturated t) :
    (describeSignatureType r trail ρ m t).Succeeds := by
  refine (hr.nested (.inl ht)).bind fun d hd ↦ ?_
  rw [if_pos (hd ht)]
  exact Succeeds.pure d

theorem describeMember_succeeds {m : Member Ty} (hm : ∀ t ∈ memberTypes m, u.Saturated t) :
    (u.describeMember r trail ρ m).Succeeds := by
  cases m with
  | method m lists result =>
    refine (describeSignatureType_succeeds hr m (hm result List.mem_cons_self)).bind fun d ↦ ?_
    split
    · exact .pure _
    · refine .mapM fun ps hps ↦ .bind (.mapM fun p hp ↦ ?_) fun _ ↦ .pure _
      exact describeSignatureType_succeeds hr m
        (hm p (List.mem_cons_of_mem result (List.mem_flatten_of_mem hps hp)))
  | type m t =>
    unfold describeMember
    dsimp only
    split
    · next l h =>
      have hl : u.Saturated l := hm l (by simp [memberTypes])
      have hh : u.Saturated h := hm h (by simp [memberTypes])
      exact (describeBounds_succeeds hr (.inl hl) (.inl hh)).bind fun _ ↦ .pure _
    · next hbounds =>
      have ht : u.Saturated t := hm t (mem_memberTypes_type hbounds)
      exact (hr.nested (.inl ht)).succeeds.bind fun _ ↦ .pure _

include hfull

theorem qualifierOf_succeeds (ht : u.WellApplied t) : (u.qualifierOf r trail ρ t).Succeeds := by
  unfold qualifierOf
  cases hq : t.qualifier? with
  | none => exact .pure _
  | some q =>
    rcases hfull.qualifier ht q hq with ⟨o, ho, rfl⟩ | ⟨p, o, rfl⟩
    · simp only [Ty.symbol?, Option.any_some, isPackage, ho, beq_self_eq_true, if_true]
      exact .pure _
    · dsimp only
      split
      · exact .pure _
      · exact (termName_succeeds hr o).bind fun _ ↦ .pure _

theorem describeCut_succeeds (ht : u.WellApplied t) (hsymbol : t.symbol?.isSome = true) :
    (u.describeCut r trail ρ t).Delivers fun d ↦ d.isApplied = true := by
  unfold describeCut
  split
  · exact .pure rfl
  · refine Delivers.bind (qualifierOf_succeeds hfull hr ht) fun q _ ↦ ?_
    exact Delivers.bind (nameOf_succeeds hr (.inl hsymbol) .empty q) fun _ _ ↦ .pure rfl

include hu hrefinements

theorem headName_succeeds (ht : u.WellApplied t) (hrefined : t.isRefined = false)
    (q : Option Descriptor) : (u.headName r trail ρ t q).Succeeds := by
  unfold headName
  split
  · exact .pure _
  · have hbounds : (u.boundariesOf r trail ρ t).Succeeds := by
      unfold boundariesOf
      split
      · next l h heq =>
        obtain ⟨s, -, hsig⟩ := Option.map_eq_some_iff.1 heq
        obtain ⟨rfl, rfl⟩ := signature_eq_bounds hsig
        obtain ⟨hl, hh⟩ := (hfull.keeps hu hrefinements).bounds s
        exact describeBounds_succeeds hr hl hh
      · exact .pure _
    exact hbounds.bind fun b ↦ nameOf_succeeds hr (ht.symbol_or_literal hrefined) b q

theorem describeNamed_succeeds (ht : u.WellApplied t)
    (hrefined : ∀ e, u.dealiasResult n t = some e → e.isRefined = false) :
    (u.describeNamed n r trail ρ t).Delivers fun d ↦ d.isApplied = true := by
  have hkeeps := hfull.keeps hu hrefinements
  refine (Delivers.lift fun e he ↦ he).bind fun e he ↦ ?_
  have happlied := hkeeps.dealiasResult ht he
  refine Delivers.bind (qualifierOf_succeeds hfull hr happlied) fun q _ ↦ ?_
  refine Delivers.bind (headName_succeeds hu hfull hrefinements hr happlied (hrefined e he) q)
    fun name _ ↦ ?_
  split
  · exact .pure rfl
  · have hargs : (u.describeArgs n r trail ρ e).Succeeds := by
      refine (Succeeds.lift _).bind fun params ↦ .mapM fun a ha ↦ ?_
      have ha := hkeeps.args e happlied a.1 (List.fst_mem_of_mem_zipIdx ha)
      exact (hr.nested ha).succeeds.bind fun _ ↦ .pure _
    exact Delivers.bind hargs fun _ _ ↦ .pure rfl

end Describe

section Recursion

variable (hu : u.Constructible) (hfull : u.FullyApplied) (hrefinements : u.RefinementsApplied)
  (hr : u.Unfailing (u.recursion n)) {trail : Trail Measured} {ρ : Bindings}

include hu hfull hr

theorem describeParts_succeeds {parts : List Ty} {members : List (Member Ty)}
    (hf : u.flatten n t = some (.compound parts members)) (hparts : ∀ p ∈ parts, u.WellApplied p) :
    (parts.mapM ((u.recursion n).nested trail ρ)).Delivers fun ds ↦
      u.Saturated t → (Descriptor.intersect ds).isApplied = true := by
  have hpart (p : Ty) (hp : p ∈ parts) : ((u.recursion n).nested trail ρ p).Delivers fun d ↦
      u.Saturated t → d.isNamed = true := by
    refine (hr.nested (hparts p hp)).known.mono fun d hd ht ↦ ?_
    have hproper := (((hfull.saturated_keeps hu).flatten_compound ht hf).1 p hp).proper
    obtain ⟨k, e, he, hrefined⟩ := LeafOf.isRefined ⟨n, parts, members, hf, hp⟩
    exact (nested_isNamed he hrefined hd.2).resolve_right fun h ↦ h.1 hproper
  refine (Delivers.mapM hpart).mono fun ds hds ht ↦ ?_
  exact Descriptor.isApplied_intersect fun d hd ↦ hds d hd ht

include hrefinements

theorem describeProper_succeeds (ht : u.WellApplied t) :
    (u.describeProper n (u.recursion n) trail ρ t).Delivers fun d ↦
      u.Saturated t → d.isApplied = true := by
  have hkeeps := hfull.keeps hu hrefinements
  refine (Delivers.lift fun f hf ↦ hf).bind fun f hf ↦ ?_
  cases f with
  | single p =>
    refine (Delivers.lift fun d hd ↦ hd).bind fun d hd ↦ ?_
    have hp := hkeeps.flatten_single ht hf
    refine (describeNamed_succeeds hu hfull hrefinements hr (hkeeps.leaf hp hd) fun e he ↦ ?_).mono
      fun _ h _ ↦ h
    obtain ⟨d', hd', hrefined⟩ := isRefined_of_flatten_single hf
    obtain ⟨d₁, hd₁, he⟩ := Option.bind_eq_some_iff.1 he
    rw [(hkeeps.dealias (hkeeps.leaf hp hd) hd₁).resultType] at he
    rw [← dealias_dealias hd₁ he]
    unfold leaf at hd
    split at hd
    · cases hd
      exact dealias_unique hd' hd₁ ▸ hrefined
    · cases dealias_unique hd' hd
      exact dealias_dealias hd' hd₁ ▸ hrefined
  | compound parts members =>
    obtain ⟨hparts, hmembers⟩ := hkeeps.flatten_compound ht hf
    refine (describeParts_succeeds hu hfull hr hf hparts).bind fun ds hds ↦ ?_
    dsimp only
    split
    · exact .pure hds
    · have hdecls : (members.mapM (u.describeMember (u.recursion n) trail ρ)).Succeeds :=
        .mapM fun m hm ↦ describeMember_succeeds hr (hmembers m hm)
      exact Delivers.bind hdecls fun _ _ ↦ .pure fun _ ↦ rfl

theorem describeLambda_succeeds (ht : u.WellApplied t) :
    (u.describeLambda n (u.recursion n) trail ρ t).Succeeds := by
  refine Delivers.bind (Delivers.lift fun d hd ↦ hd) fun d hd ↦ ?_
  have hd := (hfull.keeps hu hrefinements).dealiasResult_etaExpand ht hd
  have hbody (ρ : Bindings) : (u.describeBody n (u.recursion n) trail ρ t d).Succeeds := by
    unfold describeBody
    split
    · exact (describeProper_succeeds hu hfull hrefinements hr hd).succeeds
    · exact (hr.nested hd).succeeds
  refine (hbody _).bind fun b ↦ Succeeds.bind ?_ fun _ ↦ .pure _
  unfold reportUnused
  split
  · exact .pure _
  · exact .emit _

theorem describe_succeeds (ht : u.WellApplied t) :
    (u.describe n (u.recursion n) trail ρ false t).Delivers fun d ↦
      u.Saturated t → d.isApplied = true := by
  refine Delivers.bind (Succeeds.emit _) fun _ _ ↦ ?_
  rw [if_neg Bool.false_ne_true]
  split
  · next hgeneric =>
    refine (describeLambda_succeeds hu hfull hrefinements hr ht).mono fun _ _ hsaturated ↦ ?_
    simp [hsaturated.proper.1, hsaturated.proper.2] at hgeneric
  · exact describeProper_succeeds hu hfull hrefinements hr ht

theorem describeNested_succeeds (ht : u.WellApplied t) :
    (u.describeNested n (u.recursion n) trail ρ t).Delivers fun d ↦
      u.Saturated t → d.isApplied = true := by
  refine (Delivers.lift fun cut hcut ↦ hcut).bind fun cut hcut ↦ ?_
  split
  · refine Delivers.bind (Succeeds.emit _) fun _ _ ↦ ?_
    refine (describeCut_succeeds hfull hr ht ?_).mono fun _ h _ ↦ h
    unfold isExpanding at hcut
    split at hcut
    · cases hcut
      contradiction
    · next hsymbol => simpa [Option.isSome_iff_ne_none] using hsymbol
  · exact describe_succeeds hu hfull hrefinements hr ht

end Recursion

section Builds

variable (hu : u.Constructible) (hfull : u.FullyApplied) (hrefinements : u.RefinementsApplied)

include hu hfull hrefinements

theorem unfailing (n : Nat) : u.Unfailing (u.recursion n) := by
  induction n with
  | zero =>
    refine ⟨@fun trail ρ t _ ↦ ?_, fun s ↦ ?_⟩
    · simp only [recursion, nested]
      exact .exhausted
    · simp only [recursion, termQualifier]
      exact Delivers.exhausted
  | succ n ih =>
    refine ⟨@fun trail ρ t ht ↦ ?_, fun s ↦ ?_⟩
    · simpa only [recursion, nested] using describeNested_succeeds hu hfull hrefinements ih ht
    · have hsingle : u.WellApplied (u.single s) := .inl (.single s)
      simpa only [recursion, termQualifier] using qualifierOf_succeeds hfull ih hsingle

/-- No type is refused a descriptor that stands alone, as a type function of the bindings too. -/
theorem describeAlone_succeeds (ht : u.WellApplied t) (ρ : Bindings) (force : Bool) :
    (u.describeAlone n ρ force t).Succeeds := by
  have hr := unfailing hu hfull hrefinements n
  cases force with
  | false => exact (describe_succeeds hu hfull hrefinements hr ht).succeeds
  | true =>
    refine (Succeeds.emit _).bind fun _ ↦ ?_
    rw [if_pos rfl]
    exact (describeProper_succeeds hu hfull hrefinements hr ht).succeeds.bind fun _ ↦ .pure _

end Builds

end SymbolTable

end TypeTag
