import TypeTag.Proofs.Builds.Grammar
import TypeTag.Proofs.Descriptor.TotalOrder
import TypeTag.Proofs.Tags.ClosedBases
import TypeTag.Proofs.Tags.Ordered
import TypeTag.Proofs.Tags.UnappliedInheritance

namespace TypeTag

open Build (Ends value?_bind_iff outcome_eq_some_some_iff)

namespace Descriptor

variable {d : Descriptor}

theorem Grammatical.collapsed (h : d.Grammatical) : d.collapsed.Grammatical := by
  unfold Descriptor.collapsed
  split
  · next l hl =>
    split
    · exact h
    · rw [lambda?_eq_some_iff.1 hl] at h
      exact h.of_part (List.mem_singleton_self _)
  · exact h

theorem Grammatical.bareName (h : d.Grammatical) {m : NameRef Descriptor}
    (hm : d.asName? = some m) : (name { m with boundaries := .empty }).Grammatical := by
  have hname {s : SymName} {q : Option Descriptor} (hq : ∀ e ∈ q, e.Grammatical)
      (happlied : ∀ e ∈ q, e.isApplied = true) (hliteral : s.isLiteral = true → q = none) :
      (name { name := s, qualifier := q }).Grammatical :=
    everywhere_iff.2 ⟨⟨happlied, fun hs ↦ ⟨hliteral hs, rfl⟩⟩,
      fun e he ↦ hq e (Option.mem_toList.1 he)⟩
  cases d with
  | name n =>
    cases hm
    refine hname (fun e he ↦ h.of_part ?_) h.self.1 fun hs ↦ (h.self.2 hs).1
    exact List.mem_append_right _ (Option.mem_toList.2 he)
  | full s as q =>
    cases hm
    refine hname (fun e he ↦ h.of_part ?_) h.self.2.1 fun hs ↦ ?_
    · exact List.mem_append_right _ (Option.mem_toList.2 he)
    · cases h.self.2.2.symm.trans hs
  | _ => cases hm

end Descriptor

namespace SymbolTable

open Descriptor (Grammatical)

variable {u : SymbolTable} {n : Nat}

/-- What holds of all types that are described alone holds of the stable bases. -/
theorem stableBases_reached {P : Descriptor → Prop}
    (hdescribed : ∀ {ρ force t d}, (u.describeAlone n ρ force t).value? = some d → P d)
    (hcollapsed : ∀ {d}, P d → P d.collapsed) {ts : List Ty} {m : MultiMap Descriptor Descriptor}
    (h : (u.stableBases n ts).value? = some m) : m.Reached P P := by
  obtain ⟨ess, hess, h⟩ := value?_bind_iff.1 h
  cases h
  refine .ofList fun e he ↦ ?_
  obtain ⟨es, hes, he⟩ := List.mem_flatten.1 he
  obtain ⟨t, -, hes⟩ := Build.exists_of_mem_value?_mapM hess hes
  obtain ⟨ρ, own, bases, base, d, -, hchild, -, -, hd, hparent⟩ := stableEdges_value? hes he
  exact ⟨hdescribed hchild, hparent ▸ hcollapsed (hdescribed hd)⟩

theorem unappliedInheritance_reached {Q : NameRef Descriptor → Prop}
    (hown : ∀ {t m}, (u.ownName n t).value? = some (some m) → Q m)
    (hbare : ∀ {t d m}, (u.descriptor n t).value? = some d → d.asName? = some m →
      Q { m with boundaries := .empty }) {ts : List Ty}
    {m : MultiMap (NameRef Descriptor) (NameRef Descriptor)}
    (h : (u.unappliedInheritance n ts).value? = some m) : m.Reached Q Q := by
  obtain ⟨ess, hess, h⟩ := value?_bind_iff.1 h
  cases h
  refine .filter (.ofList fun (k, m) he ↦ ?_) _
  obtain ⟨es, hes, he⟩ := List.mem_flatten.1 he
  obtain ⟨t, -, hes⟩ := Build.exists_of_mem_value?_mapM hess hes
  obtain ⟨target, own, -, htarget, hcases, -⟩ := unappliedEdges_value? (k := k) (m := m) hes
  rcases hcases he with ⟨-, hk, rfl⟩ | ⟨rfl, forms, -, f, -, hedge⟩
  · exact ⟨hown hk, hown htarget⟩
  · refine ⟨hown htarget, ?_⟩
    rcases unappliedEdge_value? hedge with ⟨-, heq⟩ | ⟨-, d, hd, heq⟩
    · cases heq
    · obtain ⟨p, hp, heq⟩ := Option.map_eq_some_iff.1 heq.symm
      cases heq
      exact hbare hd hp

theorem describeAlone_grammatical {ρ : Bindings} {force : Bool} {t : Ty} {d : Descriptor}
    (h : (u.describeAlone n ρ force t).value? = some d) : d.Grammatical :=
  (describeAlone_composed (G := fun _ ↦ True) (fun _ _ _ _ ↦ trivial) trivial h).grammatical

theorem ownName_grammatical {t : Ty} {m : NameRef Descriptor}
    (h : (u.ownName n t).value? = some (some m)) : (Descriptor.name m).Grammatical := by
  unfold ownName at h
  split at h
  · cases h
  · next s _ =>
    obtain ⟨q, hq, h⟩ := value?_bind_iff.1 h
    cases h
    have hqualifier := qualifierOf_composed
      (composing (G := fun _ ↦ True) (fun _ _ _ _ ↦ trivial) n)
      (fun _ _ ↦ trivial) (fun _ _ ↦ trivial) hq
    refine Composed.grammatical (G := fun _ ↦ True)
      (.name (fun e he ↦ nomatch he) hqualifier fun hs ↦ ?_)
    cases (isLiteral_symName s).symm.trans hs

theorem stableBases_grammatical {ts : List Ty} {m : MultiMap Descriptor Descriptor}
    (h : (u.stableBases n ts).value? = some m) : m.Reached Grammatical Grammatical :=
  stableBases_reached describeAlone_grammatical Grammatical.collapsed h

theorem unappliedInheritance_grammatical {ts : List Ty}
    {m : MultiMap (NameRef Descriptor) (NameRef Descriptor)}
    (h : (u.unappliedInheritance n ts).value? = some m) :
    m.Reached (fun k ↦ (Descriptor.name k).Grammatical) fun v ↦
      (Descriptor.name v).Grammatical :=
  unappliedInheritance_reached (Q := fun m ↦ (Descriptor.name m).Grammatical) ownName_grammatical
    (fun hd hm ↦ (describeAlone_grammatical hd).bareName hm) h

/-- Every descriptor in an answer obeys the grammar, at every depth: the descriptor of a type, and
in a tag the reference, the keys and values of the stable bases and those of the unapplied
inheritance. -/
theorem answers_grammatical {c : RootCache} (hc : c.Reached u) (config : Config)
    (alive : ObjectId → Bool) (k : Handle Ty) :
    (∀ d, Ends (fun n ↦ (u.makeDescriptor n config c alive k).1) (some d) → d.Grammatical) ∧
      ∀ tag, Ends (fun n ↦ (u.makeTag n config c alive k).1) (some tag) →
        tag.reference.Grammatical ∧
        (∀ e ∈ tag.stableBases.entries, e.1.Grammatical ∧ ∀ p ∈ e.2, p.Grammatical) ∧
        ∀ e ∈ tag.unapplied.entries, (Descriptor.name e.1).Grammatical ∧
          ∀ p ∈ e.2, (Descriptor.name p).Grammatical := by
  constructor
  · intro d hend
    obtain ⟨n, hn⟩ := (makeDescriptor_ends_iff hc.sound config alive k).1 hend
    obtain ⟨t, -, hd⟩ := value?_bind_iff.1 (outcome_eq_some_some_iff.1 (hn n (Nat.le_refl n)))
    exact describeAlone_grammatical hd
  · intro tag hend
    obtain ⟨n, hn⟩ := (makeTag_ends_iff hc.sound config alive k).1 hend
    have htag := outcome_eq_some_some_iff.1 (hn n (Nat.le_refl n))
    obtain ⟨d, ts, cs, -, ⟨m, hm⟩, -, -, hstable, hunapplied⟩ := tag_value? htag
    have hstable := stableBases_grammatical hstable
    have hunapplied := unappliedInheritance_grammatical hunapplied
    refine ⟨describeAlone_grammatical (outcome_eq_some_some_iff.1 (hm m (Nat.le_refl m))),
      fun e he ↦ ⟨hstable.key he, fun p hp ↦ hstable.value he hp⟩,
      fun e he ↦ ⟨hunapplied.key he, fun p hp ↦ hunapplied.value he hp⟩⟩

theorem refinedList_grammatical :
    let u := seqAndList
    let t := Ty.refined [u.applied 7 [u.typeRef 9], u.typeRef 9]
      [.method "f" [[u.typeRef 9]] (u.typeRef 9)]
    ∃ d tag, Ends (fun n ↦ (u.makeDescriptor n {} .empty (fun _ ↦ true) ⟨0, t⟩).1) (some d) ∧
      Ends (fun n ↦ (u.makeTag n {} .empty (fun _ ↦ true) ⟨0, t⟩).1) (some tag) ∧
      d.isRefinement = true ∧ tag.stableBases.entries ≠ [] ∧ tag.unapplied.entries ≠ [] ∧
      d.Grammatical ∧ tag.reference.Grammatical ∧
      (∀ e ∈ tag.stableBases.entries, e.1.Grammatical ∧ ∀ p ∈ e.2, p.Grammatical) ∧
      ∀ e ∈ tag.unapplied.entries, (Descriptor.name e.1).Grammatical ∧
        ∀ p ∈ e.2, (Descriptor.name p).Grammatical := by
  intro u t
  obtain ⟨hdescriptor, htag⟩ :
      (u.rootDescriptor 10 t).value?.any (·.isRefinement) = true ∧
      (u.tag 10 t).value?.any (fun tag ↦ !tag.stableBases.entries.isEmpty &&
        !tag.unapplied.entries.isEmpty) = true := by
    decide +kernel
  obtain ⟨d, hd, hrefined⟩ := (Option.any_eq_true _ _).1 hdescriptor
  obtain ⟨tag, htag, hentries⟩ := (Option.any_eq_true _ _).1 htag
  have hsound := RootCache.Reached.empty.sound (u := u)
  have hend := makeDescriptor_ends_of_value? hsound {} (fun _ ↦ true) ⟨0, t⟩ hd
  have hend' := makeTag_ends_of_value? hsound {} (fun _ ↦ true) ⟨0, t⟩ htag
  obtain ⟨hgrammar, hgrammar'⟩ := answers_grammatical (u := u) .empty {} (fun _ ↦ true) ⟨0, t⟩
  simp only [Bool.and_eq_true, Bool.not_eq_true', List.isEmpty_eq_false_iff] at hentries
  exact ⟨d, tag, hend, hend', hrefined, hentries.1, hentries.2, hgrammar d hend,
    hgrammar' tag hend'⟩

end SymbolTable

end TypeTag
