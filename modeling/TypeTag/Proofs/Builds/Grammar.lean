import TypeTag.Proofs.Builds.Trails
import TypeTag.Proofs.Descriptor.Grammar

namespace TypeTag

open Build (value?_bind_iff)

namespace SymbolTable

open Descriptor (Everywhere everywhere_iff)

variable (u : SymbolTable)

def pathTerms (t : Ty) : List SymbolId :=
  (t :: t.qualifier?.toList).filterMap fun
    | .single _ s => some s
    | _ => none

/-- What the description of a type comes to: a type that it asks for, or the singleton type of a
term whose path is in the name of the type or of what it expands to. -/
inductive Visits : Ty → Ty → Prop
  | asks {t x : Ty} (h : u.Asks t x) : Visits t x
  | cutPath {t : Ty} {s : SymbolId} (hs : s ∈ pathTerms t) : Visits t (u.single (u.resolveTerm s))
  | path {t p d e : Ty} {s : SymbolId} {n : Nat} (hf : u.flatten n t = some (.single p))
    (hl : u.leaf n p = some d) (hd : u.dealiasResult n d = some e) (hs : s ∈ pathTerms e) :
    Visits t (u.single (u.resolveTerm s))

def LeafOf (t x : Ty) : Prop :=
  ∃ n ps ms, u.flatten n t = some (.compound ps ms) ∧ x ∈ ps

def DescribesLeaf (G : Ty → Prop) (d : Descriptor) : Prop :=
  ∃ t x, G t ∧ u.LeafOf t x ∧ ∃ n trail ρ, (u.nested n trail ρ x).value? = some d

/-- Intersections combine descriptions of leaves, and so do the parents of refinements. -/
def Composed (G : Ty → Prop) : Descriptor → Prop :=
  Everywhere (Descriptor.WellFormed (u.DescribesLeaf G) fun p ↦
    u.DescribesLeaf G p ∨ p.isIntersection = true)

variable {u} {G : Ty → Prop}

namespace Composed

theorem typeName (p : String) : u.Composed G (.typeName p) :=
  everywhere_iff.2 ⟨⟨fun _ hq ↦ (nomatch hq), fun h ↦ nomatch h⟩, fun _ he ↦ nomatch he⟩

theorem name {m : NameRef Descriptor} (hbounds : ∀ e ∈ m.boundaries.types, u.Composed G e)
    (hqualifier : ∀ q ∈ m.qualifier, u.Composed G q ∧ q.isApplied = true)
    (hliteral : m.name.isLiteral = true → m.qualifier = none ∧ m.boundaries = .empty) :
    u.Composed G (.name m) := by
  refine everywhere_iff.2 ⟨⟨fun q hq ↦ (hqualifier q hq).2, hliteral⟩, fun e he ↦ ?_⟩
  exact (List.mem_append.1 he).elim (hbounds e) fun he ↦ (hqualifier e (Option.mem_toList.1 he)).1

theorem full {s : SymName} {as : List (TypeArg Descriptor)} {q : Option Descriptor} (has : as ≠ [])
    (hargs : ∀ a ∈ as, u.Composed G a.reference)
    (hqualifier : ∀ d ∈ q, u.Composed G d ∧ d.isApplied = true) (hname : s.isLiteral = false) :
    u.Composed G (.full s as q) := by
  refine everywhere_iff.2 ⟨⟨has, fun d hd ↦ (hqualifier d hd).2, hname⟩, fun e he ↦ ?_⟩
  rcases List.mem_append.1 he with he | he
  · obtain ⟨a, ha, rfl⟩ := List.mem_map.1 he
    exact hargs a ha
  · exact (hqualifier e (Option.mem_toList.1 he)).1

theorem lambda {ps : List String} {b : Descriptor} (h : u.Composed G b) :
    u.Composed G (.lambda ps b) :=
  everywhere_iff.2 ⟨trivial, fun _ he ↦ List.mem_singleton.1 he ▸ h⟩

theorem refinement {p : Descriptor} {ds : List (Decl Descriptor)} (hp : u.Composed G p)
    (hparent : u.DescribesLeaf G p ∨ p.isIntersection = true) (hds : ds ≠ [])
    (htypes : ∀ c ∈ ds, ∀ d ∈ c.types, u.Composed G d)
    (happlied : ∀ c ∈ ds, ∀ d ∈ c.signatureTypes, d.isApplied = true) :
    u.Composed G (.refinement p ds) := by
  refine everywhere_iff.2 ⟨⟨hds, hparent, happlied⟩, fun e he ↦ ?_⟩
  rcases List.mem_cons.1 he with rfl | he
  · exact hp
  · obtain ⟨c, hc, he⟩ := List.mem_flatMap.1 he
    exact htypes c hc e he

end Composed

structure Composing (u : SymbolTable) (G : Ty → Prop) (n : Nat) : Prop where
  nested : ∀ {trail ρ t d}, G t → (u.nested n trail ρ t).value? = some d → u.Composed G d
  termName : ∀ {s m}, G (u.single (u.resolveTerm s)) →
    (u.termName (u.recursion n) s).value? = some m →
    (∃ s' q, m = { name := u.symName s', qualifier := q }) ∧ u.Composed G (.name m)

theorem isLiteral_symName (s : SymbolId) : (u.symName s).isLiteral = false := by
  unfold symName
  dsimp only
  split <;> rfl

section Describe

variable {n : Nat} (hr : u.Composing G n) {trail : Trail Measured} {ρ : Bindings} {t : Ty}

include hr

theorem describeQualifier_composed {q : Ty} (hq : G q) {d : Descriptor}
    (h : (describeQualifier (u.recursion n) trail ρ t q).value? = some d) :
    u.Composed G d ∧ d.isApplied = true :=
  (describeQualifier_value? h).imp_left (hr.nested hq)

theorem qualifierOf_composed (hasks : ∀ x ∈ u.qualifierTypes t, G x)
    (hpaths : ∀ s ∈ pathTerms t, G (u.single (u.resolveTerm s))) {q : Option Descriptor}
    (h : (u.qualifierOf (u.recursion n) trail ρ t).value? = some q) :
    ∀ d ∈ q, u.Composed G d ∧ d.isApplied = true := by
  have hnone : ∀ d ∈ (none : Option Descriptor), u.Composed G d ∧ d.isApplied = true := by simp
  unfold qualifierTypes at hasks
  unfold qualifierOf at h
  cases hq : t.qualifier? with
  | none =>
    rw [hq] at h
    cases h
    exact hnone
  | some x =>
    rw [hq] at h hasks
    dsimp only at h hasks
    split at h
    · cases h
      exact hnone
    · next hpackage =>
      rw [if_neg hpackage] at hasks
      have hdescribed {x : Ty} (hx : G x)
          (h : (some <$> describeQualifier (u.recursion n) trail ρ t x).value? = some q) :
          ∀ d ∈ q, u.Composed G d ∧ d.isApplied = true := by
        rw [map_eq_pure_bind] at h
        obtain ⟨d, hd, h⟩ := value?_bind_iff.1 h
        cases h
        rintro _ ⟨rfl⟩
        exact describeQualifier_composed hr hx hd
      cases x with
      | self s =>
        dsimp only at h hasks
        split at h
        · cases h
          exact hnone
        · next hrefined =>
          rw [if_neg hrefined] at hasks
          exact hdescribed (hasks _ (List.mem_singleton_self _)) h
      | single p s =>
        obtain ⟨m, hm, h⟩ := value?_bind_iff.1 h
        cases h
        rintro _ ⟨rfl⟩
        have hs : s ∈ pathTerms t := by simp [pathTerms, hq]
        exact ⟨(hr.termName (hpaths s hs) hm).2, rfl⟩
      | _ => exact hdescribed (hasks _ (List.mem_singleton_self _)) h

theorem describeBounds_composed {l h : Ty} (hl : G l) (hh : G h) {b : Boundaries Descriptor}
    (hb : (u.describeBounds (u.recursion n) trail ρ l h).value? = some b) :
    ∀ e ∈ b.types, u.Composed G e :=
  fun e he ↦ (describeBounds_types hb e he).elim (hr.nested hl) (hr.nested hh)

theorem nameOf_composed (hpaths : ∀ s ∈ pathTerms t, G (u.single (u.resolveTerm s)))
    {b : Boundaries Descriptor} (hb : ∀ e ∈ b.types, u.Composed G e) {q : Option Descriptor}
    (hq : ∀ d ∈ q, u.Composed G d ∧ d.isApplied = true)
    (hliteral : ∀ v, t = .constant v → q = none ∧ b = .empty) {m : NameRef Descriptor}
    (h : (u.nameOf (u.recursion n) t b q).value? = some m) :
    u.Composed G (.name m) ∧ (t.args ≠ [] → m.name.isLiteral = false) := by
  unfold nameOf at h
  split at h
  · cases h
    exact ⟨.name hb hq fun _ ↦ hliteral _ rfl, fun hargs ↦ absurd rfl hargs⟩
  · next s =>
    obtain ⟨m', hm', h⟩ := value?_bind_iff.1 h
    cases h
    obtain ⟨⟨s', q', rfl⟩, hm⟩ := hr.termName (hpaths s (by simp [pathTerms])) hm'
    refine ⟨.name hb (fun d hd ↦ ⟨hm.of_part ?_, hm.self.1 d hd⟩) fun hname ↦ ?_,
      fun hargs ↦ absurd rfl hargs⟩
    · exact List.mem_append_right _ (Option.mem_toList.2 hd)
    · cases (isLiteral_symName s').symm.trans hname
  · split at h
    · next s _ =>
      cases h
      refine ⟨.name hb hq fun hname ↦ ?_, fun _ ↦ isLiteral_symName s⟩
      cases (isLiteral_symName s).symm.trans hname
    · cases h

theorem describeCut_composed (hasks : ∀ x ∈ u.qualifierTypes t, G x)
    (hpaths : ∀ s ∈ pathTerms t, G (u.single (u.resolveTerm s))) {d : Descriptor}
    (h : (u.describeCut (u.recursion n) trail ρ t).value? = some d) : u.Composed G d := by
  obtain ⟨x, -, rfl⟩ | ⟨-, q, m, hq, hm, rfl⟩ := describeCut_cases h
  · exact .typeName x
  · refine (nameOf_composed hr hpaths (by simp [Boundaries.types])
      (qualifierOf_composed hr hasks hpaths hq) ?_ hm).1
    rintro v rfl
    cases hq
    exact ⟨rfl, rfl⟩

theorem boundariesOf_composed (hbounds : ∀ x ∈ u.boundTypes t, G x) {b : Boundaries Descriptor}
    (h : (u.boundariesOf (u.recursion n) trail ρ t).value? = some b) :
    ∀ e ∈ b.types, u.Composed G e := by
  unfold boundTypes at hbounds
  unfold boundariesOf at h
  split at h
  · next l h' heq =>
    rw [heq] at hbounds
    exact describeBounds_composed hr (hbounds l (by simp)) (hbounds h' (by simp)) h
  · cases h
    exact fun e he ↦ nomatch he

theorem describeArgs_composed (hargs : ∀ x ∈ t.args, G x) {as : List (TypeArg Descriptor)}
    (h : (u.describeArgs n (u.recursion n) trail ρ t).value? = some as) :
    (t.args ≠ [] → as ≠ []) ∧ ∀ a ∈ as, u.Composed G a.reference := by
  constructor
  · intro hne
    obtain ⟨params, -, h⟩ := value?_bind_iff.1 h
    obtain ⟨x, hx⟩ := List.exists_mem_of_ne_nil _ hne
    obtain ⟨i, hi⟩ := List.mem_iff_getElem?.1 hx
    have hpair : (x, i) ∈ t.args.zipIdx := List.mem_zipIdx_iff_getElem?.2 hi
    obtain ⟨a, ha, -⟩ := Build.exists_mem_of_value?_mapM h hpair
    exact List.ne_nil_of_mem ha
  · intro a ha
    obtain ⟨x, hx, hxa⟩ := describeArgs_types h ha
    exact hr.nested (hargs x hx) hxa

theorem describeNamed_composed
    (hasks : ∀ e, u.dealiasResult n t = some e →
      ∀ x ∈ u.qualifierTypes e ++ u.boundTypes e ++ e.args, G x)
    (hpaths : ∀ e, u.dealiasResult n t = some e →
      ∀ s ∈ pathTerms e, G (u.single (u.resolveTerm s))) {d : Descriptor}
    (h : (u.describeNamed n (u.recursion n) trail ρ t).value? = some d) : u.Composed G d := by
  obtain ⟨e, q, m, he, hq, hm, h⟩ := describeNamed_cases h
  have hasks := hasks e he
  have hpaths := hpaths e he
  have hqualifier := qualifierOf_composed hr (fun x hx ↦ hasks x (by simp [hx])) hpaths hq
  have hname : u.Composed G (.name m) ∧ (e.args ≠ [] → m.name.isLiteral = false) := by
    obtain ⟨x, -, rfl⟩ | ⟨-, b, hb, hm⟩ := headName_cases hm
    · exact ⟨.typeName x, fun _ ↦ rfl⟩
    · refine nameOf_composed hr hpaths
        (boundariesOf_composed hr (fun x hx ↦ hasks x (by simp [hx])) hb) hqualifier ?_ hm
      rintro v rfl
      cases hq
      cases hb
      exact ⟨rfl, rfl⟩
  obtain ⟨-, rfl⟩ | ⟨hargs, as, has, rfl⟩ := h
  · exact hname.1
  · obtain ⟨hne, has⟩ := describeArgs_composed hr (fun x hx ↦ hasks x (by simp [hx])) has
    exact .full (hne hargs) has hqualifier (hname.2 hargs)

theorem describeSignatureType_composed {m : String} (ht : G t) {d : Descriptor}
    (h : (describeSignatureType (u.recursion n) trail ρ m t).value? = some d) :
    u.Composed G d ∧ d.isApplied = true :=
  (describeSignatureType_value? h).imp_left (hr.nested ht)

theorem describeMethod_composed {m : String} {lists : List (List Ty)} {result : Ty}
    (htypes : ∀ x ∈ memberTypes (.method m lists result), G x) {ds : List (Decl Descriptor)}
    (h : (u.describeMember (u.recursion n) trail ρ (.method m lists result)).value? = some ds) :
    ds ≠ [] ∧ ∀ c ∈ ds, (∀ d ∈ c.types, u.Composed G d) ∧
      ∀ d ∈ c.signatureTypes, d.isApplied = true := by
  have hresult : G result := htypes result List.mem_cons_self
  obtain ⟨r, hd, h⟩ := value?_bind_iff.1 h
  have hd := describeSignatureType_composed hr hresult hd
  have hsignature {ps : List Descriptor}
      (hps : ∀ d ∈ ps, u.Composed G d ∧ d.isApplied = true) :
      (∀ d ∈ (Decl.signature m ps r).types, u.Composed G d) ∧
        ∀ d ∈ (Decl.signature m ps r).signatureTypes, d.isApplied = true := by
    have hall : ∀ d ∈ ps ++ [r], u.Composed G d ∧ d.isApplied = true := by
      intro d hmem
      rcases List.mem_append.1 hmem with hmem | hmem
      · exact hps d hmem
      · exact List.mem_singleton.1 hmem ▸ hd
    exact ⟨fun d hd ↦ (hall d hd).1, fun d hd ↦ (hall d hd).2⟩
  split at h
  · cases h
    refine ⟨List.cons_ne_nil _ _, fun c hc ↦ ?_⟩
    rw [List.mem_singleton.1 hc]
    exact hsignature (by simp)
  · next hlists =>
    constructor
    · obtain ⟨ps, hps⟩ := List.exists_mem_of_ne_nil lists (by simpa using hlists)
      obtain ⟨c, hc, -⟩ := Build.exists_mem_of_value?_mapM h hps
      exact List.ne_nil_of_mem hc
    · intro c hc
      obtain ⟨ps, hps, hb⟩ := Build.exists_of_mem_value?_mapM h hc
      obtain ⟨es, hes, hb⟩ := value?_bind_iff.1 hb
      cases hb
      refine hsignature fun d hd ↦ ?_
      obtain ⟨p, hp, hd⟩ := Build.exists_of_mem_value?_mapM hes hd
      have hmem : p ∈ memberTypes (.method m lists result) :=
        List.mem_cons_of_mem result (List.mem_flatten_of_mem hps hp)
      exact describeSignatureType_composed hr (htypes p hmem) hd

theorem describeTypeMember_composed {m : String} (htypes : ∀ x ∈ memberTypes (.type m t), G x)
    {ds : List (Decl Descriptor)}
    (h : (u.describeMember (u.recursion n) trail ρ (.type m t)).value? = some ds) :
    ds ≠ [] ∧ ∀ c ∈ ds, (∀ d ∈ c.types, u.Composed G d) ∧
      ∀ d ∈ c.signatureTypes, d.isApplied = true := by
  have hsingle {d : Descriptor} (hd : u.Composed G d) :
      [Decl.typeMember m d] ≠ [] ∧ ∀ c ∈ [Decl.typeMember m d],
        (∀ d ∈ c.types, u.Composed G d) ∧ ∀ d ∈ c.signatureTypes, d.isApplied = true := by
    simpa [Decl.types, Decl.signatureTypes] using hd
  unfold describeMember at h
  dsimp only at h
  split at h
  · next l h' =>
    obtain ⟨b, hb, h⟩ := value?_bind_iff.1 h
    cases h
    have hbounds := describeBounds_composed hr (htypes l (by simp [memberTypes]))
      (htypes h' (by simp [memberTypes])) hb
    refine hsingle (.name hbounds (by simp) fun hname ↦ ?_)
    cases hname
  · next hne =>
    obtain ⟨d, hd, h⟩ := value?_bind_iff.1 h
    cases h
    exact hsingle (hr.nested (htypes t (mem_memberTypes_type hne)) hd)

theorem describeMember_composed {m : Member Ty} (htypes : ∀ x ∈ memberTypes m, G x)
    {ds : List (Decl Descriptor)}
    (h : (u.describeMember (u.recursion n) trail ρ m).value? = some ds) :
    ds ≠ [] ∧ ∀ c ∈ ds, (∀ d ∈ c.types, u.Composed G d) ∧
      ∀ d ∈ c.signatureTypes, d.isApplied = true := by
  cases m with
  | method => exact describeMethod_composed hr htypes h
  | type => exact describeTypeMember_composed hr htypes h

variable (hvisits : ∀ x, u.Visits t x → G x) (ht : G t)

include hvisits ht

theorem describeProper_composed {d : Descriptor}
    (h : (u.describeProper n (u.recursion n) trail ρ t).value? = some d) : u.Composed G d := by
  obtain ⟨p, e, hf, he, h⟩ | ⟨parts, members, ds, hf, hds, h⟩ := describeProper_cases h
  · exact describeNamed_composed hr
      (fun e' he' x hx ↦ hvisits x (.asks (.named hf he he' hx)))
      (fun e' he' s hs ↦ hvisits _ (.path hf he he' hs)) h
  · have hparts : ∀ d ∈ ds, u.DescribesLeaf G d ∧ u.Composed G d := by
      intro d hd
      obtain ⟨p, hp, hd⟩ := Build.exists_of_mem_value?_mapM hds hd
      exact ⟨⟨t, p, ht, ⟨n, parts, members, hf, hp⟩, n, trail, ρ, hd⟩,
        hr.nested (hvisits p (.asks (.part hf hp))) hd⟩
    obtain ⟨hcomposed, hparent⟩ := Descriptor.intersect_wellFormed hparts
    obtain ⟨-, rfl⟩ | ⟨hmembers, decls, hdecls, rfl⟩ := h
    · exact hcomposed
    · have hmember {m : Member Ty} (hm : m ∈ members) {cs : List (Decl Descriptor)}
          (hcs : (u.describeMember (u.recursion n) trail ρ m).value? = some cs) :=
        describeMember_composed hr (fun x hx ↦ hvisits x (.asks (.member hf hm hx))) hcs
      have hdecl {c : Decl Descriptor} (hc : c ∈ SortedSet.ofList decls.flatten) :
          (∀ d ∈ c.types, u.Composed G d) ∧ ∀ d ∈ c.signatureTypes, d.isApplied = true := by
        obtain ⟨cs, hcs, hc⟩ := List.mem_flatten.1 (SortedSet.mem_ofList_iff.1 hc)
        obtain ⟨m, hm, hcs⟩ := Build.exists_of_mem_value?_mapM hdecls hcs
        exact (hmember hm hcs).2 c hc
      refine .refinement hcomposed hparent ?_ (fun c hc ↦ (hdecl hc).1) fun c hc ↦ (hdecl hc).2
      obtain ⟨m, hm⟩ := List.exists_mem_of_ne_nil members hmembers
      obtain ⟨cs, hcs, hval⟩ := Build.exists_mem_of_value?_mapM hdecls hm
      obtain ⟨c, hc⟩ := List.exists_mem_of_ne_nil cs (hmember hm hval).1
      exact List.ne_nil_of_mem (SortedSet.mem_ofList_iff.2 (List.mem_flatten_of_mem hcs hc))

theorem describe_composed {d : Descriptor}
    (h : (u.describe n (u.recursion n) trail ρ false t).value? = some d) : u.Composed G d := by
  obtain ⟨hgeneric, h⟩ | ⟨-, h⟩ := describe_cases h
  · obtain ⟨result, body, hresult, hbody, rfl⟩ := describeLambda_value? h
    refine .lambda ?_
    unfold describeBody at hbody
    split at hbody
    · next heq => exact describeProper_composed hr hvisits ht (heq ▸ hbody)
    · next hne =>
      have himproper : ¬u.Proper t := fun hproper ↦ by simp [hproper.1, hproper.2] at hgeneric
      exact hr.nested (hvisits result (.asks (.result himproper hresult hne))) hbody
  · exact describeProper_composed hr hvisits ht h

theorem describeNested_composed {d : Descriptor}
    (h : (u.describeNested n (u.recursion n) trail ρ t).value? = some d) : u.Composed G d := by
  obtain ⟨-, h⟩ | ⟨-, h⟩ := describeNested_cases h
  · exact describeCut_composed hr (fun x hx ↦ hvisits x (.asks (.cut hx)))
      (fun s hs ↦ hvisits _ (.cutPath hs)) h
  · exact describe_composed hr hvisits ht h

end Describe

section Builds

variable (hG : ∀ t x, G t → u.Visits t x → G x)

include hG

theorem composing (n : Nat) : u.Composing G n := by
  induction n with
  | zero =>
    refine ⟨@fun trail ρ t _ _ h ↦ ?_, @fun s m _ h ↦ ?_⟩
    · obtain ⟨m, hm, -⟩ := nested_cases h
      cases hm
    · obtain ⟨q, hq, -⟩ := value?_bind_iff.1 h
      have hq : (u.termQualifier 0 (u.resolveTerm s)).value? = some q := hq
      rw [termQualifier] at hq
      cases hq
  | succ n ih =>
    refine ⟨@fun trail ρ t _ ht h ↦ ?_, @fun s m hs h ↦ ?_⟩
    · obtain ⟨m, hm, h⟩ := nested_cases h
      cases hm
      exact describeNested_composed ih (fun x hx ↦ hG t x ht hx) ht h
    · obtain ⟨q, hq, h⟩ := value?_bind_iff.1 h
      cases h
      have hq : (u.termQualifier (n + 1) (u.resolveTerm s)).value? = some q := hq
      rw [termQualifier] at hq
      refine ⟨⟨_, q, rfl⟩, .name (by simp [Boundaries.types]) ?_ fun hname ↦ ?_⟩
      · exact qualifierOf_composed ih (fun x hx ↦ hG _ x hs (.asks (.cut hx)))
          (fun s' hs' ↦ hG _ _ hs (.cutPath hs')) hq
      · cases (isLiteral_symName _).symm.trans hname

/-- The description of a type that stands alone obeys the grammar, as a type function of the
bindings too. -/
theorem describeAlone_composed {n : Nat} {ρ : Bindings} {force : Bool} {t : Ty} (ht : G t)
    {d : Descriptor} (h : (u.describeAlone n ρ force t).value? = some d) : u.Composed G d := by
  have hvisits (x : Ty) (hx : u.Visits t x) : G x := hG t x ht hx
  cases force with
  | false => exact describe_composed (composing hG n) hvisits ht h
  | true =>
    obtain ⟨body, hbody, rfl⟩ := describe_force_value? h
    exact .lambda (describeProper_composed (composing hG n) hvisits ht hbody)

end Builds

section Leaves

variable {n k : Nat} {t d : Ty}

theorem isRefined_of_mem_flattenFrom {m : Nat} {stack parts ps : List Ty}
    {members ms : List (Member Ty)}
    (h : u.flattenFrom m n stack parts members = some (ps, ms)) {x : Ty} (hx : x ∈ ps) :
    x ∈ parts ∨ ∃ d, u.dealias m x = some d ∧ d.isRefined = false := by
  induction n generalizing stack parts members with
  | zero =>
    cases stack with
    | nil =>
      cases h
      exact .inl hx
    | cons t stack => cases h
  | succ n ih =>
    cases stack with
    | nil =>
      cases h
      exact .inl hx
    | cons t stack =>
      obtain ⟨d, hd, h⟩ := Option.bind_eq_some_iff.1 h
      split at h
      · exact ih h
      · next hrefined =>
        refine (ih h).elim (fun hx ↦ ?_) .inr
        split at hx
        · exact .inl hx
        · refine (List.mem_append.1 hx).imp_right fun hx ↦ ?_
          rw [List.mem_singleton.1 hx]
          refine ⟨d, hd, ?_⟩
          cases d with
          | refined ps ms => exact absurd rfl (hrefined ps ms)
          | _ => rfl

theorem LeafOf.isRefined {x : Ty} (h : u.LeafOf t x) :
    ∃ n d, u.dealias n x = some d ∧ d.isRefined = false := by
  obtain ⟨n, ps, ms, hf, hx⟩ := h
  exact ⟨n, (isRefined_of_mem_flattenFrom (flattenFrom_of_compound hf) hx).resolve_left (by simp)⟩

theorem eq_single_of_isRefined_eq_false (hd : u.dealias k t = some d)
    (hrefined : d.isRefined = false) {f : Flattening} (hf : u.flatten n t = some f) :
    f = .single t := by
  cases n with
  | zero => cases hf
  | succ n =>
    obtain ⟨parts, hfrom, -⟩ := Option.bind_eq_some_iff.1 hf
    obtain ⟨e, he, -⟩ := Option.bind_eq_some_iff.1 hfrom
    have hflat := flatten_eq_single he (dealias_unique hd he ▸ hrefined)
    exact Option.some.inj (hf.symm.trans hflat)

theorem describeNamed_isNamed {r : Recursion} {trail : Trail Measured} {ρ : Bindings}
    {e : Descriptor} (h : (u.describeNamed n r trail ρ t).value? = some e) : e.isNamed = true := by
  obtain ⟨t', q, m, -, -, -, ⟨-, rfl⟩ | ⟨-, as, -, rfl⟩⟩ := describeNamed_cases h <;> rfl

theorem nested_isNamed (hd : u.dealias k t = some d) (hrefined : d.isRefined = false)
    {trail : Trail Measured} {ρ : Bindings} {e : Descriptor}
    (h : (u.nested n trail ρ t).value? = some e) :
    e.isNamed = true ∨ (¬u.Proper t ∧ ∃ ps b, e = .lambda ps b) := by
  obtain ⟨m, rfl, h⟩ := nested_cases h
  obtain ⟨-, h⟩ | ⟨-, h⟩ := describeNested_cases h
  · obtain ⟨x, -, rfl⟩ | ⟨-, q, m', -, -, rfl⟩ := describeCut_cases h <;> exact .inl rfl
  · obtain ⟨hgeneric, h⟩ | ⟨-, h⟩ := describe_cases h
    · obtain ⟨result, body, -, -, rfl⟩ := describeLambda_value? h
      exact .inr ⟨fun hproper ↦ by simp [hproper.1, hproper.2] at hgeneric, _, _, rfl⟩
    · obtain ⟨p, l, -, -, h⟩ | ⟨ps, ms, ds, hf, -⟩ := describeProper_cases h
      · exact .inl (describeNamed_isNamed h)
      · cases eq_single_of_isRefined_eq_false hd hrefined hf

theorem DescribesLeaf.isNamed_or {e : Descriptor} (h : u.DescribesLeaf G e) :
    e.isNamed = true ∨ ∃ ps b, e = .lambda ps b := by
  obtain ⟨t, x, -, hx, n, trail, ρ, h⟩ := h
  obtain ⟨k, d, hd, hrefined⟩ := hx.isRefined
  exact (nested_isNamed hd hrefined h).imp_right And.right

end Leaves

theorem Composed.grammatical {d : Descriptor} (h : u.Composed G d) : d.Grammatical := by
  have hleaf {p : Descriptor} (hp : u.DescribesLeaf G p) :
      p.isIntersection = false ∧ p.isRefinement = false := by
    rcases hp.isNamed_or with hp | ⟨ps, b, rfl⟩
    · cases p <;> first | exact ⟨rfl, rfl⟩ | cases hp
    · exact ⟨rfl, rfl⟩
  refine h.imp fun e ↦ Descriptor.WellFormed.imp (fun p ↦ hleaf) fun p hp ↦ ?_
  rcases hp with hp | hp
  · exact (hleaf hp).2
  · cases p <;> first | rfl | cases hp

end SymbolTable

end TypeTag
