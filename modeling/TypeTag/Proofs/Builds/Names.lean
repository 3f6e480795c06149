import TypeTag.Proofs.Builds.Basic
import TypeTag.Proofs.Descriptor.Mentions
import TypeTag.Proofs.SymbolTable.AncestorForms

namespace TypeTag

open Build (value?_bind_iff)

namespace Descriptor

/-- A descriptor with the name, or an intersection with such a part. -/
inductive HasPart (m : SymName) : Descriptor → Prop
  | name {d : Descriptor} (h : d.symName? = some m) : HasPart m d
  | intersection {ds : List Descriptor} {d : Descriptor} (hd : d ∈ ds) (h : HasPart m d) :
    HasPart m (.intersection ds)

variable {m : SymName}

theorem exists_hasPart_of_intersect {ds : List Descriptor} (h : HasPart m (intersect ds)) :
    ∃ d ∈ ds, HasPart m d := by
  obtain ⟨opened, hparts, heq⟩ := intersect_cases ds
  have hopened {d : Descriptor} (hd : d ∈ opened) (h : HasPart m d) : ∃ d ∈ ds, HasPart m d := by
    rcases hparts d hd with hd | ⟨es, hes, hd⟩
    · exact ⟨d, hd, h⟩
    · exact ⟨_, hes, .intersection hd h⟩
  rcases heq with heq | heq
  · exact hopened (heq ▸ List.mem_singleton_self _) h
  · rw [heq] at h
    cases h with
    | name h => cases h
    | intersection hd h => exact hopened hd h

theorem HasPart.symName?_eq {d : Descriptor} (h : HasPart m d)
    (hd : ∀ ds, d ≠ .intersection ds) : d.symName? = some m := by
  cases h with
  | name h => exact h
  | intersection => exact absurd rfl (hd _)

end Descriptor

namespace SymbolTable

open Descriptor (HasPart)

variable {u : SymbolTable} {r : Recursion} {trail : Trail Measured} {n : Nat} {t : Ty}

theorem shows_of_mem_flattenFrom {m : Nat} {stack parts ps : List Ty}
    {members ms : List (Member Ty)}
    (h : u.flattenFrom m n stack parts members = some (ps, ms)) {p : Ty} (hp : p ∈ ps) :
    p ∈ parts ∨ ∃ t ∈ stack, ∀ i, u.Shows p i → u.Shows t i := by
  induction n generalizing stack parts members with
  | zero =>
    cases stack with
    | nil =>
      cases h
      exact .inl hp
    | cons t stack => cases h
  | succ n ih =>
    cases stack with
    | nil =>
      cases h
      exact .inl hp
    | cons t stack =>
      obtain ⟨d, hd, h⟩ := Option.bind_eq_some_iff.1 h
      split at h
      · rcases ih h with hp | ⟨x, hx, hshows⟩
        · exact .inl hp
        · rcases List.mem_append.1 hx with hx | hx
          · exact .inr ⟨t, List.mem_cons_self, fun i hi ↦ .refined hd hx (hshows i hi)⟩
          · exact .inr ⟨x, List.mem_cons_of_mem t hx, hshows⟩
      · rcases ih h with hp | ⟨x, hx, hshows⟩
        · split at hp
          · exact .inl hp
          · rcases List.mem_append.1 hp with hp | hp
            · exact .inl hp
            · rw [List.mem_singleton.1 hp]
              exact .inr ⟨t, List.mem_cons_self, fun i hi ↦ hi⟩
        · exact .inr ⟨x, List.mem_cons_of_mem t hx, hshows⟩

theorem shows_of_flatten {f : Flattening} (h : u.flatten n t = some f) :
    (∀ p, f = .single p → ∀ i, u.Shows p i → u.Shows t i) ∧
      ∀ ps ms, f = .compound ps ms → ∀ p ∈ ps, ∀ i, u.Shows p i → u.Shows t i := by
  have hshows {parts : List Ty} {members : List (Member Ty)}
      (hf : u.flattenFrom n n [t] [] [] = some (parts, members)) {p : Ty} (hp : p ∈ parts) (i : Head)
      (hi : u.Shows p i) : u.Shows t i := by
    rcases shows_of_mem_flattenFrom hf hp with hp | ⟨x, hx, hall⟩
    · cases hp
    · rw [List.mem_singleton.1 hx] at hall
      exact hall i hi
  constructor
  · rintro p rfl
    exact hshows (flattenFrom_of_single h) (List.mem_singleton_self p)
  · rintro ps ms rfl p hp
    exact hshows (flattenFrom_of_compound h) hp

section Described

variable (h : u.Nominal) (hu : u.Constructible) {c : SymbolId} (hc : u.kind c = .cls)

/-- What is inside a type and named as the class comes down to it. -/
def Faithful (u : SymbolTable) (c : SymbolId) (r : Recursion) : Prop :=
  ∀ {trail t d}, t.Obeys u.defaultNodes → (r.nested trail [] t).value? = some d →
    HasPart (u.symName c) d → u.Refers c t

include h hu in
theorem Nominal.kind_resolveTerm {s : SymbolId} (hs : u.kind s ≠ .cls) :
    u.kind (u.resolveTerm s) ≠ .cls := by
  have hgo (n : Nat) (seen : List SymbolId) (s : SymbolId) (hs : u.kind s ≠ .cls) :
      u.kind (resolveTerm.go u n seen s) ≠ .cls := by
    induction n generalizing seen s with
    | zero => exact hs
    | succ n ih =>
      unfold resolveTerm.go
      split
      · exact hs
      · split
        · next t ht =>
          refine ih _ t ?_
          unfold termAlias? at ht
          dsimp only at ht
          split at ht
          · next hbody =>
            cases ht
            have hobeys := (h.obeys hu).body hbody
            cases hobeys with
            | single _ ht _ => exact ht
          · cases ht
        · exact hs
  exact hgo _ _ s hs

include h hu hc

theorem Nominal.nameOf_symbol? (ht : t.Obeys u.defaultNodes) {b : Boundaries Descriptor}
    {q : Option Descriptor} {m : NameRef Descriptor} (hm : (u.nameOf r t b q).value? = some m)
    (hname : m.name = u.symName c) : t.symbol? = some c := by
  unfold nameOf at hm
  split at hm
  · obtain ⟨o, ho, hk⟩ := h.owned c hc
    cases hm
    simp [symName, ho, isTransparent, hk, isTerm, hc] at hname
  · next s =>
    obtain ⟨m', hm', hm⟩ := value?_bind_iff.1 hm
    obtain ⟨q', -, hm'⟩ := value?_bind_iff.1 hm'
    cases hm'
    cases hm
    cases ht with
    | single _ hs _ =>
      have hk := h.kind_resolveTerm hu hs
      rw [(h.symName_eq_iff hu hc).1 hname] at hk
      exact absurd hc hk
  · split at hm
    · next s hs =>
      cases hm
      rw [hs, (h.symName_eq_iff hu hc).1 hname]
    · cases hm

theorem Nominal.describeCut_refers (ht : t.Obeys u.defaultNodes) {d : Descriptor}
    (hd : (u.describeCut r trail [] t).value? = some d) (hpart : HasPart (u.symName c) d) :
    u.Refers c t := by
  obtain ⟨x, hx, -⟩ | ⟨-, q, m, -, hm, rfl⟩ := describeCut_cases hd
  · cases placeholder?_nil.symm.trans hx
  · cases hpart with
    | name hname =>
      exact (shows_of_symbol? hc ht (h.nameOf_symbol? hu hc ht hm (Option.some.inj hname))).2

theorem Nominal.describeNamed_refers (ht : t.Obeys u.defaultNodes) {d : Descriptor}
    (hd : (u.describeNamed n r trail [] t).value? = some d) (hpart : HasPart (u.symName c) d) :
    u.Refers c t := by
  obtain ⟨e, q, m, he, -, hm, hd⟩ := describeNamed_cases hd
  have hobeys := (h.obeys hu).keeps.dealiasResult ht he
  have hname : m.name = u.symName c := by
    obtain ⟨-, rfl⟩ | ⟨-, as, -, rfl⟩ := hd
    all_goals exact Option.some.inj (hpart.symName?_eq fun _ heq ↦ nomatch heq)
  obtain ⟨x, hx, -⟩ | ⟨-, b, -, hm⟩ := headName_cases hm
  · cases placeholder?_nil.symm.trans hx
  · have hsymbol := h.nameOf_symbol? hu hc hobeys hm hname
    exact (refers_dealiasResult_iff he).1 (shows_of_symbol? hc hobeys hsymbol).2

theorem Nominal.describeProper_refers (hr : u.Faithful c r) (ht : t.Obeys u.defaultNodes)
    {d : Descriptor} (hd : (u.describeProper n r trail [] t).value? = some d)
    (hpart : HasPart (u.symName c) d) : u.Refers c t := by
  obtain ⟨p, e, hf, he, hd⟩ | ⟨ps, ms, ds, hf, hds, hd⟩ := describeProper_cases hd
  all_goals obtain ⟨hsingle, hcompound⟩ := shows_of_flatten hf
  · have hp := (h.obeys hu).keeps.flatten_single ht hf
    have hrefers := h.describeNamed_refers hu hc ((h.obeys hu).keeps.leaf hp he) hd hpart
    have hp : u.Refers c p := by
      unfold leaf at he
      split at he
      · cases he
        exact hrefers
      · exact (refers_dealias_iff he).1 hrefers
    exact hp.imp (hsingle p rfl _) (hsingle p rfl _)
  · have hobeys := ((h.obeys hu).flatten_compound ht hf).of_parents
    obtain ⟨-, rfl⟩ | ⟨-, decls, -, rfl⟩ := hd
    · obtain ⟨e, he, hpart⟩ := Descriptor.exists_hasPart_of_intersect hpart
      obtain ⟨p, hp, he⟩ := Build.exists_of_mem_value?_mapM hds he
      have hrefers := hr (hobeys p hp) he hpart
      exact hrefers.imp (hcompound ps ms rfl p hp _) (hcompound ps ms rfl p hp _)
    · cases hpart with
      | name hname => cases hname

theorem Nominal.describe_refers (hr : u.Faithful c r) (ht : t.Obeys u.defaultNodes)
    {d : Descriptor} (hd : (u.describe n r trail [] false t).value? = some d)
    (hpart : HasPart (u.symName c) d) : u.Refers c t := by
  obtain ⟨-, hd⟩ | ⟨-, hd⟩ := describe_cases hd
  · obtain ⟨result, body, -, -, rfl⟩ := describeLambda_value? hd
    cases hpart with
    | name hname => cases hname
  · exact h.describeProper_refers hu hc hr ht hd hpart

theorem Nominal.faithful (n : Nat) : u.Faithful c (u.recursion n) := by
  induction n with
  | zero =>
    intro trail t d _ hd
    unfold recursion nested at hd
    cases hd
  | succ n ih =>
    intro trail t d ht hd hpart
    obtain ⟨m, hm, hd⟩ := nested_cases hd
    cases hm
    obtain ⟨-, hd⟩ | ⟨-, hd⟩ := describeNested_cases hd
    · exact h.describeCut_refers hu hc ht hd hpart
    · exact h.describe_refers hu hc ih ht hd hpart

/-- A type that is described by the name of a class comes down to the class. -/
theorem Nominal.descriptor_refers (ht : t.Obeys u.defaultNodes) {d : Descriptor}
    (hd : (u.descriptor n t).value? = some d) (hname : d.symName? = some (u.symName c)) :
    u.Refers c t :=
  h.describe_refers hu hc (h.faithful hu hc n) ht hd (.name hname)

end Described

section Names

variable (u : SymbolTable)

def bareName (c : SymbolId) : NameRef Descriptor :=
  { name := u.symName c }

variable {u} {c : SymbolId} {n : Nat} {t f : Ty}

theorem ownName_value? {m : NameRef Descriptor} (h : (u.ownName n t).value? = some (some m)) :
    ∃ s q, t.symbol? = some s ∧ m = { name := u.symName s, qualifier := q } := by
  unfold ownName at h
  split at h
  · cases h
  · next s hs =>
    obtain ⟨q, -, h⟩ := value?_bind_iff.1 h
    cases h
    exact ⟨s, q, hs, rfl⟩

theorem symbol?_etaExpand : (u.etaExpand t).symbol? = t.symbol? := by
  unfold etaExpand
  split
  · dsimp only
    split <;> rfl
  · rfl

theorem symbol?_dealiasResult (hc : u.kind c = .cls) (ht : t.symbol? = some c) {d : Ty}
    (hd : u.dealiasResult n t = some d) : d.symbol? = some c := by
  have hredex {t : Ty} (ht : t.symbol? = some c) : u.dealias n t = some t := by
    refine dealias_of_aliasRedex?_eq_none ?_ n
    cases t with
    | ref q s as =>
      cases ht
      exact aliasRedex?_ref (.inl (by simp [hc]))
    | _ => rfl
  have hresult : t.resultType.symbol? = some c := by
    cases t <;> exact ht
  rw [dealiasResult, hredex ht] at hd
  cases (hredex hresult).symm.trans hd
  exact hresult

variable (h : u.Nominal) (hc : u.kind c = .cls)

include h hc

theorem Nominal.qualifierOf_default (ht : t.qualifier? = u.defaultQualifier c) {r : Recursion}
    {trail : Trail Measured} : (u.qualifierOf r trail [] t).value? = some none := by
  obtain ⟨o, ho, hk⟩ := h.owned c hc
  rw [defaultQualifier_of_package (by simp [hc]) ho hk] at ht
  exact qualifierOf_package ht hk

theorem Nominal.ownName_class (ht : t.Obeys u.defaultNodes) (hs : t.symbol? = some c) :
    (u.ownName n t).value? = some (some (u.bareName c)) := by
  have hqualifier {r : Recursion} {trail : Trail Measured} :
      (u.qualifierOf r trail [] t).value? = some none := by
    cases ht with
    | ref hq =>
      cases hs
      rcases hq with hq | hpackage
      · refine h.qualifierOf_default hc ?_
        exact hq
      · rw [hc] at hpackage
        cases hpackage
    | single _ hs' =>
      cases hs
      exact absurd hc hs'
    | self | poly => exact qualifierOf_none rfl
    | constant | refined | bounds => cases hs
  unfold ownName
  simp only [hs]
  exact value?_bind_iff.2 ⟨none, hqualifier, rfl⟩

theorem Nominal.asName?_applied {as : List Ty} (hargs : u.takesTypeArgs (u.applied c as) = false)
    {d : Descriptor} (hd : (u.descriptor n (u.applied c as)).value? = some d) :
    d.asName? = some (u.bareName c) := by
  rw [descriptor, describeAlone, describe_eq_describeProper rfl hargs] at hd
  obtain ⟨-, -, hd⟩ := value?_bind_iff.1 hd
  cases n with
  | zero => cases hd
  | succ n =>
    rw [describeProper_applied hc hargs] at hd
    obtain ⟨q, hq, hd⟩ := value?_bind_iff.1 hd
    obtain rfl := Option.some.inj ((h.qualifierOf_default hc rfl).symm.trans hq)
    split at hd
    · cases hd
      rfl
    · obtain ⟨as', -, hd⟩ := value?_bind_iff.1 hd
      cases hd
      rfl

variable (hu : u.Constructible)

include hu

theorem Nominal.symbol?_of_ownName (ho : (u.ownName n t).value? = some (some (u.bareName c))) :
    t.symbol? = some c := by
  obtain ⟨s, q, hs, hm⟩ := ownName_value? ho
  have hname : u.symName c = u.symName s := congrArg NameRef.name hm
  rw [hs, (h.symName_eq_iff hu hc).1 hname.symm]

theorem Nominal.bareName_inj {s : SymbolId} (hs : u.bareName s = u.bareName c) : s = c :=
  (h.symName_eq_iff hu hc).1 (congrArg NameRef.name hs)

end Names

end SymbolTable

end TypeTag
