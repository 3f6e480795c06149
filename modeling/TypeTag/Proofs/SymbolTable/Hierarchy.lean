import TypeTag.Proofs.SymbolTable.BaseType
import TypeTag.Proofs.SymbolTable.Rules

namespace TypeTag.SymbolTable

open Relation

section Nominal

variable (u : SymbolTable)

/-- Symbols but packages are selected from their default qualifiers, classes have no singleton
types, and type functions bind no packages. -/
def defaultNodes : Ty.Rules where
  qualified q s := q = u.defaultQualifier s ∨ u.kind s = .package
  term s := u.kind s ≠ .cls
  param p := u.kind p ≠ .package

def IsApplied (b : SymbolId) (t : Ty) : Prop :=
  u.kind b = .cls ∧ ∃ as, t = u.applied b as ∧ as.length = (u.entry b).typeParams.length

/-- Tables of classes in packages that inherit from fully applied classes, in which every symbol has
a name of its own. -/
structure Nominal : Prop where
  owned : ∀ c, u.kind c = .cls → ∃ o, (u.entry c).owner = some o ∧ u.kind o = .package
  distinct : ∀ s s', s < u.size → s' < u.size → u.fullName s = u.fullName s' → s = s'
  /-- What is called by its own name alone is not called as a class is. -/
  inner : ∀ s o c, (u.entry s).owner = some o → u.isTransparent o = true → u.isTerm s = false →
    u.kind c = .cls → (u.entry s).name ≠ u.fullName c
  parents : ∀ c, u.kind c = .cls → ∀ p ∈ (u.entry c).parents, ∃ b, u.IsApplied b p
  types : ∀ s, ∀ t ∈ (u.entry s).types, t.Obeys u.defaultNodes

def Extends (c b : SymbolId) : Prop :=
  ∃ p ∈ (u.entry c).parents, p.symbol? = some b

def InheritsClasses (c : SymbolId) : Prop :=
  ∀ p ∈ (u.entry c).parents, ∃ q b as, p = .ref q b as ∧ u.kind b = .cls

end Nominal

variable {u : SymbolTable}

theorem symbolType_class {c : SymbolId} (hc : u.kind c = .cls) :
    u.symbolType c = u.applied c ((u.entry c).typeParams.map u.typeRef) := by
  have hk : (u.entry c).kind = .cls := hc
  simp [symbolType, hk]

section Climbs

variable {b c : SymbolId}

theorem InheritsClasses.kind_of_extends (h : u.InheritsClasses c) (hb : u.Extends c b) :
    u.kind b = .cls := by
  obtain ⟨p, hp, hb⟩ := hb
  obtain ⟨q, b', as, rfl, hk⟩ := h p hp
  cases hb
  exact hk

/-- From a class, the ways up lead through declared parents. -/
theorem climbs_iff (hparents : ∀ c, u.kind c = .cls → u.InheritsClasses c) (hc : u.IsClass c)
    (hown : u.InheritsClasses c) : (∃ k, u.Climbs b k c) ↔ ReflTransGen u.Extends c b := by
  constructor
  · rintro ⟨k, hk⟩
    induction hk with
    | here => exact .refl
    | up hp hi ha _ ih =>
      have hp := (leads_iff_of_isClass hc).1 hp
      obtain ⟨q, x, as, rfl, hx⟩ := hown _ hp
      cases (shows_class_iff hx).1 hi
      cases ha
      exact .head ⟨_, hp, rfl⟩ (ih (.inl hx) (hparents _ hx))
  · intro hpath
    induction hpath using ReflTransGen.head_induction_on with
    | refl => exact ⟨0, .here hc⟩
    | @head c x hstep _ ih =>
      have hx := hown.kind_of_extends hstep
      obtain ⟨k, hk⟩ := ih (.inl hx) (hparents x hx)
      obtain ⟨p, hp, hsymbol⟩ := hstep
      obtain ⟨q, x, as, rfl, hx⟩ := hown p hp
      cases hsymbol
      exact ⟨k + 1, .up ((leads_iff_of_isClass hc).2 hp) ((shows_class_iff hx).2 rfl) rfl hk⟩

end Climbs

section DefaultQualifier

section Instantiate

variable {apply : Ty → List Ty → Option Ty} {params : List SymbolId} {args : List Ty}
  (hparams : ∀ p ∈ params, u.kind p ≠ .package)

include hparams

theorem instantiateQualifier_default (s : SymbolId) :
    Ty.instantiateQualifier apply params args (u.defaultQualifier s) =
      some (u.defaultQualifier s) := by
  have hgo (n s : Nat) : Ty.instantiateQualifier apply params args (defaultQualifier.go u n s) =
      some (defaultQualifier.go u n s) := by
    induction n generalizing s with
    | zero => rfl
    | succ n ih =>
      unfold defaultQualifier.go
      split
      · rfl
      · cases (u.entry s).owner with
        | none => rfl
        | some o =>
          simp only [Option.bind_eq_bind, Option.bind_some]
          cases hk : u.kind o with
          | package =>
            have hidx : params.idxOf? o = none :=
              List.idxOf?_eq_none_iff.2 fun ho ↦ hparams o ho hk
            simp [Ty.instantiateQualifier, Ty.instantiate, Ty.instantiateList, hidx]
          | object | term => simp [Ty.instantiateQualifier, Ty.instantiate, ih]
          | typeParam | typeAlias => rfl
          | cls | abstractType | refinement => rfl
  exact hgo (s + 1) s

theorem instantiate_applied {s : SymbolId} (hs : s ∉ params) (as : List Ty) :
    (u.applied s as).instantiate apply params args =
      (as.mapM (Ty.instantiate apply params args)).map (u.applied s) := by
  rw [applied, Ty.instantiate, List.idxOf?_eq_none_iff.2 hs, Ty.instantiateList_eq_mapM,
    instantiateQualifier_default hparams]
  exact Option.map_eq_bind.symm

end Instantiate

theorem defaultQualifier_defaultNodes (hu : u.OwnersPrecede) (s : SymbolId) :
    ∀ q ∈ u.defaultQualifier s, q.Obeys u.defaultNodes := by
  have hgo (n s : Nat) (hs : s < n) : ∀ q ∈ defaultQualifier.go u n s, q.Obeys u.defaultNodes := by
    induction n generalizing s with
    | zero => omega
    | succ n ih =>
      intro q hq
      obtain ⟨o, ho, ⟨hk, rfl⟩ | ⟨hk, rfl⟩ | ⟨-, rfl⟩⟩ := mem_defaultQualifier_go hq
      · exact .ref (.inr hk) (by simp) (by simp)
      · have hlt : o < n := hu.lt ho hs
        refine .single (.inl ?_) ?_ (ih o hlt)
        · exact defaultQualifier_go_eq hu hlt (Nat.lt_succ_self o)
        · intro hcls
          simp [isTerm, hcls] at hk
      · exact .self o
  exact hgo (s + 1) s (Nat.lt_succ_self s)

theorem applied_defaultNodes (hu : u.OwnersPrecede) (s : SymbolId) {as : List Ty}
    (has : ∀ a ∈ as, a.Obeys u.defaultNodes) : (u.applied s as).Obeys u.defaultNodes :=
  .ref (.inl rfl) (defaultQualifier_defaultNodes hu s) has

end DefaultQualifier

theorem Nominal.obeys (h : u.Nominal) (hu : u.Constructible) : u.Obeys u.defaultNodes where
  stable := by
    rintro apply params args q q' s (rfl | hs) hparams hq'
    · rw [instantiateQualifier_default hparams] at hq'
      exact .inl (Option.some.inj hq').symm
    · exact .inr hs
  types := h.types
  params s p hp := by simp [defaultNodes, hu.paramsAreParams s p hp]
  qualified s := .inl rfl
  qualifier := defaultQualifier_defaultNodes hu.wellFormed.ownersPrecede

section Classes

variable (h : u.Nominal) {b c : SymbolId}

include h

theorem Nominal.symName_eq_iff (hu : u.Constructible) (hc : u.kind c = .cls) {s : SymbolId} :
    u.symName s = u.symName c ↔ s = c := by
  refine ⟨fun hname ↦ ?_, fun heq ↦ heq ▸ rfl⟩
  have hclass : u.symName c = .type (u.fullName c) := by
    obtain ⟨o, ho, hk⟩ := h.owned c hc
    simp [symName, ho, isTransparent, hk, isTerm, hc]
  rw [hclass] at hname
  unfold symName at hname
  dsimp only at hname
  cases hterm : u.isTerm s with
  | true => simp [hterm] at hname
  | false =>
    simp only [hterm, Bool.false_eq_true, if_false, SymName.type.injEq] at hname
    have hlt : c < u.size := kind_lt_size (by simp [hc])
    split at hname
    · next howner =>
      obtain ⟨o, ho, htransparent⟩ := (Option.any_eq_true _ _).1 howner
      exact absurd hname (h.inner s o c ho htransparent hterm hc)
    · by_cases hs : s < u.size
      · exact h.distinct s c hs hlt hname
      · -- A symbol that is not there is named like the first package.
        have hempty (x : SymbolId) (hx : (u.entry x).owner = none ∧ u.kind x = .package) :
            u.fullName x = "" := by
          have hk : (u.entry x).kind = .package := hx.2
          simp [fullName, ownerNames, hx.1, hk]
        have hnone : (u.entry s).owner = none ∧ u.kind s = .package := by
          rw [kind, entry_of_size_le u (Nat.le_of_not_lt hs)]
          exact ⟨rfl, rfl⟩
        have hzero : u.fullName 0 = u.fullName c := by
          rw [← hname, hempty s hnone, hempty 0 hu.entry_zero]
        have hpos : 0 < u.size := Nat.zero_lt_of_lt hlt
        have hk := hu.entry_zero.2
        rw [h.distinct 0 c hpos hlt hzero, hc] at hk
        cases hk

theorem Nominal.isClassParent (hu : u.Constructible) (hc : u.kind c = .cls) {p : Ty}
    (hp : p ∈ (u.entry c).parents) : u.IsClassParent c p := by
  obtain ⟨b, hb, as, rfl, -⟩ := h.parents c hc p hp
  refine ⟨hb, fun hmem ↦ ?_⟩
  have hk := hu.paramsAreParams c b hmem
  rw [hb] at hk
  cases hk

theorem Nominal.inheritsClasses (hc : u.kind c = .cls) : u.InheritsClasses c := by
  intro p hp
  obtain ⟨b, hb, as, rfl, -⟩ := h.parents c hc p hp
  exact ⟨_, b, as, rfl, hb⟩

theorem Nominal.kind_of_extends (hc : u.kind c = .cls) (hb : u.Extends c b) : u.kind b = .cls :=
  (h.inheritsClasses hc).kind_of_extends hb

theorem Nominal.agreesUp_ref (hu : u.Constructible) (hc : u.kind c = .cls) :
    u.AgreesUp (.ref c) := by
  intro i hi
  have hself : u.Shows (u.typeRef c) (.ref c) :=
    .ref (dealias_of_kind_ne (by simp [hc]) 0)
  exact agrees_of_class_parents (fun s hs p hp ↦ h.isClassParent hu hs hp) hc ⟨_, hself, hi⟩

theorem Nominal.agreesUp_self (hu : u.Constructible) (hc : u.kind c = .cls) :
    u.AgreesUp (.self c) := by
  have href := h.agreesUp_ref hu hc
  intro i hi
  rcases hi.cases_head with rfl | ⟨j, hj, hi⟩
  · refine .inl ⟨href.agrees, fun i ↦ ?_⟩
    have hk : (u.entry c).kind = .cls := hc
    have hown : u.symbolType c = u.applied c ((u.entry c).typeParams.map u.typeRef) := by
      simp [symbolType, hk]
    rw [hown]
    exact shows_class_iff hc
  · exact href i (.head hj hi)

theorem Nominal.climbs_iff (hc : u.kind c = .cls) :
    (∃ k, u.Climbs b k c) ↔ ReflTransGen u.Extends c b :=
  SymbolTable.climbs_iff (fun _ ↦ h.inheritsClasses) (.inl hc) (h.inheritsClasses hc)

end Classes

end TypeTag.SymbolTable
