import TypeTag.Proofs.Builds.Trails
import TypeTag.Proofs.SymbolTable.Hierarchy

namespace TypeTag.SymbolTable

/-- Every reference in the type has as many arguments as its symbol has parameters, and is selected
from where the symbol is owned. There are no type functions, and no bounds but those of members. -/
inductive Saturated (u : SymbolTable) : Ty → Prop
  | ref {s : SymbolId} {as : List Ty} (length : as.length = (u.entry s).typeParams.length)
    (args : ∀ a ∈ as, Saturated u a) : Saturated u (.ref (u.defaultQualifier s) s as)
  | single (s : SymbolId) : Saturated u (.single (u.defaultQualifier s) s)
  | self (s : SymbolId) : Saturated u (.self s)
  | constant (v : String) : Saturated u (.constant v)
  | refined {ps : List Ty} {ms : List (Member Ty)} (parents : ∀ p ∈ ps, Saturated u p)
    (members : ∀ m ∈ ms, ∀ t ∈ memberTypes m, Saturated u t) : Saturated u (.refined ps ms)

/-- Tables in which packages and objects own all symbols but type parameters, no type parameter
takes arguments, and every parent, bound, alias and declared type of a term is saturated. -/
structure FullyApplied (u : SymbolTable) : Prop where
  owner : ∀ s, u.kind s ≠ .typeParam → ∀ o ∈ (u.entry s).owner,
    u.kind o = .package ∨ u.kind o = .object
  firstOrder : ∀ s, u.kind s = .typeParam → (u.entry s).typeParams = []
  parents : ∀ s, ∀ p ∈ (u.entry s).parents, u.Saturated p
  bounds : ∀ s b, (u.entry s).bounds = some b → u.Saturated b.1 ∧ u.Saturated b.2
  body : ∀ s t, u.kind s = .typeAlias ∨ u.kind s = .term → (u.entry s).body = some t →
    u.Saturated t

def RefinementsApplied (u : SymbolTable) : Prop :=
  ∀ s t, u.kind s = .refinement → (u.entry s).body = some t → u.Saturated t

/-- A saturated type, or the reference to a symbol without any arguments. -/
def WellApplied (u : SymbolTable) (t : Ty) : Prop :=
  u.Saturated t ∨ ∃ s, t = u.typeRef s

variable {u : SymbolTable} {t : Ty}

namespace Saturated

theorem of_args (ht : u.Saturated t) : ∀ a ∈ t.args, u.Saturated a := by
  cases ht with
  | ref _ args => exact args
  | _ => exact fun a ha ↦ nomatch ha

theorem of_parents (ht : u.Saturated t) : ∀ p ∈ t.parents, u.Saturated p := by
  cases ht with
  | refined parents _ => exact parents
  | _ => exact fun p hp ↦ nomatch hp

theorem of_members (ht : u.Saturated t) : ∀ m ∈ t.members, ∀ x ∈ memberTypes m, u.Saturated x := by
  cases ht with
  | refined _ members => exact members
  | _ => exact fun m hm ↦ nomatch hm

theorem proper (ht : u.Saturated t) : u.Proper t := by
  cases ht with
  | ref length _ => exact ⟨rfl, takesTypeArgs_applied length⟩
  | _ => exact ⟨rfl, rfl⟩

theorem memberTypes_type (ht : u.Saturated t) (m : String) : memberTypes (.type m t) = [t] := by
  cases ht <;> rfl

section Substitute

variable {params : List SymbolId} {args : List Ty} (hparams : ∀ p ∈ params, u.kind p = .typeParam)
  (hfirst : ∀ p ∈ params, (u.entry p).typeParams = []) (hargs : ∀ a ∈ args, u.Saturated a)

section Instantiate

variable {apply : Ty → List Ty → Option Ty}

theorem of_instantiateMember {m m' : Member Ty}
    (ih : ∀ t ∈ memberTypes m, ∀ t', t.instantiate apply params args = some t' → u.Saturated t')
    (h : Ty.instantiateMember apply params args m = some m') :
    ∀ x ∈ memberTypes m', u.Saturated x := by
  intro x hx
  cases m with
  | method n pss r =>
    obtain ⟨qss, hqss, h'⟩ := Option.bind_eq_some_iff.1 h
    obtain ⟨r', hr', h'⟩ := Option.bind_eq_some_iff.1 h'
    cases h'
    obtain ⟨t, ht, hxt⟩ := Ty.mem_types_of_instantiateMember h hx
    exact ih t ht x hxt
  | type n t =>
    obtain ⟨t', ht', h⟩ := Option.bind_eq_some_iff.1 h
    cases h
    cases t with
    | bounds l u =>
      obtain ⟨l', hl', ht'⟩ := Option.bind_eq_some_iff.1 ht'
      obtain ⟨u', hu', ht'⟩ := Option.bind_eq_some_iff.1 ht'
      cases ht'
      rcases List.mem_cons.1 hx with rfl | hx
      · exact ih l List.mem_cons_self _ hl'
      · exact ih u (List.mem_cons_of_mem l List.mem_cons_self) _ (List.mem_singleton.1 hx ▸ hu')
    | _ =>
      have hsaturated := ih _ List.mem_cons_self t' ht'
      rw [hsaturated.memberTypes_type] at hx
      exact List.mem_singleton.1 hx ▸ hsaturated

include hparams hfirst hargs

theorem instantiate (ht : u.Saturated t) {t' : Ty}
    (h : t.instantiate apply params args = some t') : u.Saturated t' := by
  have hqualifier {s : SymbolId} {q : Option Ty}
      (hq : Ty.instantiateQualifier apply params args (u.defaultQualifier s) = some q) :
      u.defaultQualifier s = q := by
    rw [instantiateQualifier_default fun p hp ↦ by simp [hparams p hp]] at hq
    exact Option.some.inj hq
  induction ht generalizing t' with
  | @ref s as length args' ih =>
    obtain ⟨-, g, rfl, hg⟩ | ⟨q, s, as, i, heq, hi, ⟨-, rfl⟩ | ⟨c, bs, hc, hbs, h⟩⟩ :=
      Ty.instantiate_cases h
    · have hq := hqualifier (Ty.instantiateQualifier_map fun c hc ↦
        hg c (List.mem_append_left as (Option.mem_toList.2 hc)))
      rw [Ty.mapChildren, ← hq]
      exact .ref ((List.length_map g).trans length)
        (List.forall_mem_map.2 fun a ha ↦ ih a ha (hg a (List.mem_append_right _ ha)))
    · exact .ref length args'
    · cases heq
      -- a parameter takes no arguments, so what stands for it is not applied to any
      have hs : s ∈ params := by
        obtain ⟨hlt, rfl, -⟩ := List.idxOf?_eq_some_iff.1 hi
        exact List.getElem_mem hlt
      have hnil : bs = [] := by
        rw [← List.length_eq_zero_iff, Ty.length_instantiateList hbs, length, hfirst s hs,
          List.length_nil]
      obtain ⟨-, rfl⟩ | ⟨hne, -⟩ := h
      · exact hargs _ (List.mem_of_getElem? hc)
      · exact absurd hnil hne
  | single s =>
    obtain ⟨q, hq, h⟩ := Option.bind_eq_some_iff.1 h
    cases h
    rw [← hqualifier hq]
    exact .single s
  | self s =>
    cases h
    exact .self s
  | constant v =>
    cases h
    exact .constant v
  | refined parents members ihps ihms =>
    obtain ⟨ps', hps', h⟩ := Option.bind_eq_some_iff.1 h
    obtain ⟨ms', hms', h⟩ := Option.bind_eq_some_iff.1 h
    cases h
    refine .refined (fun p hp ↦ ?_) fun m hm ↦ ?_
    · obtain ⟨a, ha, hap⟩ := Ty.mem_instantiateList hps' hp
      exact ihps a ha hap
    · obtain ⟨m', hm', hmm⟩ := Ty.mem_instantiateMembers hms' hm
      exact of_instantiateMember (fun t ht t' h ↦ ihms m' hm' t ht h) hmm

end Instantiate

include hparams hfirst hargs in
theorem substitute (ht : u.Saturated t) {n : Nat} {t' : Ty}
    (h : t.substitute n params args = some t') : u.Saturated t' := by
  rcases Ty.substitute_cases h with ⟨-, rfl⟩ | ⟨beta, -, h⟩
  · exact ht
  · exact ht.instantiate hparams hfirst hargs h

end Substitute

end Saturated

namespace WellApplied

theorem typeRef (s : SymbolId) : u.WellApplied (u.typeRef s) :=
  .inr ⟨s, rfl⟩

theorem of_args (ht : u.WellApplied t) : ∀ a ∈ t.args, u.Saturated a := by
  rcases ht with ht | ⟨s, rfl⟩
  · exact ht.of_args
  · exact fun a ha ↦ nomatch ha

theorem isPoly (ht : u.WellApplied t) : t.isPoly = false := by
  rcases ht with ht | ⟨s, rfl⟩
  · exact ht.proper.1
  · rfl

theorem resultType (ht : u.WellApplied t) : t.resultType = t := by
  cases t with
  | poly ps r => cases ht.isPoly
  | _ => rfl

theorem symbol_or_literal (ht : u.WellApplied t) (hrefined : t.isRefined = false) :
    t.symbol?.isSome = true ∨ ∃ v, t = .constant v := by
  rcases ht with ht | ⟨s, rfl⟩
  · cases ht with
    | refined => cases hrefined
    | constant v => exact .inr ⟨v, rfl⟩
    | _ => exact .inl rfl
  · exact .inl rfl

end WellApplied

namespace FullyApplied

variable (hu : u.Constructible) (h : u.FullyApplied)

include h in
theorem qualifier (ht : u.WellApplied t) : ∀ q ∈ t.qualifier?,
    (∃ o, u.kind o = .package ∧ q = .ref none o []) ∨ ∃ p o, q = .single p o := by
  have hdefault (s : SymbolId) : ∀ q ∈ u.defaultQualifier s,
      (∃ o, u.kind o = .package ∧ q = .ref none o []) ∨ ∃ p o, q = .single p o := by
    intro q hq
    unfold defaultQualifier defaultQualifier.go at hq
    split at hq
    · cases hq
    · next hs =>
      obtain ⟨o, ho, hq⟩ := Option.bind_eq_some_iff.1 hq
      rcases h.owner s hs o ho with hk | hk <;> rw [hk] at hq <;> cases hq
      · exact .inl ⟨o, hk, rfl⟩
      · exact .inr ⟨_, o, rfl⟩
  rcases ht with ht | ⟨s, rfl⟩
  · cases ht with
    | @ref s => exact hdefault s
    | single s => exact hdefault s
    | _ =>
      intro q hq
      cases hq
  · exact hdefault s

include hu h

theorem own (s : SymbolId) :
    u.Saturated (u.applied s ((u.entry s).typeParams.map u.typeRef)) := by
  refine .ref (List.length_map _) fun a ha ↦ ?_
  obtain ⟨p, hp, rfl⟩ := List.mem_map.1 ha
  exact .ref (by simp [h.firstOrder p (hu.paramsAreParams s p hp)]) (by simp)

theorem substitute {s : SymbolId} {args : List Ty} (hargs : ∀ a ∈ args, u.Saturated a)
    (ht : u.Saturated t) {n : Nat} {t' : Ty}
    (hsub : t.substitute n (u.entry s).typeParams args = some t') : u.Saturated t' :=
  ht.substitute (hu.paramsAreParams s)
    (fun p hp ↦ h.firstOrder p (hu.paramsAreParams s p hp)) hargs hsub

theorem unfolds {t' : Ty} (ht : u.WellApplied t) (hstep : u.Unfolds t t') : u.Saturated t' := by
  obtain ⟨q, s, as, body, n, rfl, hk, hbody, -, hsub⟩ := hstep.alias
  exact h.substitute hu ht.of_args (h.body s body (.inl hk) hbody) hsub

theorem saturated_keeps :
    u.ExpansionKeeps u.Saturated fun m ↦ ∀ t ∈ memberTypes m, u.Saturated t where
  unfold _ _ ht hstep := h.unfolds hu (.inl ht) hstep
  result t ht := by
    rw [WellApplied.resultType (.inl ht)]
    exact ht
  eta t ht := by
    rw [etaExpand_of_not_takesTypeArgs ht.proper.2, WellApplied.resultType (.inl ht)]
    exact ht
  parents _ ht := ht.of_parents
  members _ ht := ht.of_members

theorem keeps (hr : u.RefinementsApplied) :
    u.ComponentsKeep u.WellApplied fun m ↦ ∀ t ∈ memberTypes m, u.Saturated t where
  unfold _ _ ht hstep := .inl (h.unfolds hu ht hstep)
  result t ht := by
    rw [ht.resultType]
    exact ht
  eta t ht := by
    rcases ht with ht | ⟨s, rfl⟩
    · exact .inl ((h.saturated_keeps hu).eta t ht)
    · unfold SymbolTable.typeRef applied etaExpand
      dsimp only
      split
      · exact .typeRef s
      · exact .inl (h.own hu s)
  parents t ht := by
    rcases ht with ht | ⟨s, rfl⟩
    · exact fun p hp ↦ .inl (ht.of_parents p hp)
    · exact fun p hp ↦ nomatch hp
  members t ht := by
    rcases ht with ht | ⟨s, rfl⟩
    · exact ht.of_members
    · exact fun m hm ↦ nomatch hm
  args _ ht a ha := .inl (ht.of_args a ha)
  typeRef := .typeRef
  symbolType s := by
    unfold symbolType
    dsimp only
    split
    · next hk =>
      cases hb : (u.entry s).body with
      | none => exact .inl (h.own hu s)
      | some b => exact .inl (hr s b hk hb)
    · exact .inl (h.own hu s)
  bounds s := by
    unfold boundsOf
    cases hb : (u.entry s).bounds with
    | none => exact ⟨.typeRef _, .typeRef _⟩
    | some b => exact (h.bounds s b hb).imp .inl .inl
  parent s p hp := .inl (h.parents s p hp)
  specialise n q s as p p' ht hp hsub := by
    unfold specialise at hsub
    dsimp only at hsub
    split at hsub
    · exact .inl (h.substitute hu ht.of_args (h.parents s p hp) hsub)
    · cases hsub
      exact .inl (h.parents s p hp)
  body s b hk hb := .inl (h.body s b (.inr hk) hb)

end FullyApplied

end TypeTag.SymbolTable
