import Mathlib.Tactic.Choose
import TypeTag.Proofs.SymbolTable.Specialisation
import TypeTag.Proofs.Ty.Occurrences

namespace TypeTag

namespace Ty

variable {apply apply' : Ty → List Ty → Option Ty} {f : SymbolId} {c c' : Ty} {k : Nat}

theorem instantiate_param {q : Option Ty} {as bs : List Ty} {d : Ty} (has : as ≠ [])
    (hbs : as.mapM (instantiate apply [f] [c]) = some bs) (hd : apply c bs = some d) :
    (ref q f as).instantiate apply [f] [c] = some d := by
  have hlen := length_mapM hbs
  have hne : bs ≠ [] := by
    rintro rfl
    exact has (List.length_eq_zero_iff.1 hlen.symm)
  rw [instantiate, instantiateList_eq_mapM, hbs]
  simp [List.idxOf?_cons, hne, hd]

/-- Two constructors give the same instance of a type if they give the same wherever the parameter is
applied in it. -/
theorem exists_instantiate_alike (hk : k ≠ 0)
    (happly : ∀ bs, bs.length = k → ∃ d, apply c bs = some d ∧ apply' c' bs = some d) {t : Ty}
    (ht : ∀ q as, (ref q f as).OccursIn t → as.length = k) :
    ∃ r, t.instantiate apply [f] [c] = some r ∧ t.instantiate apply' [f] [c'] = some r := by
  induction t using inside with
  | node t ih =>
    have hinside : ∀ x ∈ t.children, ∃ r, x.instantiate apply [f] [c] = some r ∧
        x.instantiate apply' [f] [c'] = some r :=
      fun x hx ↦ ih x hx fun q as h ↦ ht q as (h.trans (Inside.of_child hx).occursIn)
    choose! g hg hg' using hinside
    by_cases hhead : ∃ q as, t = ref q f as
    · obtain ⟨q, as, rfl⟩ := hhead
      have hlen : as.length = k := ht q as (.refl _)
      have has : as ≠ [] := by
        rintro rfl
        exact hk hlen.symm
      obtain ⟨d, hd, hd'⟩ := happly (as.map g) (by rwa [List.length_map])
      exact ⟨d,
        instantiate_param has (mapM_eq_some_map fun a ha ↦ hg a (mem_children_of_args ha)) hd,
        instantiate_param has (mapM_eq_some_map fun a ha ↦ hg' a (mem_children_of_args ha)) hd'⟩
    · have hother (q : Option Ty) (s : SymbolId) (as : List Ty) (heq : t = ref q s as) :
          s ∉ [f] :=
        fun hs ↦ hhead ⟨q, as, List.mem_singleton.1 hs ▸ heq⟩
      exact ⟨t.mapChildren g, instantiate_mapChildren hother hg, instantiate_mapChildren hother hg'⟩

end Ty

namespace SymbolTable

variable {u : SymbolTable} {c : SymbolId} {as : List Ty}

theorem etaExpand_typeRef (hparams : (u.entry c).typeParams ≠ []) : u.etaExpand (u.typeRef c) =
    .poly (u.entry c).typeParams (u.applied c ((u.entry c).typeParams.map u.typeRef)) := by
  simp [etaExpand, typeRef, applied, hparams]

theorem substitute_applied_params (hu : u.Constructible) (hc : u.kind c = .cls)
    (hlen : as.length = (u.entry c).typeParams.length) (n : Nat) :
    (u.applied c ((u.entry c).typeParams.map u.typeRef)).substitute n (u.entry c).typeParams as =
      some (u.applied c as) := by
  rw [(ReferenceOver.applied hc referenceOver_typeRef).substitute (hu.paramsAreParams c) hlen,
    (argOf_onParams hu c as).fill_applied hc, fill_typeRefs hu hlen]

/-- A parameter that is applied to as many arguments as a class takes may be replaced by the class or
by the type function that the class expands to. -/
theorem substitute_etaExpand (hu : u.Constructible) (hc : u.kind c = .cls)
    (hparams : (u.entry c).typeParams ≠ []) {f : SymbolId} {t : Ty}
    (ht : ∀ q as, (Ty.ref q f as).OccursIn t → as.length = (u.entry c).typeParams.length) :
    ∃ r, ∀ n, 1 ≤ n → t.substitute n [f] [u.typeRef c] = some r ∧
      t.substitute n [f] [u.etaExpand (u.typeRef c)] = some r := by
  have happly (bs : List Ty) (hbs : bs.length = (u.entry c).typeParams.length) : ∃ d,
      Ty.applyConstructor (Ty.substitute 0) (u.typeRef c) bs = some d ∧
        Ty.applyConstructor (Ty.substitute 0) (u.etaExpand (u.typeRef c)) bs = some d := by
    rw [etaExpand_typeRef hparams]
    exact ⟨u.applied c bs, rfl, substitute_applied_params hu hc hbs 0⟩
  have hk : (u.entry c).typeParams.length ≠ 0 := fun h ↦ hparams (List.length_eq_zero_iff.1 h)
  obtain ⟨r, hr, hr'⟩ := Ty.exists_instantiate_alike hk happly ht
  exact ⟨r, fun n hn ↦ ⟨Ty.substitute_keeps hn _ _ t r hr, Ty.substitute_keeps hn _ _ t r hr'⟩⟩

section Pair

def pair : SymbolTable :=
  let (pair, u) := initial.cls 1 "Pair"
  let (_, u) := u.typeParam pair "A" .invariant
  let (_, u) := u.typeParam pair "B" .invariant
  let (box, u) := u.cls 1 "Box"
  (u.typeParam box "F" .invariant).2

/-- `F` is applied in its own arguments, below a type function that binds a parameter of `Pair`. -/
theorem pair_substitute_etaExpand :
    let u := pair
    let inner := Ty.ref none 9 [.constant "x", .ref none 6 []]
    let t := Ty.ref none 9 [.constant "y", .poly [6] inner]
    u.Constructible ∧ u.kind 5 = .cls ∧ (u.entry 5).typeParams ≠ [] ∧
      (∀ q as, (Ty.ref q 9 as).OccursIn t → as.length = (u.entry 5).typeParams.length) ∧
      ∃ r, ∀ n, 1 ≤ n → t.substitute n [9] [u.typeRef 5] = some r ∧
        t.substitute n [9] [u.etaExpand (u.typeRef 5)] = some r := by
  intro u inner t
  have hu : u.Constructible := by
    refine .step (.step (.step (.step (.step .initial (.cls 1 "Pair" ?_))
      (.typeParam 5 "A" .invariant ?_)) (.typeParam 5 "B" .invariant ?_)) (.cls 1 "Box" ?_))
      (.typeParam 8 "F" .invariant ?_)
    all_goals decide
  have hc : u.kind 5 = .cls := by decide
  have hparams : (u.entry 5).typeParams = [6, 7] := by decide
  have hleaf {x : Ty} (hx : x.children = []) (hne : ∀ q as, Ty.ref q 9 as ≠ x) (q : Option Ty)
      (as : List Ty) : ¬(Ty.ref q 9 as).OccursIn x := by
    rw [Ty.occursIn_iff, hx]
    simpa using hne q as
  have ht (q : Option Ty) (as : List Ty) (h : (Ty.ref q 9 as).OccursIn t) :
      as.length = (u.entry 5).typeParams.length := by
    have hinner (h : (Ty.ref q 9 as).OccursIn inner) : as.length = 2 := by
      obtain heq | ⟨x, hx, h⟩ := Ty.occursIn_iff.1 h
      · exact congrArg List.length (Ty.ref.inj heq).2.2
      · rcases List.mem_pair.1 hx with rfl | rfl
        · exact absurd h (hleaf rfl (by simp) q as)
        · exact absurd h (hleaf rfl (by simp) q as)
    rw [hparams]
    obtain heq | ⟨x, hx, h⟩ := Ty.occursIn_iff.1 h
    · exact congrArg List.length (Ty.ref.inj heq).2.2
    · rcases List.mem_pair.1 hx with rfl | rfl
      · exact absurd h (hleaf rfl (by simp) q as)
      · obtain heq | ⟨y, hy, h⟩ := Ty.occursIn_iff.1 h
        · exact absurd heq (by simp)
        · exact hinner (List.mem_singleton.1 hy ▸ h)
  exact ⟨hu, hc, by simp [hparams], ht, substitute_etaExpand hu hc (by simp [hparams]) ht⟩

end Pair

end SymbolTable

end TypeTag
