import TypeTag.Proofs.Builds.Trails
import TypeTag.Proofs.SymbolTable.Families
import TypeTag.Proofs.SymbolTable.Within
import TypeTag.Proofs.Ty.Occurrences

namespace TypeTag.SymbolTable

open Relation

def AliasFree (u : SymbolTable) : Prop :=
  ∀ s, u.kind s ≠ .typeAlias

instance (u : SymbolTable) : Decidable u.AliasFree :=
  decidable_of_iff (∀ s < u.size, u.kind s ≠ .typeAlias)
    ⟨fun h s hs ↦ h s (kind_lt_size (by simp [hs])) hs, fun h s _ ↦ h s⟩

variable {u : SymbolTable} {n : Nat} {t x : Ty}

theorem resultType_etaExpand (u : SymbolTable) (t : Ty) : (u.etaExpand t).resultType = t.resultType ∨
    ∃ q s, t = .ref q s [] ∧
      (u.etaExpand t).resultType = .ref q s ((u.entry s).typeParams.map u.typeRef) := by
  unfold etaExpand
  split
  · next q s =>
    dsimp only
    split
    · exact .inl rfl
    · exact .inr ⟨q, s, rfl, rfl⟩
  · exact .inl rfl

theorem inside_of_mem_memberTypes {m : Member Ty} (hm : ∀ y ∈ m.types, y.Inside t)
    (h : x ∈ memberTypes m) : x.Inside t := by
  rcases mem_memberTypes h with h | ⟨l, h, hb, rfl | rfl⟩
  · exact hm x h
  · exact (Ty.Inside.of_child List.mem_cons_self).trans (hm _ hb)
  · exact (Ty.Inside.of_child (by simp [Ty.children])).trans (hm _ hb)

namespace AliasFree

variable (hu : u.AliasFree)

include hu

theorem aliasRedex? (t : Ty) : u.aliasRedex? t = none := by
  cases t with
  | ref q s as =>
    have hk : (u.entry s).kind ≠ .typeAlias := hu s
    simp only [SymbolTable.aliasRedex?]
    split
    · contradiction
    · rfl
  | _ => rfl

theorem dealias (n : Nat) (t : Ty) : u.dealias n t = some t :=
  dealias_of_aliasRedex?_eq_none (hu.aliasRedex? t) n

theorem dealiasResult (n : Nat) (t : Ty) : u.dealiasResult n t = some t.resultType := by
  rw [SymbolTable.dealiasResult, hu.dealias]
  exact hu.dealias n _

theorem leaf (n : Nat) (t : Ty) : u.leaf n t = some t := by
  unfold SymbolTable.leaf
  split
  · rfl
  · exact hu.dealias n t

theorem headParams (t : Ty) : ∃ ps, ∀ n, u.headParams n t = some ps := by
  cases t with
  | ref q s as => exact ⟨(u.entry s).typeParams, fun n ↦ by rw [SymbolTable.headParams, hu.dealias]; rfl⟩
  | _ => exact ⟨[], fun n ↦ by rw [SymbolTable.headParams, hu.dealias]; rfl⟩

theorem flatteningKeeps (t : Ty) :
    u.FlatteningKeeps (·.Inside t) fun m ↦ ∀ x ∈ m.types, x.Inside t where
  unfold s s' _ h := by
    obtain ⟨q, c, as, b, n, -, hk, -⟩ := h.alias
    exact absurd hk (hu c)
  parents s hs p hp := (Ty.Inside.of_child (Ty.mem_children_of_parents hp)).trans hs
  members s hs m hm x hx := (Ty.Inside.of_child (Ty.mem_children_of_members hm hx)).trans hs

section Flatten

variable {ps stack parts : List Ty} {ms members : List (Member Ty)}

theorem exists_flattenFrom (m : Nat) (h : Ty.sizeList stack ≤ n) :
    ∃ r, u.flattenFrom m n stack parts members = some r := by
  induction n generalizing stack parts members with
  | zero =>
    cases stack with
    | nil => exact ⟨_, by rw [flattenFrom]⟩
    | cons t stack =>
      have hpos := t.size_pos
      rw [Ty.sizeList] at h
      omega
  | succ n ih =>
    cases stack with
    | nil => exact ⟨_, by rw [flattenFrom]⟩
    | cons t stack =>
      rw [Ty.sizeList] at h
      by_cases hrefined : t.isRefined = true
      · cases t with
        | refined ps ms =>
          rw [flattenFrom_refined (hu.dealias m _)]
          refine ih ?_
          rw [Ty.sizeList_append]
          rw [Ty.size] at h
          omega
        | _ => cases hrefined
      · rw [flattenFrom_leaf (hu.dealias m t) (by simpa using hrefined)]
        have hpos := t.size_pos
        exact ih (by omega)

theorem exists_flatten (t : Ty) : ∃ f, ∀ n, t.size ≤ n → u.flatten n t = some f := by
  have hsize : Ty.sizeList [t] ≤ t.size := by simp [Ty.sizeList]
  obtain ⟨⟨ps, ms⟩, h⟩ := hu.exists_flattenFrom t.size hsize
  have hf : ∃ f, u.flatten t.size t = some f := by
    rw [flatten, h]
    simp only [Option.bind_eq_bind, Option.bind_some]
    split <;> exact ⟨_, rfl⟩
  obtain ⟨f, hf⟩ := hf
  exact ⟨f, fun n hn ↦ u.flatten_keeps hn t f hf⟩

theorem inside_of_flattenFrom (hrefined : t.isRefined = true)
    (h : u.flattenFrom n n [t] [] [] = some (ps, ms)) :
    (∀ p ∈ ps, p.Inside t) ∧ ∀ m ∈ ms, ∀ x ∈ m.types, x.Inside t := by
  cases t with
  | refined qs ns =>
    cases n with
    | zero => cases h
    | succ n =>
      rw [flattenFrom_refined (hu.dealias _ _)] at h
      refine (hu.flatteningKeeps (.refined qs ns)).flattenFrom (fun q hq ↦ ?_) (by simp)
        (fun m hm x hx ↦ ?_) h
      · rw [List.append_nil] at hq
        exact .of_child (Ty.mem_children_of_parents hq)
      · exact .of_child (Ty.mem_children_of_members hm hx)
  | _ => cases hrefined

theorem occursIn_of_flatten_single {p : Ty} (h : u.flatten n t = some (.single p)) :
    p.OccursIn t := by
  cases hrefined : t.isRefined with
  | true =>
    exact ((hu.inside_of_flattenFrom hrefined (flattenFrom_of_single h)).1 p
      (List.mem_singleton_self p)).occursIn
  | false =>
    cases eq_single_of_flatten (fun n ↦ hu.dealias n t) hrefined h
    exact .refl t

theorem inside_of_flatten_compound (h : u.flatten n t = some (.compound ps ms)) :
    (∀ p ∈ ps, p.Inside t) ∧ ∀ m ∈ ms, ∀ x ∈ m.types, x.Inside t := by
  cases hrefined : t.isRefined with
  | true => exact hu.inside_of_flattenFrom hrefined (flattenFrom_of_compound h)
  | false => cases eq_single_of_flatten (fun n ↦ hu.dealias n t) hrefined h

end Flatten

/-- What a description asks for is what a generic type becomes, or it is inside the type, or belongs
to a type that occurs in it, as a qualifier or a bound. -/
theorem asks_cases (h : u.Asks t x) : x = (u.etaExpand t).resultType ∨ x.Inside t ∨
    ∃ e, Ty.OccursIn e t ∧ (x ∈ u.qualifierTypes e ∨ x ∈ u.boundTypes e) := by
  cases h with
  | result _ hresult _ =>
    rw [hu.dealiasResult] at hresult
    exact .inl (Option.some.inj hresult).symm
  | part hf hx => exact .inr (.inl ((hu.inside_of_flatten_compound hf).1 x hx))
  | member hf hm hx =>
    exact .inr (.inl (inside_of_mem_memberTypes ((hu.inside_of_flatten_compound hf).2 _ hm) hx))
  | @named p d e n hf hl hd hx =>
    rw [hu.leaf] at hl
    cases hl
    rw [hu.dealiasResult] at hd
    cases hd
    have hoccurs := (Ty.occursIn_resultType p).trans (hu.occursIn_of_flatten_single hf)
    rcases List.mem_append.1 hx with hx | hx
    · exact .inr (.inr ⟨_, hoccurs, List.mem_append.1 hx⟩)
    · exact .inr (.inl ((Ty.Inside.of_child (Ty.mem_children_of_args hx)).of_occursIn hoccurs))
  | cut hx => exact .inr (.inr ⟨t, .refl t, .inl hx⟩)

end AliasFree

end TypeTag.SymbolTable
