import TypeTag.Proofs.Builds.Trails
import TypeTag.Proofs.SymbolTable.Chains
import TypeTag.Proofs.SymbolTable.Families
import TypeTag.Proofs.Ty.Confined

namespace TypeTag.SymbolTable

open Ty

/-- No refinement is in the body of an alias or of a refinement class or in a declared bound, and
the type functions there bind symbols of `B`. -/
structure RefinementFree (u : SymbolTable) (B : SymbolId → Prop) : Prop where
  body : ∀ s t, u.kind s = .typeAlias ∨ u.kind s = .refinement → (u.entry s).body = some t →
    t.Confined B fun _ ↦ False
  bounds : ∀ s b, (u.entry s).bounds = some b →
    (b.1.Confined B fun _ ↦ False) ∧ b.2.Confined B fun _ ↦ False

variable {u : SymbolTable} {B : SymbolId → Prop} {S : Ty → Prop} {n : Nat} {t d : Ty}

theorem defaultQualifier_confined (s : SymbolId) :
    ∀ q ∈ u.defaultQualifier s, q.Confined B S :=
  defaultQualifier_induction (fun _ _ ↦ .ref (by simp) (by simp)) (fun _ _ hq ↦ .single hq)
    (fun _ ↦ .self _) s

theorem applied_confined {s : SymbolId} {as : List Ty} (h : ∀ a ∈ as, a.Confined B S) :
    (u.applied s as).Confined B S :=
  .ref (defaultQualifier_confined s) h

theorem typeRef_confined (s : SymbolId) : (u.typeRef s).Confined B S :=
  applied_confined (by simp)

theorem ownArgs_confined {ps : List SymbolId} : ∀ a ∈ ps.map u.typeRef, a.Confined B S := by
  intro a ha
  obtain ⟨p, -, rfl⟩ := List.mem_map.1 ha
  exact typeRef_confined p

namespace RefinementFree

variable (hu : u.RefinementFree B)

include hu

theorem symbolType (s : SymbolId) : (u.symbolType s).Confined B S := by
  have hown : (u.applied s ((u.entry s).typeParams.map u.typeRef)).Confined B S :=
    applied_confined ownArgs_confined
  unfold SymbolTable.symbolType
  dsimp only
  split
  · next hk =>
    cases hb : (u.entry s).body with
    | none => exact hown
    | some b => exact (hu.body s b (.inr hk) hb).mono fun _ h ↦ h.elim
  · exact hown

theorem boundsOf (s : SymbolId) :
    ((u.boundsOf s).1.Confined B S) ∧ (u.boundsOf s).2.Confined B S := by
  unfold SymbolTable.boundsOf
  cases hb : (u.entry s).bounds with
  | none => exact ⟨typeRef_confined _, typeRef_confined _⟩
  | some b =>
    obtain ⟨hl, hh⟩ := hu.bounds s b hb
    exact ⟨hl.mono fun _ h ↦ h.elim, hh.mono fun _ h ↦ h.elim⟩

theorem qualifierTypes (ht : t.Confined B S) : ∀ x ∈ u.qualifierTypes t, x.Confined B S := by
  intro x hx
  rcases mem_qualifierTypes hx with hq | ⟨s, -, -, rfl⟩
  · exact ht.of_mem_children (mem_children_of_qualifier? hq)
  · exact hu.symbolType s

variable (hB : ∀ r, S r → ∀ p, B p → p ∉ r.symbols)

include hB

theorem keeps : u.ExpansionKeeps (Confined B S) fun m ↦ ∀ t ∈ m.types, t.Confined B S where
  unfold t t' ht h := by
    obtain ⟨q, s, as, body, n, rfl, hk, hbody, -, h⟩ := h.alias
    cases ht with
    | ref _ args => exact (hu.body s body (.inl hk) hbody).substitute hB (fun _ h ↦ h.elim) args h
  result _ ht := ht.of_result
  eta t ht := by
    unfold etaExpand
    split
    · dsimp only
      split
      · exact ht
      · cases ht with
        | ref qualifier _ => exact .ref qualifier ownArgs_confined
    · exact ht.of_result
  parents _ ht _ hp := ht.of_mem_children (mem_children_of_parents hp)
  members _ ht _ hm _ hx := ht.of_mem_children (mem_children_of_members hm hx)

omit hB hu in
theorem memberTypes_confined {m : Member Ty} (hm : ∀ t ∈ m.types, t.Confined B S) :
    ∀ x ∈ memberTypes m, x.Confined B S := by
  intro x hx
  rcases mem_memberTypes hx with hx | ⟨l, h, hb, rfl | rfl⟩
  · exact hm x hx
  · exact (hm _ hb).of_mem_children List.mem_cons_self
  · exact (hm _ hb).of_mem_children (List.mem_cons_of_mem _ (List.mem_singleton_self _))

theorem asks {x : Ty} (ht : t.Confined B S) (h : u.Asks t x) : x.Confined B S := by
  refine (hu.keeps hB).asks (fun _ ↦ hu.qualifierTypes) (fun e _ x hx ↦ ?_)
    (fun _ he a ha ↦ he.of_mem_children (mem_children_of_args ha))
    (fun _ ↦ memberTypes_confined) ht h
  obtain ⟨s, -, rfl | rfl⟩ := mem_boundTypes hx
  · exact (hu.boundsOf s).1
  · exact (hu.boundsOf s).2

end RefinementFree

end TypeTag.SymbolTable
