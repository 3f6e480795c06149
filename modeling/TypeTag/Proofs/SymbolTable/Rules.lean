import TypeTag.Proofs.SymbolTable.Constructible
import TypeTag.Proofs.SymbolTable.Families
import TypeTag.Proofs.Ty.Rules

namespace TypeTag

namespace SymbolTable

open Ty

/-- A table of types that obey rules, which are such that the types that the table implies for its
symbols obey them too. -/
structure Obeys (u : SymbolTable) (R : Rules) : Prop where
  stable : R.Stable
  types : ∀ s, ∀ t ∈ (u.entry s).types, t.Obeys R
  params : ∀ s, ∀ p ∈ (u.entry s).typeParams, R.param p
  qualified : ∀ s, R.qualified (u.defaultQualifier s) s
  qualifier : ∀ s, ∀ q ∈ u.defaultQualifier s, q.Obeys R

theorem defaultQualifier_obeys {R : Rules} (hqualified : ∀ q s, R.qualified q s) {u : SymbolTable}
    (hterm : ∀ s, u.isTerm s = true → R.term s) (s : SymbolId) :
    ∀ q ∈ u.defaultQualifier s, q.Obeys R :=
  defaultQualifier_induction (fun _ _ ↦ .ref (hqualified _ _) (by simp) (by simp))
    (fun _ hk hq ↦ .single (hqualified _ _) (hterm _ hk) hq) (fun _ ↦ .self _) s

theorem obeys_membersNamed {M : String → Prop} {u : SymbolTable}
    (h : ∀ s, ∀ t ∈ (u.entry s).types, t.Obeys (membersNamed M)) : u.Obeys (membersNamed M) where
  stable := fun _ _ _ ↦ trivial
  types := h
  params := fun _ _ _ ↦ trivial
  qualified := fun _ ↦ trivial
  qualifier := defaultQualifier_obeys (fun _ _ ↦ trivial) fun _ _ ↦ trivial

namespace Obeys

variable {u : SymbolTable} {R : Rules} (hu : u.Obeys R) {s : SymbolId} {t : Ty}

include hu

theorem parent (h : t ∈ (u.entry s).parents) : t.Obeys R :=
  hu.types s t (by simp [SymbolEntry.types, h])

theorem body (h : (u.entry s).body = some t) : t.Obeys R :=
  hu.types s t (by simp [SymbolEntry.types, h])

theorem applied {as : List Ty} (h : ∀ a ∈ as, a.Obeys R) : (u.applied s as).Obeys R :=
  .ref (hu.qualified s) (hu.qualifier s) h

theorem typeRef (s : SymbolId) : (u.typeRef s).Obeys R :=
  hu.applied (by simp)

theorem boundsOf (s : SymbolId) : (u.boundsOf s).1.Obeys R ∧ (u.boundsOf s).2.Obeys R := by
  unfold SymbolTable.boundsOf
  cases hb : (u.entry s).bounds with
  | none => exact ⟨hu.typeRef _, hu.typeRef _⟩
  | some b =>
    constructor <;> exact hu.types s _ (by simp [SymbolEntry.types, hb])

theorem ownArgs {ps : List SymbolId} : ∀ a ∈ ps.map u.typeRef, a.Obeys R := by
  intro a ha
  obtain ⟨p, -, rfl⟩ := List.mem_map.1 ha
  exact hu.typeRef p

theorem symbolType (s : SymbolId) : (u.symbolType s).Obeys R := by
  unfold SymbolTable.symbolType
  dsimp only
  split
  · cases hb : (u.entry s).body with
    | none => exact hu.applied hu.ownArgs
    | some b => exact hu.body hb
  · exact hu.applied hu.ownArgs

theorem etaExpand (h : t.Obeys R) : (u.etaExpand t).Obeys R := by
  unfold SymbolTable.etaExpand
  split
  · next q s =>
    dsimp only
    split
    · exact h
    · cases h with
      | ref hq qualifier _ => exact .poly (hu.params s) (.ref hq qualifier hu.ownArgs)
  · exact h

theorem specialise {n : Nat} {args : List Ty} (hargs : ∀ a ∈ args, a.Obeys R) {p p' : Ty}
    (hp : p.Obeys R) (h : u.specialise n s args p = some p') : p'.Obeys R := by
  unfold SymbolTable.specialise at h
  dsimp only at h
  split at h
  · exact hp.substitute hu.stable (hu.params s) hargs h
  · cases h
    exact hp

theorem keeps : u.ComponentsKeep (Ty.Obeys R) (MemberObeys R) where
  unfold t t' ht h := by
    obtain ⟨q, s, as, body, n, rfl, -, hbody, -, h⟩ := h.alias
    exact (hu.body hbody).substitute hu.stable (hu.params s) ht.of_args h
  result _ ht := ht.of_result
  eta _ ht := (hu.etaExpand ht).of_result
  parents _ ht := ht.of_parents
  members _ ht := ht.of_members
  args _ ht := ht.of_args
  typeRef := hu.typeRef
  symbolType := hu.symbolType
  bounds := hu.boundsOf
  parent _ _ hp := hu.parent hp
  specialise _ _ _ _ _ _ ht hp h := hu.specialise ht.of_args (hu.parent hp) h
  body _ _ _ hb := hu.body hb

theorem flatten_compound {n : Nat} {parts : List Ty} {members : List (Member Ty)} (h : t.Obeys R)
    (hf : u.flatten n t = some (.compound parts members)) : (Ty.refined parts members).Obeys R :=
  obeys_refined_iff.2 (hu.keeps.flatten_compound h hf)

theorem qualifierTypes (h : t.Obeys R) : ∀ x ∈ u.qualifierTypes t, x.Obeys R := by
  intro x hx
  rcases mem_qualifierTypes hx with hq | ⟨s, -, -, rfl⟩
  · exact h.of_qualifier x hq
  · exact hu.symbolType s

theorem asks {x : Ty} (ht : t.Obeys R) (h : u.Asks t x) : x.Obeys R := by
  refine hu.keeps.asks (fun _ ↦ hu.qualifierTypes) (fun e _ x hx ↦ ?_) (fun _ ↦ Ty.Obeys.of_args)
    (fun m hm x hx ↦ ?_) ht h
  · obtain ⟨s, -, rfl | rfl⟩ := mem_boundTypes hx
    · exact (hu.boundsOf s).1
    · exact (hu.boundsOf s).2
  · rcases mem_memberTypes hx with hx | ⟨l, h, hb, rfl | rfl⟩
    · exact hm.2 x hx
    · exact (hm.2 _ hb).of_mem_children List.mem_cons_self
    · exact (hm.2 _ hb).of_mem_children (List.mem_cons_of_mem _ (List.mem_singleton_self _))

end Obeys

end SymbolTable

end TypeTag
