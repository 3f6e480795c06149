import Mathlib.Logic.Relation
import Mathlib.Data.Fintype.EquivFin
import Mathlib.Data.Fintype.Card
import Mathlib.Data.List.Forall2
import TypeTag.Proofs.SymbolTable.Hierarchy
import TypeTag.SymbolTable.Dealias

namespace TypeTag.SymbolTable

section FirstOrder

variable (u : SymbolTable)

def Declares (s : SymbolId) : Prop :=
  u.kind s = .cls ∨ u.kind s = .object ∨ u.kind s = .typeAlias

instance (s : SymbolId) : Decidable (u.Declares s) :=
  inferInstanceAs (Decidable (_ ∨ _ ∨ _))

/-- First-order types over the parameters `ps`. -/
inductive FirstOrder (ps : List SymbolId) : Ty → Prop
  | applied {s : SymbolId} {as : List Ty} (hs : u.kind s = .cls ∨ u.kind s = .typeAlias)
    (hlen : as.length = (u.entry s).typeParams.length) (has : ∀ a ∈ as, FirstOrder ps a) :
    FirstOrder ps (u.applied s as)
  | single {s : SymbolId} (hs : u.kind s = .object) : FirstOrder ps (u.single s)
  | constant (v : String) : FirstOrder ps (.constant v)
  | param {p : SymbolId} (hp : p ∈ ps) : FirstOrder ps (u.typeRef p)

def AliasNames (s s' : SymbolId) : Prop :=
  u.kind s = .typeAlias ∧ u.kind s' = .typeAlias ∧ ∃ b ∈ (u.entry s).body, s' ∈ b.symbols

/-- Tables of first-order declarations with names of their own: whatever is declared is owned by a
package, and aliases have first-order bodies and do not come back to themselves. -/
structure Plain : Prop where
  owned : ∀ s, u.Declares s → ∃ o, (u.entry s).owner = some o ∧ u.kind o = .package
  distinct : ∀ s s', u.Declares s → u.Declares s' → u.fullName s = u.fullName s' → s = s'
  params : ∀ s, u.Declares s → ∀ p ∈ (u.entry s).typeParams, (u.entry p).typeParams = []
  bodies : ∀ s, u.kind s = .typeAlias → ∀ b ∈ (u.entry s).body,
    u.FirstOrder (u.entry s).typeParams b
  acyclic : ∀ s, ¬Relation.TransGen u.AliasNames s s

def PackageOwned (s : SymbolId) : Prop :=
  ∃ o, (u.entry s).owner = some o ∧ u.kind o = .package

inductive Over (D : SymbolId → Prop) (ps : List SymbolId) : Ty → Prop
  | applied {s : SymbolId} {as : List Ty} (hD : D s)
    (hs : u.kind s = .cls ∨ u.kind s = .typeAlias)
    (hlen : as.length = (u.entry s).typeParams.length) (has : ∀ a ∈ as, Over D ps a) :
    Over D ps (u.applied s as)
  | single {s : SymbolId} (hD : D s) (hs : u.kind s = .object) : Over D ps (u.single s)
  | constant (v : String) : Over D ps (.constant v)
  | param {p : SymbolId} (hp : p ∈ ps) : Over D ps (u.typeRef p)

/-- Symbols that make up first-order types of their own: each is owned by a package and has
first-order parameters, and the aliases among them stand for types made of such symbols. -/
structure Vocabulary (D : SymbolId → Prop) : Prop where
  owned : ∀ s, D s → u.PackageOwned s
  params : ∀ s, D s → ∀ p ∈ (u.entry s).typeParams, (u.entry p).typeParams = []
  bodies : ∀ s, D s → u.kind s = .typeAlias → ∀ b ∈ (u.entry s).body,
    u.Over D (u.entry s).typeParams b
  acyclic : ∀ s, ¬Relation.TransGen u.AliasNames s s

end FirstOrder

variable {u : SymbolTable} {D : SymbolId → Prop} {ps : List SymbolId}

theorem FirstOrder.over {t : Ty} (h : u.FirstOrder ps t) : u.Over u.Declares ps t := by
  induction h with
  | applied hs hlen _ ih => exact .applied (hs.imp_right .inr) hs hlen ih
  | single hs => exact .single (.inr (.inl hs)) hs
  | constant v => exact .constant v
  | param hp => exact .param hp

theorem Plain.vocabulary (h : u.Plain) : u.Vocabulary u.Declares where
  owned := h.owned
  params := h.params
  bodies s _ hs b hb := (h.bodies s hs b hb).over
  acyclic := h.acyclic

theorem Vocabulary.wellFounded (h : u.Vocabulary D) :
    WellFounded fun s' s ↦ u.AliasNames s s' := by
  let r (i j : Fin u.size) : Prop := Relation.TransGen u.AliasNames j.1 i.1
  have hirrefl : Std.Irrefl r := ⟨fun i hi ↦ h.acyclic i.1 hi⟩
  have htrans : IsTrans (Fin u.size) r := ⟨fun i j k hij hjk ↦ hjk.trans hij⟩
  have hwf : WellFounded r := Finite.wellFounded_of_trans_of_irrefl r
  have hacc (i : Fin u.size) : Acc (fun s' s ↦ u.AliasNames s s') i.1 := by
    induction i using hwf.induction with
    | h i ih =>
      refine ⟨_, fun s' hs' ↦ ?_⟩
      have hlt : s' < u.size := kind_lt_size (by simp [hs'.2.1])
      exact ih ⟨s', hlt⟩ (.single hs')
  refine ⟨fun s ↦ ⟨_, fun s' hs' ↦ ?_⟩⟩
  exact hacc ⟨s', kind_lt_size (by simp [hs'.2.1])⟩

theorem PackageOwned.defaultQualifier {s : SymbolId} (h : u.PackageOwned s)
    (hs : u.Declares s) :
    ∃ o, u.defaultQualifier s = some (.ref none o []) ∧ u.kind o = .package := by
  obtain ⟨o, ho, hk⟩ := h
  refine ⟨o, defaultQualifier_of_package ?_ ho hk, hk⟩
  rcases hs with hs | hs | hs <;> simp [hs]

theorem Over.mono {D' : SymbolId → Prop} {t : Ty} (h : u.Over D ps t)
    (hD : ∀ s ∈ t.symbols, D s → D' s) : u.Over D' ps t := by
  induction h with
  | @applied s as hs hk hlen _ ih =>
    refine .applied (hD s (by simp [SymbolTable.applied, Ty.symbols]) hs) hk hlen fun a ha ↦
      ih a ha fun s' hs' ↦ hD s' ?_
    simp only [SymbolTable.applied, Ty.symbols, List.cons_append, List.mem_cons,
      List.mem_append, Ty.mem_symbolsList]
    exact .inr (.inr ⟨a, ha, hs'⟩)
  | single hs hk => exact .single (hD _ (by simp [SymbolTable.single, Ty.symbols]) hs) hk
  | constant v => exact .constant v
  | param hp => exact .param hp

section Forall₂

theorem exists_forall₂ {α β : Type} {R : α → β → Prop} {l : List α} (h : ∀ a ∈ l, ∃ b, R a b) :
    ∃ l', List.Forall₂ R l l' := by
  induction l with
  | nil => exact ⟨[], .nil⟩
  | cons a l ih =>
    obtain ⟨b, hb⟩ := h a List.mem_cons_self
    obtain ⟨l', hl'⟩ := ih fun a ha ↦ h a (List.mem_cons_of_mem _ ha)
    exact ⟨b :: l', .cons hb hl'⟩

theorem forall_mem_of_forall₂ {α β : Type} {P : α → Prop} {l : List α} {l' : List β}
    (h : List.Forall₂ (fun a _ ↦ P a) l l') : ∀ a ∈ l, P a :=
  ((List.forall₂_and_left (R := fun _ _ ↦ True) l l').1 (h.imp fun _ _ ha ↦ ⟨ha, trivial⟩)).1

end Forall₂

section Substitute

variable {as as' : List Ty} {b : Ty}

/-- A relation that the makeup of first-order types hands on from their parts to the whole. -/
structure HandsOn (u : SymbolTable) (D : SymbolId → Prop) (R : Ty → Ty → Prop) : Prop where
  applied : ∀ s bs bs', D s → (u.kind s = .cls ∨ u.kind s = .typeAlias) →
    bs.length = (u.entry s).typeParams.length → List.Forall₂ R bs bs' →
    R (u.applied s bs) (u.applied s bs')
  single : ∀ s, D s → u.kind s = .object → R (u.single s) (u.single s)
  constant : ∀ v, R (.constant v) (.constant v)

theorem Over.exists_instantiate (hb : u.Over D ps b) (hparams : ∀ p ∈ ps, u.kind p = .typeParam)
    {R : Ty → Ty → Prop} (hR : u.HandsOn D R) (hlen : as.length = ps.length)
    (hargs : List.Forall₂ R as as') :
    ∃ v : Ty × Ty, (∀ apply, b.instantiate apply ps as = some v.1 ∧
      b.instantiate apply ps as' = some v.2) ∧ (ps = [] → v = (b, b)) ∧ R v.1 v.2 := by
  have hne : ∀ p ∈ ps, u.kind p ≠ .package := fun p hp ↦ by simp [hparams p hp]
  induction hb with
  | @applied s bs hD hs hlen' _ ih =>
    choose! g hg hsame hrelated using ih
    have hclass : s ∉ ps := fun hmem ↦ by simp [hparams s hmem] at hs
    refine ⟨(u.applied s (bs.map fun b ↦ (g b).1), u.applied s (bs.map fun b ↦ (g b).2)),
      fun apply ↦ ⟨?_, ?_⟩, fun hnil ↦ ?_, hR.applied s _ _ hD hs ?_ ?_⟩
    · rw [instantiate_applied hne hclass, mapM_eq_some_map fun b hb ↦ (hg b hb apply).1]
      rfl
    · rw [instantiate_applied hne hclass, mapM_eq_some_map fun b hb ↦ (hg b hb apply).2]
      rfl
    · have hfst : bs.map (fun b ↦ (g b).1) = bs :=
        (List.map_congr_left fun b hb ↦ by rw [hsame b hb hnil, id_eq]).trans (List.map_id bs)
      have hsnd : bs.map (fun b ↦ (g b).2) = bs :=
        (List.map_congr_left fun b hb ↦ by rw [hsame b hb hnil, id_eq]).trans (List.map_id bs)
      rw [hfst, hsnd]
    · rw [List.length_map, hlen']
    · exact List.forall₂_map_left_iff.2 (List.forall₂_map_right_iff.2 (List.forall₂_same.2 hrelated))
  | @single s hD hs =>
    refine ⟨(u.single s, u.single s), fun apply ↦ ?_, fun _ ↦ rfl, hR.single s hD hs⟩
    simp [SymbolTable.single, Ty.instantiate, instantiateQualifier_default hne]
  | constant v =>
    exact ⟨(.constant v, .constant v), fun _ ↦ ⟨rfl, rfl⟩, fun _ ↦ rfl, hR.constant v⟩
  | @param p hp =>
    obtain ⟨i, hi⟩ : ∃ i, ps.idxOf? p = some i := Option.isSome_iff_exists.1 (by simpa using hp)
    have hlt : i < as.length := by
      rw [hlen]
      exact (List.idxOf?_eq_some_iff.1 hi).1
    have hlt' : i < as'.length := hargs.length_eq ▸ hlt
    refine ⟨(as[i], as'[i]), fun apply ↦ ?_, fun hnil ↦ ?_, hargs.get hlt hlt'⟩
    · simp [SymbolTable.typeRef, SymbolTable.applied, Ty.instantiate, Ty.instantiateList, hi, hlt,
        hlt']
    · rw [hnil] at hp
      cases hp

theorem Over.exists_substitute (hb : u.Over D ps b) (hparams : ∀ p ∈ ps, u.kind p = .typeParam)
    {R : Ty → Ty → Prop} (hR : u.HandsOn D R) (hlen : as.length = ps.length)
    (hargs : List.Forall₂ R as as') :
    ∃ t t', (∀ n, b.substitute n ps as = some t) ∧ (∀ n, b.substitute n ps as' = some t') ∧
      R t t' := by
  obtain ⟨v, hv, hsame, hrelated⟩ := hb.exists_instantiate hparams hR hlen hargs
  have hsubst {cs : List Ty} {t : Ty} (hlen : cs.length = ps.length)
      (ht : ∀ apply, b.instantiate apply ps cs = some t) (hsame : ps = [] → t = b) (n : Nat) :
      b.substitute n ps cs = some t := by
    by_cases hnil : ps = []
    · rw [Ty.substitute.eq_def, if_pos (by simp [hnil]), hsame hnil]
    · have hcs : cs ≠ [] := by
        rintro rfl
        exact hnil (List.length_eq_zero_iff.1 hlen.symm)
      rw [Ty.substitute.eq_def, if_neg (by simp [hnil, hcs])]
      cases n <;> exact ht _
  refine ⟨v.1, v.2, hsubst hlen (fun apply ↦ (hv apply).1) fun hnil ↦ ?_,
    hsubst (hargs.length_eq ▸ hlen) (fun apply ↦ (hv apply).2) fun hnil ↦ ?_, hrelated⟩
  · rw [hsame hnil]
  · rw [hsame hnil]

end Substitute

end TypeTag.SymbolTable
