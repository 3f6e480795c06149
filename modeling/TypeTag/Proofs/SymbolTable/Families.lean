import TypeTag.Proofs.Builds.Trails
import TypeTag.Proofs.SymbolTable.AliasChains
import TypeTag.Proofs.SymbolTable.Exploration
import TypeTag.Proofs.SymbolTable.Search

namespace TypeTag.SymbolTable

open Relation

/-- Flattening leads from types with the property `F` to such types, and to members with the
property `M`. -/
structure FlatteningKeeps (u : SymbolTable) (F : Ty → Prop) (M : Member Ty → Prop) : Prop where
  unfold : ∀ t t', F t → u.Unfolds t t' → F t'
  parents : ∀ t, F t → ∀ p ∈ t.parents, F p
  members : ∀ t, F t → ∀ m ∈ t.members, M m

structure ExpansionKeeps (u : SymbolTable) (F : Ty → Prop) (M : Member Ty → Prop) : Prop extends
    u.FlatteningKeeps F M where
  result : ∀ t, F t → F t.resultType
  eta : ∀ t, F t → F (u.etaExpand t).resultType

/-- The search for components leads from types with the property to such types too. -/
structure ComponentsKeep (u : SymbolTable) (F : Ty → Prop) (M : Member Ty → Prop) : Prop extends
    u.ExpansionKeeps F M where
  args : ∀ t, F t → ∀ a ∈ t.args, F a
  typeRef : ∀ s, F (u.typeRef s)
  symbolType : ∀ s, F (u.symbolType s)
  bounds : ∀ s, F (u.boundsOf s).1 ∧ F (u.boundsOf s).2
  parent : ∀ s, ∀ p ∈ (u.entry s).parents, F p
  specialise : ∀ n q s as p p', F (.ref q s as) → p ∈ (u.entry s).parents →
    u.specialise n s as p = some p' → F p'
  body : ∀ s b, u.kind s = .term → (u.entry s).body = some b → F b

variable {u : SymbolTable} {F : Ty → Prop} {M : Member Ty → Prop} {n : Nat} {t d : Ty}

theorem body_of_termType {s : SymbolId} (h : (u.termType s).isSingle = false) :
    (u.entry s).body = some (u.termType s) := by
  unfold termType at h ⊢
  dsimp only at h ⊢
  split
  · next hb => exact hb
  · next hdeclared =>
    split at h
    · next hk hb => exact absurd hb (hdeclared _ hk)
    · cases h

namespace FlatteningKeeps

variable (hF : u.FlatteningKeeps F M)

include hF

theorem dealias (ht : F t) (hd : u.dealias n t = some d) : F d := by
  have hpath := dealias_unfolds hd
  clear hd
  induction hpath with
  | refl => exact ht
  | tail _ hstep ih => exact hF.unfold _ _ ih hstep

section Flatten

variable {m : Nat} {stack parts ps : List Ty} {members ms : List (Member Ty)}

theorem flattenFrom (hstack : ∀ t ∈ stack, F t) (hparts : ∀ t ∈ parts, F t)
    (hmembers : ∀ m ∈ members, M m)
    (h : u.flattenFrom m n stack parts members = some (ps, ms)) :
    (∀ t ∈ ps, F t) ∧ ∀ m ∈ ms, M m := by
  induction n generalizing stack parts members with
  | zero =>
    cases stack with
    | nil =>
      cases h
      exact ⟨hparts, hmembers⟩
    | cons t stack => cases h
  | succ n ih =>
    cases stack with
    | nil =>
      cases h
      exact ⟨hparts, hmembers⟩
    | cons t stack =>
      have ht := hstack t List.mem_cons_self
      have hrest (x : Ty) (hx : x ∈ stack) := hstack x (List.mem_cons_of_mem t hx)
      obtain ⟨d, hd, h⟩ := Option.bind_eq_some_iff.1 h
      have hd := hF.dealias ht hd
      split at h
      · refine ih (fun x hx ↦ ?_) hparts (fun m hm ↦ ?_) h
        · exact (List.mem_append.1 hx).elim (hF.parents _ hd x) (hrest x)
        · exact (List.mem_append.1 hm).elim (hmembers m) (hF.members _ hd m)
      · refine ih hrest (fun x hx ↦ ?_) hmembers h
        split at hx
        · exact hparts x hx
        · exact (List.mem_append.1 hx).elim (hparts x) fun hx ↦ List.mem_singleton.1 hx ▸ ht

theorem flatten_single {p : Ty} (ht : F t) (hf : u.flatten n t = some (.single p)) : F p :=
  (hF.flattenFrom (by simpa using ht) (by simp) (by simp) (flattenFrom_of_single hf)).1 p
    (List.mem_singleton_self p)

theorem flatten_compound (ht : F t) (hf : u.flatten n t = some (.compound ps ms)) :
    (∀ t ∈ ps, F t) ∧ ∀ m ∈ ms, M m :=
  hF.flattenFrom (by simpa using ht) (by simp) (by simp) (flattenFrom_of_compound hf)

end Flatten

end FlatteningKeeps

namespace ExpansionKeeps

variable (hF : u.ExpansionKeeps F M)

include hF

theorem dealiasResult (ht : F t) (hd : u.dealiasResult n t = some d) : F d := by
  obtain ⟨e, he, hd⟩ := Option.bind_eq_some_iff.1 hd
  exact hF.dealias (hF.result e (hF.dealias ht he)) hd

theorem dealiasResult_etaExpand (ht : F t) (hd : u.dealiasResult n (u.etaExpand t) = some d) :
    F d := by
  have hcases : u.etaExpand t = t ∨ u.aliasRedex? (u.etaExpand t) = none := by
    unfold etaExpand
    split
    · dsimp only
      split
      · exact .inl rfl
      · exact .inr rfl
    · exact .inl rfl
  rcases hcases with heq | hnone
  · rw [heq] at hd
    exact hF.dealiasResult ht hd
  · obtain ⟨e, he, hd⟩ := Option.bind_eq_some_iff.1 hd
    rw [dealias_of_aliasRedex?_eq_none hnone] at he
    cases he
    exact hF.dealias (hF.eta t ht) hd

theorem leaf (ht : F t) (hd : u.leaf n t = some d) : F d := by
  unfold SymbolTable.leaf at hd
  split at hd
  · cases hd
    exact ht
  · exact hF.dealias ht hd

theorem stableBindings (ht : F t) {ρ : Bindings} {own : Ty}
    (h : u.stableBindings n t = some (ρ, own)) : F own := by
  obtain ⟨d, hd, h⟩ := Option.map_eq_some_iff.1 h
  cases h
  split at hd
  · cases hd
    exact ht
  · exact hF.dealiasResult_etaExpand ht hd

/-- A property that qualifiers, bounds and arguments have, all that a description asks for has. -/
theorem asks {x : Ty} (hqualifiers : ∀ t, F t → ∀ x ∈ u.qualifierTypes t, F x)
    (hbounds : ∀ t, F t → ∀ x ∈ u.boundTypes t, F x) (hargs : ∀ t, F t → ∀ a ∈ t.args, F a)
    (hmembers : ∀ m, M m → ∀ x ∈ memberTypes m, F x) (ht : F t) (h : u.Asks t x) : F x := by
  cases h with
  | result _ hresult _ => exact hF.dealiasResult_etaExpand ht hresult
  | part hf hx => exact (hF.flatten_compound ht hf).1 x hx
  | member hf hm hx => exact hmembers _ ((hF.flatten_compound ht hf).2 _ hm) x hx
  | @named p l e n hf hl hd hx =>
    have he : F e := hF.dealiasResult (hF.leaf (hF.flatten_single ht hf) hl) hd
    rcases List.mem_append.1 hx with hx | hx
    · exact (List.mem_append.1 hx).elim (hqualifiers e he x) (hbounds e he x)
    · exact hargs e he x hx
  | cut hx => exact hqualifiers t ht x hx

end ExpansionKeeps

namespace ComponentsKeep

variable (hF : u.ComponentsKeep F M) {c : SymbolId}

include hF

theorem looksInto (hd : F d) (h : u.LooksInto n d t) : F t := by
  cases h with
  | @bound _ s _ _ => exact (hF.bounds s).2
  | specialised _ hp hp' => exact hF.specialise n _ _ _ _ _ hd hp hp'
  | declared hk hsingle => exact hF.body _ _ hk (body_of_termType hsingle)
  | parent _ hp => exact hF.parent _ _ hp
  | own s => exact hF.symbolType s
  | part hp => exact hF.parents _ hd _ hp
  | result ps r => exact hF.result _ hd

theorem findBase {visiting : List SymbolId} (ht : F t) {b : Ty}
    (h : u.findBase c n visiting t = some (some b)) : F b := by
  obtain ⟨d, hd, hfound⟩ := findBase_induction (fun _ _ _ ht hd ↦ hF.dealias ht hd)
    (fun _ _ _ hd hinto ↦ hF.looksInto hd hinto) ht h
  obtain ⟨q, as, -, rfl⟩ | ⟨q, -, rfl⟩ | ⟨-, rfl⟩ := hfound
  · exact hd
  · exact hd
  · exact hF.symbolType c

theorem baseType (ht : F t) {b : Ty} (h : u.baseType n t c = some (some b)) : F b := by
  obtain ⟨found, hfound, h⟩ := Option.bind_eq_some_iff.1 h
  cases found with
  | some form =>
    cases h
    exact hF.findBase ht hfound
  | none =>
    dsimp only at h
    split at h
    · cases h
      exact hF.typeRef c
    · cases h

theorem ancestors (ht : F t) {forms : List Ty} (h : u.ancestors n t = some forms) :
    ∀ b ∈ forms, F b := by
  intro b hb
  obtain ⟨d, hd, h⟩ := Option.bind_eq_some_iff.1 h
  have hd := hF.dealiasResult_etaExpand ht hd
  obtain ⟨bases, -, h⟩ := Option.bind_eq_some_iff.1 h
  obtain ⟨found, hfound, h⟩ := Option.bind_eq_some_iff.1 h
  cases h
  have hb : some b ∈ found := by simpa using (List.mem_filter.1 hb).1
  obtain ⟨c, -, hform⟩ := mem_mapM hfound hb
  exact hF.baseType hd hform

theorem closeOverAncestors {ts cs : List Ty} (hts : ∀ t ∈ ts, F t)
    (h : u.closeOverAncestors n ts = some cs) : ∀ t ∈ cs, F t := by
  refine explore_forall (fun t found ht hfound ↦ hF.ancestors ht hfound) (fun t ht ↦ ?_) (by simp) h
  obtain ⟨x, hx, rfl⟩ := List.mem_map.1 ht
  exact hts x hx

theorem expansionArgs (ht : F t) {as : List Ty} (h : u.expansionArgs n t = some as) :
    ∀ a ∈ as, F a := by
  intro a ha
  unfold SymbolTable.expansionArgs at h
  dsimp only at h
  split at h
  · cases h
    cases ha
  · obtain ⟨d, hd, h⟩ := Option.bind_eq_some_iff.1 h
    cases h
    exact hF.args d (hF.dealias (hF.eta t ht) hd) a (List.mem_filter.1 ha).1

theorem withBounds (ht : F t) {ts : List Ty} (h : u.withBounds n t = some ts) :
    ∀ a ∈ ts, F a := by
  obtain ⟨d, -, h⟩ := Option.bind_eq_some_iff.1 h
  dsimp only at h
  split at h
  · next l u' heq =>
    obtain ⟨s, -, hsig⟩ := Option.map_eq_some_iff.1 heq
    obtain ⟨rfl, rfl⟩ := signature_eq_bounds hsig
    obtain ⟨hl, hh⟩ := hF.bounds s
    cases h
    simp [ht, hl, hh]
  · cases h
    simpa using ht

theorem successors (ht : F t) {found : List Ty} (h : u.successors n t = some found) :
    ∀ b ∈ found, F b := by
  obtain ⟨d, hd, h⟩ := Option.bind_eq_some_iff.1 h
  have hd := hF.result d (hF.dealias ht hd)
  obtain ⟨as, has, h⟩ := Option.bind_eq_some_iff.1 h
  obtain ⟨bounded, hbounded, h⟩ := Option.bind_eq_some_iff.1 h
  cases h
  intro b hb
  simp only [List.mem_append, List.mem_cons] at hb
  rcases hb with (rfl | hb) | hb
  · exact hd
  · obtain ⟨ts, hts, hb⟩ := List.mem_flatten.1 hb
    obtain ⟨a, ha, hts⟩ := mem_mapM hbounded hts
    refine hF.withBounds ?_ hts b hb
    simp only [List.mem_append] at ha
    rcases ha with (ha | ha) | ha
    · exact hF.args t ht a ha
    · exact hF.args _ hd a ha
    · exact hF.expansionArgs ht has a ha
  · exact hF.parents _ hd b hb

theorem reachable (ht : F t) {ts : List Ty} (h : u.reachable n t = some ts) : ∀ b ∈ ts, F b :=
  explore_forall (fun _ _ ht hfound ↦ hF.successors ht hfound) (by simpa [Ty.measured] using ht)
    (by simp) h

end ComponentsKeep

end TypeTag.SymbolTable
