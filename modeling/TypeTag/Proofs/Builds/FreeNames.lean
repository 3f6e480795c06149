import TypeTag.Proofs.Builds.Scopes
import TypeTag.Proofs.Descriptor.FreeNames

namespace TypeTag

namespace Bindings

variable {ρ : Bindings} {x y p : String}

theorem lookup_cons_eq_if {e : String × String} :
    (e :: ρ).lookup x = if x = e.1 then some e.2 else ρ.lookup x := by
  rw [List.lookup_cons]
  by_cases h : x = e.1
  · simp [h]
  · rw [beq_eq_false_iff_ne.2 h, if_neg h]

theorem lookup_replace : (ρ.map fun e ↦ if e.1 == y then (y, p) else e).lookup x =
    if x = y then (ρ.lookup y).map fun _ ↦ p else ρ.lookup x := by
  induction ρ with
  | nil => simp
  | cons e ρ ih =>
    rw [List.map_cons, lookup_cons_eq_if, lookup_cons_eq_if, lookup_cons_eq_if, ih]
    grind

theorem lookup_bind : (ρ.bind y p).lookup x = if x = y then some p else ρ.lookup x := by
  have hbound : ρ.any (·.1 == y) = true ↔ ∃ q, ρ.lookup y = some q := by
    rw [← Option.isSome_iff_exists, List.lookup_isSome_iff, List.any_eq_true]
    simp only [beq_iff_eq, eq_comm (a := y)]
  unfold bind
  split
  · next h =>
    obtain ⟨q, hq⟩ := hbound.1 h
    rw [lookup_replace, hq, Option.map_some]
  · next h =>
    have hfree : ρ.lookup y = none := by
      rwa [hbound, ← Option.isSome_iff_exists, Option.not_isSome_iff_eq_none] at h
    rw [List.lookup_append, lookup_cons_eq_if]
    by_cases hx : x = y
    · simp [hx, hfree]
    · simp [hx]

theorem lookup_bindAll_eq_some {bs : List (String × String)}
    (h : (ρ.bindAll bs).lookup x = some p) : p ∈ bs.map (·.2) ∨ ρ.lookup x = some p := by
  induction bs generalizing ρ with
  | nil => exact .inr h
  | cons b bs ih =>
    rcases ih h with h | h
    · exact .inl (List.mem_cons_of_mem _ h)
    · rw [lookup_bind] at h
      split at h
      · cases h
        exact .inl List.mem_cons_self
      · exact .inr h

theorem lookup_bindAll_eq_none {bs : List (String × String)}
    (h : (ρ.bindAll bs).lookup x = none) : x ∉ bs.map (·.1) ∧ ρ.lookup x = none := by
  induction bs generalizing ρ with
  | nil => exact ⟨List.not_mem_nil, h⟩
  | cons b bs ih =>
    obtain ⟨hbs, h⟩ := ih h
    rw [lookup_bind] at h
    split at h
    · cases h
    · next hne => exact ⟨by simpa [hne] using hbs, h⟩

end Bindings

namespace SymbolTable

open Descriptor (mem_freeNames_iff mem_freeNames_lambda)

variable {u : SymbolTable} {M : String → Prop} {x : String}

def InPath (u : SymbolTable) (x : String) (d : Descriptor) : Prop :=
  ∃ m : NameRef Descriptor, (Descriptor.name m).OccursIn d ∧
    u.IsPath { m with boundaries := .empty } ∧
    x ∈ (Descriptor.name { m with boundaries := .empty }).freeNames

theorem InPath.of_part {d e : Descriptor} (h : u.InPath x e) (he : e ∈ d.parts) : u.InPath x d := by
  obtain ⟨m, hm, h⟩ := h
  exact ⟨m, hm.of_part he, h⟩

/-- What the free names of a descriptor are, apart from placeholders that are bound around it. -/
inductive Unbound (u : SymbolTable) (M : String → Prop) (ρ : Bindings) (x : String)
    (d : Descriptor) : Prop
  | typeMember (h : M x)
  | symbol (s : SymbolId) (hs : u.symName s = .type x)
    (h : ρ.lookup (u.fullName s) = none ∨ u.InPath x d)

theorem Unbound.of_part {ρ : Bindings} {d e : Descriptor} (h : u.Unbound M ρ x e)
    (he : e ∈ d.parts) : u.Unbound M ρ x d := by
  cases h with
  | typeMember h => exact .typeMember h
  | symbol s hs h => exact .symbol s hs (h.imp_right fun h ↦ h.of_part he)

theorem Scoped.of_mem_freeNames
    (hpaths : ∀ m, u.IsPath m → ∀ q ∈ m.qualifier, u.Scoped (Ty.membersNamed M) 1 [] q) {k : Nat}
    {ρ : Bindings} {d : Descriptor} (h : u.Scoped (Ty.membersNamed M) k ρ d)
    (hx : x ∈ d.freeNames) : (∃ y, ρ.lookup y = some x) ∨ u.Unbound M ρ x d := by
  induction h using induction_of_paths hpaths with
  | plain k ρ d applied named _ ih =>
    rcases (mem_freeNames_iff applied).1 hx with hx | ⟨e, he, hx⟩
    · have hname := named _ hx
      generalize hs : SymName.type x = s at hname
      cases hname with
      | literal => cases hs
      | symbol s h => exact .inr (.symbol s hs.symm (.inl h))
      | placeholder h =>
        cases hs
        exact .inl ⟨_, h⟩
      | typeMember h =>
        cases hs
        exact .inr (.typeMember h)
    · exact (ih e he hx).imp_right (·.of_part he)
  | path k ρ s m b _ isPath _ ihb ihq =>
    replace isPath : u.IsPath m := ⟨s, isPath⟩
    have hinPath (h : x ∈ (Descriptor.name m).freeNames) :
        u.InPath x (.name { m with boundaries := b }) := by
      refine ⟨_, .refl _, ?_, ?_⟩ <;> dsimp only <;> rwa [isPath.without_boundaries]
    rcases (mem_freeNames_iff rfl).1 hx with hname | ⟨e, he, hx⟩
    · have hmem : x ∈ (Descriptor.name m).freeNames := (mem_freeNames_iff rfl).2 (.inl hname)
      obtain ⟨s, q, rfl⟩ := isPath.exists_eq
      exact .inr (.symbol s (Option.some.inj hname) (.inr (hinPath hmem)))
    · rcases List.mem_append.1 he with hb | hq
      · exact (ihb e hb hx).imp_right (·.of_part he)
      · have hmem : x ∈ (Descriptor.name m).freeNames :=
          (mem_freeNames_iff rfl).2 (.inr ⟨e, List.mem_append_right _ hq, hx⟩)
        rcases ihq e (Option.mem_toList.1 hq) hx with ⟨y, hy⟩ | hfree
        · cases hy
        · cases hfree with
          | typeMember h => exact .inr (.typeMember h)
          | symbol s hs _ => exact .inr (.symbol s hs (.inr (hinPath hmem)))
  | lambda k level ρ params body _ _ ih =>
    obtain ⟨hx, hparams⟩ := mem_freeNames_lambda.1 hx
    rcases ih hx with ⟨y, hy⟩ | hfree
    · exact .inl ⟨y, (Bindings.lookup_bindAll_eq_some hy).resolve_left hparams⟩
    · refine .inr ?_
      cases hfree with
      | typeMember h => exact .typeMember h
      | symbol s hs h =>
        exact .symbol s hs (h.imp (fun h ↦ (Bindings.lookup_bindAll_eq_none h).2)
          fun h ↦ h.of_part List.mem_cons_self)

end SymbolTable

end TypeTag
