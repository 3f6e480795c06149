import TypeTag.Build.Flattening
import TypeTag.Proofs.SymbolTable.PlainAliases

namespace TypeTag.SymbolTable

open Relation

/-- `p` is a parent of the refinement that `t` is or stands for. -/
def Opens (u : SymbolTable) (t p : Ty) : Prop :=
  ∃ d, u.Dealiased t d ∧ p ∈ d.parents

def Flattens (u : SymbolTable) (m : Nat) (stack : List Ty) : Prop :=
  ∀ parts members, ∃ n r, u.flattenFrom m n stack parts members = some r

variable {u : SymbolTable} {m n : Nat} {t d : Ty} {stack rest ps parts : List Ty}
  {ms members : List (Member Ty)} {r : List Ty × List (Member Ty)}

theorem opens_iff (hd : u.dealias n t = some d) {p : Ty} : u.Opens t p ↔ p ∈ d.parents := by
  simp only [Opens, dealiased_iff hd, exists_eq_left]

theorem acc_of_flattenFrom (h : u.flattenFrom m n stack parts members = some r) (ht : t ∈ stack) :
    Acc (fun p t ↦ u.Opens t p) t := by
  induction n generalizing stack parts members t with
  | zero =>
    cases stack with
    | nil => cases ht
    | cons s rest => cases h
  | succ n ih =>
    cases stack with
    | nil => cases ht
    | cons s rest =>
      obtain ⟨d, hd, h⟩ := Option.bind_eq_some_iff.1 h
      have hparts : (∀ x ∈ rest, Acc (fun p t ↦ u.Opens t p) x) ∧
          ∀ p ∈ d.parents, Acc (fun p t ↦ u.Opens t p) p := by
        cases d with
        | refined ps ms =>
          exact ⟨fun x hx ↦ ih h (List.mem_append_right ps hx),
            fun p hp ↦ ih h (List.mem_append_left rest hp)⟩
        | _ => exact ⟨fun x hx ↦ ih h hx, fun p hp ↦ absurd hp List.not_mem_nil⟩
      rcases List.mem_cons.1 ht with rfl | ht
      · exact Acc.intro t fun p hp ↦ hparts.2 p ((opens_iff hd).1 hp)
      · exact hparts.1 t ht

theorem Flattens.cons_of_refined (hd : u.dealias m t = some (.refined ps ms))
    (h : u.Flattens m (ps ++ rest)) : u.Flattens m (t :: rest) := by
  intro parts members
  obtain ⟨n, r, hr⟩ := h parts (members ++ ms)
  exact ⟨n + 1, r, (flattenFrom_refined hd).trans hr⟩

theorem Flattens.cons_of_leaf (hd : u.dealias m t = some d) (hrefined : d.isRefined = false)
    (h : u.Flattens m rest) : u.Flattens m (t :: rest) := by
  intro parts members
  obtain ⟨n, r, hr⟩ := h (if parts.contains t then parts else parts ++ [t]) members
  exact ⟨n + 1, r, (flattenFrom_leaf hd hrefined).trans hr⟩

theorem Flattens.append (hcons : ∀ p ∈ ps, ∀ {rest}, u.Flattens m rest → u.Flattens m (p :: rest))
    (h : u.Flattens m rest) : u.Flattens m (ps ++ rest) := by
  induction ps with
  | nil => exact h
  | cons p ps ih => exact hcons p List.mem_cons_self (ih fun q hq ↦ hcons q (List.mem_cons_of_mem p hq))

theorem Flattens.cons_of_acc (hdealias : ∀ t, ∃ d, u.dealias m t = some d)
    (ht : Acc (fun p t ↦ u.Opens t p) t) (h : u.Flattens m rest) : u.Flattens m (t :: rest) := by
  induction ht generalizing rest with
  | intro t _ ih =>
    obtain ⟨d, hd⟩ := hdealias t
    cases hrefined : d.isRefined with
    | false => exact h.cons_of_leaf hd hrefined
    | true =>
      cases d with
      | refined ps ms =>
        exact .cons_of_refined hd (h.append fun p hp {_} h ↦ ih p ((opens_iff hd).2 hp) h)
      | _ => cases hrefined

theorem exists_flatten_of_flattens (h : u.Flattens m [t]) : ∃ n f, u.flatten n t = some f := by
  obtain ⟨n, r, hr⟩ := h [] []
  have hfrom := u.flattenFrom_keeps (Nat.le_max_left m n) (Nat.le_max_right m n) _ _ _ r hr
  refine ⟨max m n, ?_⟩
  unfold flatten
  rw [hfrom]
  simp only [Option.bind_eq_bind, Option.bind_some]
  split <;> exact ⟨_, rfl⟩

/-- Over a table whose aliases take no arguments, a flattening ends if and only if it opens no
refinement within itself. -/
theorem flatten_ends_iff (hplain : u.PlainAliases) (t : Ty) :
    (∃ f n, ∀ m, n ≤ m → u.flatten m t = some f) ↔
      ∀ x, ReflTransGen u.Opens t x → ¬TransGen u.Opens x x := by
  constructor
  · rintro ⟨f, n, hf⟩
    obtain ⟨r, hr, -⟩ := Option.bind_eq_some_iff.1 (hf n (Nat.le_refl n))
    exact fun x hx ↦ not_transGen_self_of_acc (acc_of_flattenFrom hr (List.mem_singleton_self t)) hx
  · intro h
    have hknown {x : Ty} (hx : ReflTransGen u.Opens t x) : u.Known u.size t x := by
      induction hx with
      | refl => exact ⟨t, List.mem_cons_self, .refl t⟩
      | tail _ hstep ih =>
        obtain ⟨d, hd, hp⟩ := hstep
        exact (hplain.known_of_dealiased ih hd).of_occursIn
          (Ty.Inside.of_child (Ty.mem_children_of_parents hp)).occursIn
    have hacc := acc_of_acyclic (finite_known u u.size t) (fun x _ hx _ ↦ hknown hx) h
    have hnil : u.Flattens (u.size + 1) [] := fun parts members ↦ ⟨0, (parts, members), rfl⟩
    obtain ⟨n, f, hf⟩ := exists_flatten_of_flattens (hnil.cons_of_acc hplain.exists_dealias hacc)
    exact ⟨f, n, fun m hm ↦ u.flatten_keeps hm t f hf⟩

theorem knot_flatten_ends :
    let u := knot
    u.PlainAliases ∧
      ∃ f n, ∀ m, n ≤ m → u.flatten m (.refined [u.typeRef 7, u.typeRef 8] []) = some f := by
  intro u
  have hl : u.dealias 3 (u.typeRef 7) = some (u.applied 5 [u.typeRef 7]) := by decide +kernel
  have hm : u.dealias 3 (u.typeRef 8) = some (u.typeRef 8) := by decide +kernel
  have hacc : Acc (fun p t ↦ u.Opens t p) (.refined [u.typeRef 7, u.typeRef 8] []) := by
    refine Acc.intro _ fun p hp ↦ Acc.intro p fun q hq ↦ ?_
    rw [opens_iff (dealias_of_aliasRedex?_eq_none rfl 0)] at hp
    rcases List.mem_pair.1 hp with rfl | rfl
    · exact absurd ((opens_iff hl).1 hq) List.not_mem_nil
    · exact absurd ((opens_iff hm).1 hq) List.not_mem_nil
  exact ⟨plainAliases_knot, (flatten_ends_iff plainAliases_knot _).2 fun x hx ↦
    not_transGen_self_of_acc hacc hx⟩

/-- A class `Int` and the alias `A` of the refinement of `Int` and `A`. -/
def selfRefinement : SymbolTable :=
  let (int, u) := initial.cls 1 "Int"
  let (a, u) := u.typeAlias 1 "A"
  u.setBody a (.refined [u.typeRef int, u.typeRef a] [])

/-- The alias is opened again each time it is met. -/
theorem selfRefinement_flatten :
    let u := selfRefinement
    u.Constructible ∧ u.PlainAliases ∧ ∀ n, u.flatten n (u.typeRef 6) = none := by
  intro u
  have hu : u.Constructible := by
    refine .step (.step (.step .initial (.cls 1 "Int" ?_)) (.typeAlias 1 "A" ?_)) (.setBody 6 _ ?_ ?_)
    all_goals first
      | decide
      | exact fun s hs ↦ (by decide : ∀ s ∈ _, s < _) s hs
  have hplain : u.PlainAliases := by decide
  have ha : u.dealias 2 (u.typeRef 6) = some (.refined [u.typeRef 5, u.typeRef 6] []) := by
    decide +kernel
  refine ⟨hu, hplain, fun n ↦ ?_⟩
  cases hf : u.flatten n (u.typeRef 6) with
  | none => rfl
  | some f =>
    obtain ⟨r, hr, -⟩ := Option.bind_eq_some_iff.1 hf
    have hacc := acc_of_flattenFrom hr (List.mem_singleton_self _)
    have hself : u.Opens (u.typeRef 6) (u.typeRef 6) :=
      (opens_iff ha).2 (List.mem_cons_of_mem _ (List.mem_singleton_self _))
    exact absurd (.single hself) (not_transGen_self_of_acc hacc .refl)

end TypeTag.SymbolTable
