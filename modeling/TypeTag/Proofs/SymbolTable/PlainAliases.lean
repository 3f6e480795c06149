import TypeTag.Proofs.Steps.Descent
import TypeTag.Proofs.SymbolTable.AliasFree
import TypeTag.Proofs.SymbolTable.Known
import TypeTag.Proofs.SymbolTable.Preorder

namespace TypeTag

open Relation

theorem Ty.substitute_no_params (n : Nat) (args : List Ty) (t : Ty) :
    t.substitute n [] args = some t := by
  unfold substitute
  rfl

namespace SymbolTable

def PlainAliases (u : SymbolTable) : Prop :=
  ∀ s, u.kind s = .typeAlias → (u.entry s).typeParams = []

instance (u : SymbolTable) : Decidable u.PlainAliases :=
  decidable_of_iff (∀ s < u.size, u.kind s = .typeAlias → (u.entry s).typeParams = [])
    ⟨fun h s hs ↦ h s (kind_lt_size (by simp [hs])) hs, fun h s _ ↦ h s⟩

def bodies (u : SymbolTable) : Set Ty :=
  {b | ∃ s < u.size, (u.entry s).body = some b}

variable {u : SymbolTable} {n m : Nat} {t x d root : Ty} {seen : List Measured}

theorem bodies_subset_image (u : SymbolTable) :
    u.bodies ⊆ (fun s : Nat ↦ (u.entry s).body.getD default) '' {s | s < u.size} := by
  rintro b ⟨s, hs, hb⟩
  exact ⟨s, hs, by simp [hb]⟩

theorem finite_bodies (u : SymbolTable) : u.bodies.Finite :=
  ((Set.finite_lt_nat u.size).image _).subset u.bodies_subset_image

theorem ncard_bodies_le (u : SymbolTable) : u.bodies.ncard ≤ u.size := by
  have hfinite := Set.finite_lt_nat u.size
  calc u.bodies.ncard
    _ ≤ _ := Set.ncard_le_ncard u.bodies_subset_image (hfinite.image _)
    _ ≤ _ := Set.ncard_image_le hfinite
    _ = u.size := by rw [Set.ncard_eq_toFinset_card' _]; simp

namespace PlainAliases

variable (hu : u.PlainAliases)

include hu

theorem body_of_aliasRedex? {params : List SymbolId} {args : List Ty} {body : Ty}
    (h : u.aliasRedex? t = some (params, args, body)) : params = [] ∧ body ∈ u.bodies := by
  obtain ⟨q, s, rfl, hk, hb, -, rfl⟩ := aliasRedex?_eq_some_iff.1 h
  exact ⟨hu s hk, s, kind_lt_size (by simp [hk]), hb⟩

theorem exists_dealias (t : Ty) : ∃ d, u.dealias (u.size + 1) t = some d := by
  -- Without parameters nothing is substituted: the way from `t` stays among the bodies as declared.
  have hclosed : ∀ x ∈ insert t u.bodies, ∀ params args body,
      u.aliasRedex? x = some (params, args, body) →
        ∃ y ∈ insert t u.bodies, body.substitute 0 params args = some y := by
    intro x _ params args body hredex
    obtain ⟨rfl, hbody⟩ := hu.body_of_aliasRedex? hredex
    exact ⟨body, Set.mem_insert_of_mem t hbody, Ty.substitute_no_params 0 args body⟩
  refine exists_dealiasFrom (u.finite_bodies.insert t) hclosed (Set.mem_insert t u.bodies) ?_
  calc 0 + (insert t u.bodies \ {x | x.measured ∈ []}).ncard
    _ ≤ (insert t u.bodies).ncard := by
      rw [Nat.zero_add]
      exact Set.ncard_le_ncard Set.sdiff_subset (u.finite_bodies.insert t)
    _ ≤ u.bodies.ncard + 1 := Set.ncard_insert_le t u.bodies
    _ ≤ u.size + 1 := Nat.succ_le_succ u.ncard_bodies_le

theorem exists_successors (t : Ty) : ∃ found, u.successors (u.size + 1) t = some found := by
  obtain ⟨d, hd⟩ := hu.exists_dealias t
  have hown : ∃ own, u.expansionArgs (u.size + 1) t = some own := by
    unfold expansionArgs
    dsimp only
    split
    · exact ⟨[], rfl⟩
    · obtain ⟨e, he⟩ := hu.exists_dealias (u.etaExpand t).resultType
      rw [he]
      exact ⟨_, rfl⟩
  obtain ⟨own, hown⟩ := hown
  have hbounds : ∃ bounded, (t.args ++ d.resultType.args ++ own).mapM (u.withBounds (u.size + 1)) =
      some bounded := by
    refine exists_mapM fun a _ ↦ ?_
    obtain ⟨e, he⟩ := hu.exists_dealias a
    exact ⟨_, withBounds_eq he⟩
  obtain ⟨bounded, hbounded⟩ := hbounds
  simp only [successors, hd, hown, Option.bind_eq_bind, Option.bind_some, hbounded]
  exact ⟨_, rfl⟩

theorem known_of_dealiased (ht : u.Known u.size root t) (hd : u.Dealiased t d) :
    u.Known u.size root d := by
  obtain ⟨n, hd⟩ := hd
  have hpath := dealias_unfolds hd
  clear hd
  induction hpath with
  | refl => exact ht
  | tail _ hstep _ =>
    obtain ⟨q, s, as, body, n, -, hk, hbody, -, hsub⟩ := hstep.alias
    rw [hu s hk, Ty.substitute_no_params] at hsub
    cases hsub
    have hs : s < u.size := kind_lt_size (by simp [hk])
    exact known_of_mem_typesBelow hs (by simp [SymbolEntry.types, hbody])

/-- What comes next after a known type is known. The parameters that a generic type is given for
arguments do not count, and no alias is generic. -/
theorem known_of_comesNext (hwell : u.WellFormed) (ht : u.Known u.size root t)
    (h : u.ComesNext t x) : u.Known u.size root x := by
  have harg {t a : Ty} (ht : u.Known u.size root t) (ha : a ∈ t.resultType.args) :
      u.Known u.size root a :=
    ht.of_occursIn ((Ty.Inside.of_child (Ty.mem_children_of_args ha)).occursIn.trans
      t.occursIn_resultType)
  rcases h with ⟨d, hd, rfl | hx⟩ | ⟨a, ha, hx⟩
  · exact (hu.known_of_dealiased ht hd).of_occursIn d.occursIn_resultType
  · have hchild : x.Inside d.resultType := .of_child (Ty.mem_children_of_parents hx)
    exact (hu.known_of_dealiased ht hd).of_occursIn (hchild.occursIn.trans d.occursIn_resultType)
  · have ha : u.Known u.size root a := by
      rcases ha with ha | ⟨d, hd, ha⟩ | ⟨hgeneric, hown, e, he, ha⟩
      · exact ht.of_occursIn (Ty.Inside.of_child (Ty.mem_children_of_args ha)).occursIn
      · exact harg (hu.known_of_dealiased ht hd) ha
      · rcases resultType_etaExpand u t with heq | ⟨q, s, rfl, heq⟩
        · rw [heq] at he
          have hresult := ht.of_occursIn t.occursIn_resultType
          exact (hu.known_of_dealiased hresult he).of_occursIn
            (Ty.Inside.of_child (Ty.mem_children_of_args ha)).occursIn
        · have hk : u.kind s ≠ .typeAlias := fun hk ↦ hgeneric (hu s hk)
          rw [heq] at he
          obtain rfl := (dealiased_iff (dealias_of_kind_ne hk 0)).1 he
          obtain ⟨p, hp, rfl⟩ := List.mem_map.1 ha
          exact absurd hp (hown p rfl)
    rcases hx with rfl | ⟨d, -, hx⟩
    · exact ha
    · exact known_boundTypes hwell (Nat.le_refl _) hx

end PlainAliases

/-- Over a table whose aliases take no arguments every search ends, also where aliases, bounds or
refinements lead back to themselves. -/
theorem reachable_ends (hu : u.Constructible) (hplain : u.PlainAliases) (root : Ty) :
    ∃ ts n, ∀ m, n ≤ m → u.reachable m root = some ts := by
  have hclosed : ∀ t ∈ {t | u.Known u.size root t}, ∃ found,
      u.successors (u.size + 1) t = some found ∧ ∀ x ∈ found, x ∈ {t | u.Known u.size root t} := by
    intro t ht
    obtain ⟨found, hfound⟩ := hplain.exists_successors t
    exact ⟨found, hfound, fun x hx ↦
      hplain.known_of_comesNext hu.wellFormed ht ((mem_successors_iff hfound).1 hx)⟩
  have hroot : u.Known u.size root root := ⟨root, List.mem_cons_self, .refl root⟩
  obtain ⟨ts, hts⟩ : ∃ ts, visit (u.successors (u.size + 1)) _ [] root = some ts :=
    exists_visit (finite_known u u.size root) hclosed hroot (Nat.le_refl _)
  obtain ⟨n, hn⟩ := reachable_iff_visit.2 ⟨_, visit_keeps (u.successors_keeps (Nat.le_max_left _ _))
    (Nat.le_max_right _ _) [] root ts hts⟩
  exact ⟨ts, n, fun m hm ↦ u.reachable_keeps hm root ts hn⟩

section Knot

theorem constructible_knot : knot.Constructible := by
  refine .step (.step (.step (.step (.step (.step (.step (.step (.step .initial
    (.cls 1 "Box" ?_)) (.typeParam 5 "A" .invariant ?_)) (.typeAlias 1 "L" ?_))
    (.typeAlias 1 "M" ?_)) (.typeAlias 1 "N" ?_)) (.setBounds 6 _ _ ?_ ?_ ?_))
    (.setBody 7 _ ?_ ?_)) (.setBody 8 _ ?_ ?_)) (.setBody 9 _ ?_ ?_)
  all_goals first
    | decide
    | exact fun s hs ↦ (by decide : ∀ s ∈ _, s < _) s hs

theorem plainAliases_knot : knot.PlainAliases := by
  decide

theorem knot_reachable_ends :
    let u := knot
    u.Constructible ∧ u.PlainAliases ∧ ∃ ts n, ∀ m, n ≤ m →
      u.reachable m (.refined [u.typeRef 7, u.typeRef 8, u.applied 5 [u.typeRef 6]] []) = some ts :=
  ⟨constructible_knot, plainAliases_knot, reachable_ends constructible_knot plainAliases_knot _⟩

end Knot

end SymbolTable

end TypeTag
