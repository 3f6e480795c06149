import TypeTag.Proofs.Ty.Rules

namespace TypeTag.Ty

section References

inductive Refers (p : SymbolId) : Ty → Prop
  | head (q : Option Ty) (as : List Ty) : Refers p (ref q p as)
  | child {c t : Ty} (hc : c ∈ t.children) (h : Refers p c) : Refers p t

/-- A reference in the type is to the symbol and not below a type function that binds it. -/
inductive RefersFreely (p : SymbolId) : Ty → Prop
  | head (q : Option Ty) (as : List Ty) : RefersFreely p (ref q p as)
  | child {c t : Ty} (hbinds : ∀ ps r, t = poly ps r → p ∉ ps) (hc : c ∈ t.children)
    (h : RefersFreely p c) : RefersFreely p t

/-- A type function in the type, at any depth, binds the symbol and returns a reference to it. -/
inductive RefersBound (p : SymbolId) : Ty → Prop
  | poly {ps : List SymbolId} {r : Ty} (hp : p ∈ ps) (h : r.Refers p) : RefersBound p (poly ps r)
  | child {c t : Ty} (hc : c ∈ t.children) (h : RefersBound p c) : RefersBound p t

variable {p : SymbolId} {t t' : Ty}

theorem refers_iff : t.Refers p ↔ t.RefersFreely p ∨ t.RefersBound p := by
  constructor
  · intro h
    induction h with
    | head q as => exact .inl (.head q as)
    | @child c t hc h ih =>
      by_cases hbinds : ∃ ps r, t = .poly ps r ∧ p ∈ ps
      · obtain ⟨ps, r, rfl, hp⟩ := hbinds
        exact .inr (.poly hp (List.mem_singleton.1 hc ▸ h))
      · exact ih.imp (.child (fun ps r ht hp ↦ hbinds ⟨ps, r, ht, hp⟩) hc) (.child hc)
  · rintro (h | h)
    · induction h with
      | head q as => exact .head q as
      | child _ hc _ ih => exact .child hc ih
    · induction h with
      | poly _ h => exact .child (List.mem_singleton_self _) h
      | child hc _ ih => exact .child hc ih

theorem Refers.mem_symbols (h : t.Refers p) : p ∈ t.symbols := by
  induction h with
  | head q as => exact List.mem_append_left _ List.mem_cons_self
  | child hc _ ih => exact mem_symbols_of_mem_children hc ih

end References

section Substitute

variable {apply : Ty → List Ty → Option Ty} {params : List SymbolId} {args : List Ty} {t t' : Ty}
  {p : SymbolId} {n : Nat}

theorem instantiate_of_not_refers (h : ∀ p ∈ params, ¬t.Refers p) :
    t.instantiate apply params args = some t := by
  induction t using inside with
  | node t ih =>
    have hhead (q : Option Ty) (s : SymbolId) (as : List Ty) (ht : t = ref q s as) : s ∉ params :=
      fun hs ↦ h s hs (ht ▸ .head q as)
    exact (instantiate_eq_some_iff hhead).2 ⟨id, t.mapChildren_id,
      fun c hc ↦ ih c hc fun p hp hrefers ↦ h p hp (.child hc hrefers)⟩

theorem substitute_of_not_refers (h : ∀ p ∈ params, ¬t.Refers p) :
    t.substitute n params args = some t := by
  unfold substitute
  split
  · rfl
  · cases n <;> exact instantiate_of_not_refers h

theorem not_refers_of_instantiate (hargs : ∀ a ∈ args, ¬a.Refers p)
    (happly : ∀ c bs d, ¬c.Refers p → (∀ b ∈ bs, ¬b.Refers p) → apply c bs = some d → ¬d.Refers p)
    (ht : ¬t.Refers p ∨ p ∈ params ∧ args.length = params.length)
    (h : t.instantiate apply params args = some t') : ¬t'.Refers p := by
  induction t using inside generalizing t' with
  | node t ih =>
    have hinside : ∀ c ∈ t.children, ¬c.Refers p ∨ p ∈ params ∧ args.length = params.length :=
      fun c hc ↦ ht.imp_left fun ht hrefers ↦ ht (.child hc hrefers)
    obtain ⟨hhead, g, rfl, hg⟩ | ⟨q, s, as, i, rfl, hi, ⟨hnone, rfl⟩ | ⟨c, bs, hc, hbs, h⟩⟩ :=
      instantiate_cases h
    · intro hrefers
      generalize heq : t.mapChildren g = t' at hrefers
      cases hrefers with
      | head q as =>
        cases t with
        | ref q' s as' =>
          cases heq
          exact ht.elim (· (.head q' as')) fun hp ↦ hhead q' p as' rfl hp.1
        | _ => cases heq
      | @child d _ hd hrefers =>
        rw [← heq, children_mapChildren] at hd
        obtain ⟨c, hc, rfl⟩ := List.mem_map.1 hd
        exact ih c hc (hinside c hc) (hg c hc) hrefers
    · have hlt := (List.idxOf?_eq_some_iff.1 hi).1
      rw [List.getElem?_eq_none_iff] at hnone
      exact ht.elim id fun hp ↦ absurd hp.2 (by omega)
    · have hc := hargs c (List.mem_of_getElem? hc)
      have hbs : ∀ b ∈ bs, ¬b.Refers p := by
        intro b hb
        obtain ⟨a, ha, hab⟩ := mem_instantiateList hbs hb
        have ha : a ∈ (ref q s as).children := List.mem_append_right _ ha
        exact ih a ha (hinside a ha) hab
      obtain ⟨-, rfl⟩ | ⟨-, h⟩ := h
      · exact hc
      · exact happly c bs t' hc hbs h

theorem not_refers_of_substitute (hargs : ∀ a ∈ args, ¬a.Refers p)
    (ht : ¬t.Refers p ∨ p ∈ params ∧ args.length = params.length)
    (h : t.substitute n params args = some t') : ¬t'.Refers p := by
  have happly {beta : List SymbolId → List Ty → Ty → Option Ty} (hbeta : ∀ ps as r d,
      (∀ a ∈ as, ¬a.Refers p) → ¬r.Refers p → beta ps as r = some d → ¬d.Refers p)
      (c : Ty) (bs : List Ty) (d : Ty) (hc : ¬c.Refers p) (hbs : ∀ b ∈ bs, ¬b.Refers p)
      (h : applyConstructor beta c bs = some d) : ¬d.Refers p := by
    obtain ⟨q, s, rfl, rfl⟩ | ⟨ps, r, rfl, h⟩ | rfl := applyConstructor_cases h
    · intro hrefers
      cases hrefers with
      | head => exact hc (.head q [])
      | child hb hrefers =>
        rcases List.mem_append.1 hb with hq | hb
        · exact hc (.child (List.mem_append_left _ hq) hrefers)
        · exact hbs _ hb hrefers
    · exact hbeta ps bs r d hbs (fun hr ↦ hc (.child (List.mem_singleton_self r) hr)) h
    · exact hc
  induction n using Nat.strongRecOn generalizing params args t t' with
  | ind n ih =>
    rcases substitute_cases h with ⟨hnil, rfl⟩ | ⟨beta, hless, h⟩
    · refine ht.elim id fun ⟨hp, hlen⟩ ↦ ?_
      have hlt := List.length_pos_of_mem hp
      rcases hnil with rfl | rfl
      · cases hp
      · exact absurd hlen (Nat.ne_of_lt hlt)
    · refine not_refers_of_instantiate hargs (happly fun ps as r d has hr h ↦ ?_) ht h
      obtain ⟨k, hk, h⟩ := hless ps as r d h
      exact ih k hk has (.inl hr) h

/-- Substitution goes on below type functions: it keeps a type without free references to the
parameters, whatever the arguments, if and only if no type function in the type returns a reference to
a parameter that it binds. -/
theorem substitute_eq_self_iff (hfree : ∀ p ∈ params, ¬t.RefersFreely p) :
    (∀ args, args.length = params.length →
      ∃ n, ∀ m, n ≤ m → t.substitute m params args = some t) ↔ ∀ p ∈ params, ¬t.RefersBound p := by
  constructor
  · intro h p hp hbound
    obtain ⟨n, hn⟩ := h (params.map fun _ ↦ constant "") (List.length_map _)
    have hargs : ∀ a ∈ params.map fun _ ↦ constant "", ¬a.Refers p := by
      intro a ha hrefers
      obtain ⟨q, -, rfl⟩ := List.mem_map.1 ha
      cases hrefers with
      | child hc _ => cases hc
    exact not_refers_of_substitute hargs (.inr ⟨hp, List.length_map _⟩) (hn n (Nat.le_refl n))
      (refers_iff.2 (.inr hbound))
  · intro h args _
    exact ⟨0, fun m _ ↦ substitute_of_not_refers fun p hp hrefers ↦
      (refers_iff.1 hrefers).elim (hfree p hp) (h p hp)⟩

theorem substitute_unused_binder :
    let t := poly [1] (ref none 0 [])
    (∀ p ∈ [1], ¬t.RefersFreely p) ∧ (∀ p ∈ [1], ¬t.RefersBound p) ∧ ∀ args, args.length = 1 →
      ∃ n, ∀ m, n ≤ m → t.substitute m [1] args = some t := by
  intro t
  have hrefers : ¬Refers 1 (poly [1] (ref none 0 [])) := by
    intro h
    cases h with
    | child hc h =>
      obtain rfl := List.mem_singleton.1 hc
      cases h with
      | child hc _ => cases hc
  have hfree : ∀ p ∈ [1], ¬t.RefersFreely p :=
    List.forall_mem_singleton.2 fun h ↦ hrefers (refers_iff.2 (.inl h))
  have hbound : ∀ p ∈ [1], ¬t.RefersBound p :=
    List.forall_mem_singleton.2 fun h ↦ hrefers (refers_iff.2 (.inr h))
  exact ⟨hfree, hbound, (substitute_eq_self_iff hfree).2 hbound⟩

/-- A class `0` with the parameter `1`, as a type function, does not refer to the parameter freely,
but substitution replaces the references to what it binds. -/
theorem substitute_below_binder :
    let t := poly [1] (ref none 0 [ref none 1 []])
    let t' := poly [1] (ref none 0 [constant "x"])
    (∀ p ∈ [1], ¬t.RefersFreely p) ∧ (∀ n, t.substitute n [1] [constant "x"] = some t') ∧
      t' ≠ t := by
  intro t t'
  have hfree : ¬RefersFreely 1 (poly [1] (ref none 0 [ref none 1 []])) := by
    intro h
    cases h with
    | child hbinds _ _ => exact hbinds _ _ rfl (List.mem_singleton_self 1)
  exact ⟨List.forall_mem_singleton.2 hfree, fun n ↦ by cases n <;> rfl, by simp [t, t']⟩

end Substitute

end TypeTag.Ty
