import TypeTag.Proofs.Ty.References

namespace TypeTag.Ty

/-- Every refinement in the type is one of `S`, and every type function in it binds symbols
of `B`. -/
inductive Confined (B : SymbolId → Prop) (S : Ty → Prop) : Ty → Prop
  | ref {q : Option Ty} {s : SymbolId} {as : List Ty} (qualifier : ∀ t ∈ q, Confined B S t)
    (args : ∀ t ∈ as, Confined B S t) : Confined B S (.ref q s as)
  | single {q : Option Ty} {s : SymbolId} (qualifier : ∀ t ∈ q, Confined B S t) :
    Confined B S (.single q s)
  | self (s : SymbolId) : Confined B S (.self s)
  | constant (v : String) : Confined B S (.constant v)
  | refined {ps : List Ty} {ms : List (Member Ty)} (mem : S (.refined ps ms))
    (parents : ∀ t ∈ ps, Confined B S t) (members : ∀ m ∈ ms, ∀ t ∈ m.types, Confined B S t) :
    Confined B S (.refined ps ms)
  | poly {ps : List SymbolId} {r : Ty} (params : ∀ p ∈ ps, B p) (result : Confined B S r) :
    Confined B S (.poly ps r)
  | bounds {l u : Ty} (lower : Confined B S l) (upper : Confined B S u) : Confined B S (.bounds l u)

namespace Confined

variable {B : SymbolId → Prop} {S S' : Ty → Prop} {t : Ty}

theorem mono (hS : ∀ r, S r → S' r) (h : t.Confined B S) : t.Confined B S' := by
  induction h with
  | ref _ _ ihq ihas => exact .ref ihq ihas
  | single _ ihq => exact .single ihq
  | self s => exact .self s
  | constant v => exact .constant v
  | refined mem _ _ ihps ihms => exact .refined (hS _ mem) ihps ihms
  | poly params _ ih => exact .poly params ih
  | bounds _ _ ihl ihu => exact .bounds ihl ihu

theorem of_mem_children {c : Ty} (h : t.Confined B S) (hc : c ∈ t.children) : c.Confined B S := by
  cases h with
  | ref qualifier args =>
    exact (List.mem_append.1 hc).elim (fun h ↦ qualifier c (Option.mem_toList.1 h)) (args c)
  | single qualifier => exact qualifier c (Option.mem_toList.1 hc)
  | self s => cases hc
  | constant v => cases hc
  | refined _ parents members =>
    rcases List.mem_append.1 hc with hc | hc
    · exact parents c hc
    · obtain ⟨m, hm, hc⟩ := List.mem_flatMap.1 hc
      exact members m hm c hc
  | poly _ result => exact List.mem_singleton.1 hc ▸ result
  | bounds lower upper =>
    rcases List.mem_cons.1 hc with rfl | hc
    · exact lower
    · exact List.mem_singleton.1 hc ▸ upper

theorem of_result (h : t.Confined B S) : t.resultType.Confined B S := by
  cases h with
  | poly _ result => exact result
  | ref qualifier args => exact .ref qualifier args
  | single qualifier => exact .single qualifier
  | self s => exact .self s
  | constant v => exact .constant v
  | refined mem parents members => exact .refined mem parents members
  | bounds lower upper => exact .bounds lower upper

theorem sized (h : t.Confined B S) : t.Confined B fun r ↦ S r ∧ sizeOf r ≤ sizeOf t := by
  have hchild {c t : Ty} (hc : c ∈ t.children)
      (h : c.Confined B fun r ↦ S r ∧ sizeOf r ≤ sizeOf c) :
      c.Confined B fun r ↦ S r ∧ sizeOf r ≤ sizeOf t :=
    h.mono fun r hr ↦ ⟨hr.1, Nat.le_trans hr.2 (Nat.le_of_lt (sizeOf_lt_of_mem_children hc))⟩
  induction h with
  | ref _ _ ihq ihas =>
    refine .ref (fun c hc ↦ hchild ?_ (ihq c hc)) fun c hc ↦ hchild ?_ (ihas c hc)
    · exact List.mem_append_left _ (Option.mem_toList.2 hc)
    · exact List.mem_append_right _ hc
  | single _ ihq => exact .single fun c hc ↦ hchild (Option.mem_toList.2 hc) (ihq c hc)
  | self s => exact .self s
  | constant v => exact .constant v
  | refined mem _ _ ihps ihms =>
    refine .refined ⟨mem, Nat.le_refl _⟩ (fun c hc ↦ hchild (List.mem_append_left _ hc) (ihps c hc))
      fun m hm c hc ↦ hchild ?_ (ihms m hm c hc)
    exact List.mem_append_right _ (List.mem_flatMap.2 ⟨m, hm, hc⟩)
  | poly params _ ih => exact .poly params (hchild List.mem_cons_self ih)
  | bounds _ _ ihl ihu =>
    exact .bounds (hchild List.mem_cons_self ihl)
      (hchild (List.mem_cons_of_mem _ List.mem_cons_self) ihu)

theorem mapChildren {g : Ty → Ty} (hrefined : t.isRefined = false) (ht : t.Confined B S)
    (hg : ∀ c ∈ t.children, (g c).Confined B S') : (t.mapChildren g).Confined B S' := by
  have hqualifier {q : Option Ty} (h : ∀ c ∈ q, c ∈ t.children) :
      ∀ x ∈ q.map g, x.Confined B S' := by
    intro x hx
    obtain ⟨c, hc, rfl⟩ := Option.map_eq_some_iff.1 hx
    exact hg c (h c hc)
  cases ht with
  | ref _ _ =>
    exact .ref (hqualifier fun c hc ↦ List.mem_append_left _ (Option.mem_toList.2 hc))
      (List.forall_mem_map.2 fun c hc ↦ hg c (List.mem_append_right _ hc))
  | single _ => exact .single (hqualifier fun c hc ↦ Option.mem_toList.2 hc)
  | self s => exact .self s
  | constant v => exact .constant v
  | refined _ _ _ => cases hrefined
  | poly params _ => exact .poly params (hg _ List.mem_cons_self)
  | bounds _ _ =>
    exact .bounds (hg _ List.mem_cons_self) (hg _ (List.mem_cons_of_mem _ List.mem_cons_self))

theorem instantiate {apply : Ty → List Ty → Option Ty} {params : List SymbolId} {args : List Ty}
    (hS : ∀ r, S r → S' r ∧ ∀ p ∈ params, p ∉ r.symbols) (hargs : ∀ a ∈ args, a.Confined B S')
    (happly : ∀ c bs d, c.Confined B S' → (∀ b ∈ bs, b.Confined B S') → apply c bs = some d →
      d.Confined B S') (ht : t.Confined B S) {t' : Ty}
    (h : t.instantiate apply params args = some t') : t'.Confined B S' := by
  induction t using inside generalizing t' with
  | node t ih =>
    cases hrefined : t.isRefined with
    | true =>
      have hmem : S t := by
        cases ht with
        | refined mem _ _ => exact mem
        | _ => cases hrefined
      have hkept : t.instantiate apply params args = some t :=
        instantiate_of_not_refers fun p hp hrefers ↦ (hS t hmem).2 p hp hrefers.mem_symbols
      obtain rfl := Option.some.inj (hkept.symm.trans h)
      exact ht.mono fun r hr ↦ (hS r hr).1
    | false =>
      obtain ⟨-, g, rfl, hg⟩ | ⟨q, s, as, i, rfl, -, ⟨-, rfl⟩ | ⟨c, bs, hc, hbs, h⟩⟩ :=
        instantiate_cases h
      · exact ht.mapChildren hrefined fun c hc ↦ ih c hc (ht.of_mem_children hc) (hg c hc)
      · exact ht.mono fun r hr ↦ (hS r hr).1
      · have hc := hargs c (List.mem_of_getElem? hc)
        have hbs : ∀ b ∈ bs, b.Confined B S' := by
          intro b hb
          obtain ⟨a, ha, hab⟩ := mem_instantiateList hbs hb
          have ha : a ∈ (Ty.ref q s as).children := List.mem_append_right _ ha
          exact ih a ha (ht.of_mem_children ha) hab
        obtain ⟨-, rfl⟩ | ⟨-, h⟩ := h
        · exact hc
        · exact happly c bs t' hc hbs h

theorem substitute (hB : ∀ r, S' r → ∀ p, B p → p ∉ r.symbols) {params : List SymbolId}
    {args : List Ty} (hS : ∀ r, S r → S' r ∧ ∀ p ∈ params, p ∉ r.symbols)
    (hargs : ∀ a ∈ args, a.Confined B S') (ht : t.Confined B S) {n : Nat} {t' : Ty}
    (h : t.substitute n params args = some t') : t'.Confined B S' := by
  have happly {beta : List SymbolId → List Ty → Ty → Option Ty} (hbeta : ∀ ps as r d,
      (∀ p ∈ ps, B p) → (∀ a ∈ as, a.Confined B S') → r.Confined B S' → beta ps as r = some d →
        d.Confined B S') (c : Ty) (bs : List Ty) (d : Ty) (hc : c.Confined B S')
      (hbs : ∀ b ∈ bs, b.Confined B S') (h : applyConstructor beta c bs = some d) :
      d.Confined B S' := by
    obtain ⟨q, s, rfl, rfl⟩ | ⟨ps, r, rfl, h⟩ | rfl := applyConstructor_cases h
    · cases hc with
      | ref qualifier _ => exact .ref qualifier hbs
    · cases hc with
      | poly params result => exact hbeta ps bs r d params hbs result h
    · exact hc
  induction n using Nat.strongRecOn generalizing S params args t t' with
  | ind n ih =>
    rcases substitute_cases h with ⟨-, rfl⟩ | ⟨beta, hless, h⟩
    · exact ht.mono fun r hr ↦ (hS r hr).1
    · refine ht.instantiate hS hargs (happly fun ps as r d hps has hr h ↦ ?_) h
      obtain ⟨k, hk, h⟩ := hless ps as r d h
      exact ih k hk (fun r hr ↦ ⟨hr, fun p hp ↦ hB r hr p (hps p hp)⟩) has hr h

end Confined

end TypeTag.Ty
