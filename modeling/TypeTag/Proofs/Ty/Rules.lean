import TypeTag.Proofs.Ty.Instantiation

namespace TypeTag.Ty

/-- What the nodes of a type may be. -/
structure Rules where
  qualified : Option Ty → SymbolId → Prop := fun _ _ ↦ True
  term : SymbolId → Prop := fun _ ↦ True
  param : SymbolId → Prop := fun _ ↦ True
  typeMember : String → Prop := fun _ ↦ True

inductive Obeys (R : Rules) : Ty → Prop
  | ref {q : Option Ty} {s : SymbolId} {as : List Ty} (hq : R.qualified q s)
    (qualifier : ∀ t ∈ q, Obeys R t) (args : ∀ t ∈ as, Obeys R t) : Obeys R (.ref q s as)
  | single {q : Option Ty} {s : SymbolId} (hq : R.qualified q s) (hs : R.term s)
    (qualifier : ∀ t ∈ q, Obeys R t) : Obeys R (.single q s)
  | self (s : SymbolId) : Obeys R (.self s)
  | constant (v : String) : Obeys R (.constant v)
  | refined {ps : List Ty} {ms : List (Member Ty)} (parents : ∀ t ∈ ps, Obeys R t)
    (names : ∀ n t, .type n t ∈ ms → R.typeMember n)
    (members : ∀ m ∈ ms, ∀ t ∈ m.types, Obeys R t) : Obeys R (.refined ps ms)
  | poly {ps : List SymbolId} {r : Ty} (params : ∀ p ∈ ps, R.param p) (result : Obeys R r) :
    Obeys R (.poly ps r)
  | bounds {l u : Ty} (lower : Obeys R l) (upper : Obeys R u) : Obeys R (.bounds l u)

def MemberObeys (R : Rules) (m : Member Ty) : Prop :=
  (∀ n t, m = .type n t → R.typeMember n) ∧ ∀ t ∈ m.types, t.Obeys R

theorem obeys_refined_iff {R : Rules} {ps : List Ty} {ms : List (Member Ty)} :
    (refined ps ms).Obeys R ↔ (∀ t ∈ ps, t.Obeys R) ∧ ∀ m ∈ ms, MemberObeys R m := by
  constructor
  · intro h
    cases h with
    | refined parents names members =>
      exact ⟨parents, fun m hm ↦ ⟨fun n t heq ↦ names n t (heq ▸ hm), members m hm⟩⟩
  · rintro ⟨parents, members⟩
    exact .refined parents (fun n t hm ↦ (members _ hm).1 n t rfl) fun m hm ↦ (members m hm).2

namespace Obeys

variable {R : Rules} {t : Ty}

theorem of_mem_children {c : Ty} (h : t.Obeys R) (hc : c ∈ t.children) : c.Obeys R := by
  cases h with
  | ref _ qualifier args =>
    exact (List.mem_append.1 hc).elim (fun h ↦ qualifier c (Option.mem_toList.1 h)) (args c)
  | single _ _ qualifier => exact qualifier c (Option.mem_toList.1 hc)
  | self s => cases hc
  | constant v => cases hc
  | refined parents _ members =>
    rcases List.mem_append.1 hc with hc | hc
    · exact parents c hc
    · obtain ⟨m, hm, hc⟩ := List.mem_flatMap.1 hc
      exact members m hm c hc
  | poly _ result => exact List.mem_singleton.1 hc ▸ result
  | bounds lower upper =>
    rcases List.mem_cons.1 hc with rfl | hc
    · exact lower
    · exact List.mem_singleton.1 hc ▸ upper

theorem of_args (h : t.Obeys R) : ∀ a ∈ t.args, a.Obeys R :=
  fun _ ha ↦ h.of_mem_children (mem_children_of_args ha)

theorem of_qualifier (h : t.Obeys R) : ∀ q ∈ t.qualifier?, q.Obeys R :=
  fun _ hq ↦ h.of_mem_children (mem_children_of_qualifier? hq)

theorem of_result (h : t.Obeys R) : t.resultType.Obeys R := by
  cases h with
  | poly _ result => exact result
  | ref hq qualifier args => exact .ref hq qualifier args
  | single hq hs qualifier => exact .single hq hs qualifier
  | self s => exact .self s
  | constant v => exact .constant v
  | refined parents names members => exact .refined parents names members
  | bounds lower upper => exact .bounds lower upper

theorem of_parents (h : t.Obeys R) : ∀ p ∈ t.parents, p.Obeys R :=
  fun _ hp ↦ h.of_mem_children (mem_children_of_parents hp)

theorem of_members (h : t.Obeys R) : ∀ m ∈ t.members, MemberObeys R m := by
  cases t with
  | refined ps ms => exact (obeys_refined_iff.1 h).2
  | _ => exact fun m hm ↦ nomatch hm

end Obeys

section Instantiate

variable {apply : Ty → List Ty → Option Ty} {params : List SymbolId} {args : List Ty}

/-- A symbol selected from a qualifier may be so when parameters are replaced in the qualifier. -/
def Rules.Stable (R : Rules) : Prop :=
  ∀ {apply params args q q' s}, R.qualified q s → (∀ p ∈ params, R.param p) →
    instantiateQualifier apply params args q = some q' → R.qualified q' s

variable {R : Rules}

theorem Obeys.mapChildren {g : Ty → Ty} {t : Ty} (ht : t.Obeys R)
    (hq : ∀ q s, R.qualified q s → (∀ c ∈ q, c ∈ t.children) → R.qualified (q.map g) s)
    (hg : ∀ c ∈ t.children, (g c).Obeys R) : (t.mapChildren g).Obeys R := by
  have hqualifier {q : Option Ty} (h : ∀ c ∈ q, c ∈ t.children) : ∀ x ∈ q.map g, x.Obeys R := by
    intro x hx
    obtain ⟨c, hc, rfl⟩ := Option.map_eq_some_iff.1 hx
    exact hg c (h c hc)
  have hlist {ts : List Ty} (h : ∀ c ∈ ts, c ∈ t.children) : ∀ x ∈ ts.map g, x.Obeys R :=
    List.forall_mem_map.2 fun c hc ↦ hg c (h c hc)
  cases ht with
  | @ref q s as hqs _ _ =>
    have hinside (c : Ty) (hc : c ∈ q) : c ∈ (Ty.ref q s as).children :=
      List.mem_append_left as (Option.mem_toList.2 hc)
    exact .ref (hq q s hqs hinside) (hqualifier hinside)
      (hlist fun c hc ↦ List.mem_append_right _ hc)
  | @single q s hqs hs _ =>
    have hinside (c : Ty) (hc : c ∈ q) : c ∈ (Ty.single q s).children := Option.mem_toList.2 hc
    exact .single (hq q s hqs hinside) hs (hqualifier hinside)
  | self s => exact .self s
  | constant v => exact .constant v
  | @refined ps ms _ names _ =>
    refine obeys_refined_iff.2 ⟨hlist fun c hc ↦ List.mem_append_left _ hc, ?_⟩
    refine List.forall_mem_map.2 fun m hm ↦ ⟨fun n t' heq ↦ ?_, fun x hx ↦ ?_⟩
    · cases m with
      | method => cases heq
      | type n' t =>
        cases heq
        exact names n t hm
    · obtain ⟨c, hc, rfl⟩ := List.mem_map.1 (m.types_map g ▸ hx)
      exact hg c (List.mem_append_right ps (List.mem_flatMap.2 ⟨m, hm, hc⟩))
  | poly params _ => exact .poly params (hg _ List.mem_cons_self)
  | bounds _ _ =>
    exact .bounds (hg _ List.mem_cons_self) (hg _ (List.mem_cons_of_mem _ List.mem_cons_self))

theorem Obeys.instantiate (hR : R.Stable) (hparams : ∀ p ∈ params, R.param p)
    (hargs : ∀ a ∈ args, a.Obeys R)
    (happly : ∀ c bs d, c.Obeys R → (∀ b ∈ bs, b.Obeys R) → apply c bs = some d → d.Obeys R)
    {t : Ty} (ht : t.Obeys R) {t' : Ty} (h : t.instantiate apply params args = some t') :
    t'.Obeys R := by
  induction t using inside generalizing t' with
  | node t ih =>
    obtain ⟨-, g, rfl, hg⟩ | ⟨q, s, as, i, rfl, -, ⟨-, rfl⟩ | ⟨c, bs, hc, hbs, h⟩⟩ :=
      instantiate_cases h
    · exact ht.mapChildren
        (fun q s hqs hq ↦ hR hqs hparams (instantiateQualifier_map fun c hc ↦ hg c (hq c hc)))
        fun c hc ↦ ih c hc (ht.of_mem_children hc) (hg c hc)
    · exact ht
    · have hc := hargs c (List.mem_of_getElem? hc)
      have hbs : ∀ b ∈ bs, b.Obeys R := by
        intro b hb
        obtain ⟨a, ha, hab⟩ := mem_instantiateList hbs hb
        have ha : a ∈ (Ty.ref q s as).children := List.mem_append_right _ ha
        exact ih a ha (ht.of_mem_children ha) hab
      obtain ⟨-, rfl⟩ | ⟨-, h⟩ := h
      · exact hc
      · exact happly c bs t' hc hbs h

theorem Obeys.applyConstructor {beta : List SymbolId → List Ty → Ty → Option Ty}
    (hbeta : ∀ ps as r d, (∀ p ∈ ps, R.param p) → (∀ a ∈ as, a.Obeys R) → r.Obeys R →
      beta ps as r = some d → d.Obeys R) {c d : Ty} {as : List Ty} (hc : c.Obeys R)
    (has : ∀ a ∈ as, a.Obeys R) (h : applyConstructor beta c as = some d) : d.Obeys R := by
  obtain ⟨q, s, rfl, rfl⟩ | ⟨ps, r, rfl, h⟩ | rfl := applyConstructor_cases h
  · cases hc with
    | ref hq qualifier _ => exact .ref hq qualifier has
  · cases hc with
    | poly params result => exact hbeta ps as r d params has result h
  · exact hc

theorem Obeys.substitute (hR : R.Stable) (hparams : ∀ p ∈ params, R.param p)
    (hargs : ∀ a ∈ args, a.Obeys R) {t : Ty} (ht : t.Obeys R) {n : Nat} {t' : Ty}
    (h : t.substitute n params args = some t') : t'.Obeys R := by
  induction n using Nat.strongRecOn generalizing params args t t' with
  | ind n ih =>
    rcases substitute_cases h with ⟨-, rfl⟩ | ⟨beta, hbeta, h⟩
    · exact ht
    · refine ht.instantiate hR hparams hargs (fun c bs d hc hbs h ↦ ?_) h
      refine hc.applyConstructor (fun ps as r d hps has hr h ↦ ?_) hbs h
      obtain ⟨k, hk, h⟩ := hbeta ps as r d h
      exact ih k hk hps has hr h

end Instantiate

section Members

def membersNamed (M : String → Prop) : Rules where
  typeMember := M

inductive DeclaresMember (m : String) : Ty → Prop
  | member {ps : List Ty} {ms : List (Member Ty)} {t : Ty} (h : .type m t ∈ ms) :
    DeclaresMember m (.refined ps ms)
  | child {s t : Ty} (hs : s ∈ t.children) (h : DeclaresMember m s) : DeclaresMember m t

theorem obeys_membersNamed {M : String → Prop} {t : Ty} (h : ∀ m, t.DeclaresMember m → M m) :
    t.Obeys (membersNamed M) := by
  have hchild {s t : Ty} (h : ∀ m, t.DeclaresMember m → M m) (hs : s ∈ t.children) :
      ∀ m, s.DeclaresMember m → M m :=
    fun m hm ↦ h m (.child hs hm)
  induction t with
  | ref q s as ihq ihas =>
    refine .ref trivial (fun t ht ↦ ihq t ht (hchild h ?_)) fun t ht ↦ ihas t ht (hchild h ?_)
    · exact List.mem_append_left as (Option.mem_toList.2 ht)
    · exact List.mem_append_right _ ht
  | single q s ihq =>
    exact .single trivial trivial fun t ht ↦ ihq t ht (hchild h (Option.mem_toList.2 ht))
  | self s => exact .self s
  | constant v => exact .constant v
  | refined ps ms ihps ihms =>
    refine .refined (fun t ht ↦ ihps t ht (hchild h (List.mem_append_left _ ht)))
      (fun m t hm ↦ h m (.member hm)) fun m hm t ht ↦ ihms m hm t ht (hchild h ?_)
    exact List.mem_append_right _ (List.mem_flatMap.2 ⟨m, hm, ht⟩)
  | poly ps r ih => exact .poly (fun _ _ ↦ trivial) (ih (hchild h List.mem_cons_self))
  | bounds l u ihl ihu =>
    exact .bounds (ihl (hchild h List.mem_cons_self))
      (ihu (hchild h (List.mem_cons_of_mem l List.mem_cons_self)))

end Members

end TypeTag.Ty
