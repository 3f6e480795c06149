import TypeTag.Proofs.Builds.Grammar
import TypeTag.Proofs.Descriptor.Intersections
import TypeTag.Proofs.SymbolTable.Confined
import TypeTag.Proofs.SymbolTable.Constructible
import TypeTag.Proofs.Tags.Caching

namespace TypeTag

open Relation Std
open Build (Ends value?_bind_iff value?_lift_iff outcome_eq_some_some_iff)

theorem Descriptor.intersect_congr {ds es : List Descriptor} (h : ∀ d, d ∈ ds ↔ d ∈ es) :
    intersect ds = intersect es :=
  intersect_congr_opened fun d ↦ by simp only [List.mem_flatMap, h]

namespace SymbolTable

variable {u : SymbolTable} {n : Nat} {t t' : Ty}

/-- What a type comes down to: the leaves, each once, and the members of the refinement. -/
def Decomposes (u : SymbolTable) (t : Ty) (leaves : List Ty) (members : List (Member Ty)) : Prop :=
  ∃ n, u.flattenFrom n n [t] [] [] = some (leaves, members)

theorem nodup_of_flattenFrom {m : Nat} {stack parts ps : List Ty} {members ms : List (Member Ty)}
    (hparts : parts.Nodup) (h : u.flattenFrom m n stack parts members = some (ps, ms)) :
    ps.Nodup := by
  induction n generalizing stack parts members with
  | zero =>
    cases stack with
    | nil =>
      cases h
      exact hparts
    | cons t stack => cases h
  | succ n ih =>
    cases stack with
    | nil =>
      cases h
      exact hparts
    | cons t stack =>
      obtain ⟨d, -, h⟩ := Option.bind_eq_some_iff.1 h
      split at h
      · exact ih hparts h
      · refine ih ?_ h
        split
        · exact hparts
        · next hnot =>
          refine List.nodup_append.2 ⟨hparts, by simp, fun x hx y hy heq ↦ hnot ?_⟩
          rw [← List.mem_singleton.1 hy, ← heq]
          exact List.contains_iff_mem.2 hx

theorem flatten_eq_compound {ps : List Ty} {ms : List (Member Ty)}
    (hf : u.flattenFrom n n [t] [] [] = some (ps, ms)) (h : ¬∃ x, ps = [x] ∧ ms = []) :
    u.flatten n t = some (.compound ps ms) := by
  rw [flatten, hf]
  cases ps with
  | nil => rfl
  | cons p ps =>
    cases ps with
    | nil =>
      cases ms with
      | nil => exact absurd ⟨p, rfl, rfl⟩ h
      | cons m ms => rfl
    | cons q ps => rfl

section Same

variable {ps ps' : List Ty} {ms ms' : List (Member Ty)}
  (hf : u.flattenFrom n n [t] [] [] = some (ps, ms))
  (hf' : u.flattenFrom n n [t'] [] [] = some (ps', ms')) (hps : ∀ x, x ∈ ps ↔ x ∈ ps')
  (hms : ∀ m, m ∈ ms ↔ m ∈ ms')

include hf hf' hps hms

theorem flatten_of_same :
    (∃ x, ps = [x] ∧ u.flatten n t = some (.single x) ∧ u.flatten n t' = some (.single x)) ∨
      (u.flatten n t = some (.compound ps ms) ∧ u.flatten n t' = some (.compound ps' ms')) := by
  by_cases hsingle : ∃ x, ps = [x] ∧ ms = []
  · obtain ⟨x, rfl, rfl⟩ := hsingle
    have hms' : ms' = [] := List.eq_nil_iff_forall_not_mem.2 fun m hm ↦ by
      simpa using (hms m).2 hm
    have hps' : ps' = [x] := by
      have hperm := (List.perm_ext_iff_of_nodup (nodup_of_flattenFrom .nil hf')
        (by simp)).2 fun y ↦ (hps y).symm
      exact List.perm_singleton.1 hperm
    subst hms' hps'
    left
    refine ⟨x, rfl, ?_, ?_⟩ <;> rw [flatten] <;> simp only [hf, hf'] <;> rfl
  · right
    have hsingle' : ¬∃ x, ps' = [x] ∧ ms' = [] := by
      rintro ⟨x, rfl, rfl⟩
      refine hsingle ⟨x, ?_, List.eq_nil_iff_forall_not_mem.2 fun m hm ↦ ?_⟩
      swap
      · simpa using (hms m).1 hm
      have hperm := (List.perm_ext_iff_of_nodup (nodup_of_flattenFrom .nil hf) (by simp)).2 hps
      exact List.perm_singleton.1 hperm
    exact ⟨flatten_eq_compound hf hsingle, flatten_eq_compound hf' hsingle'⟩

variable {p q : Trail Measured} (hleaves : ∀ x ∈ ps, SameOn (u.recursion n) p q x)
  (hmembers : ∀ m ∈ ms, ∀ x ∈ memberTypes m, SameOn (u.recursion n) p q x)
  (hasked : ∀ x ∈ ps, ∀ y, u.Asks x y → SameOn (u.recursion n) p q y)

include hleaves hmembers hasked

theorem describeProper_of_same {ρ : Bindings} {d : Descriptor}
    (h : (u.describeProper n (u.recursion n) p ρ t).value? = some d) :
    (u.describeProper n (u.recursion n) q ρ t').value? = some d := by
  obtain ⟨f, hflat, h⟩ := value?_bind_iff.1 h
  have hflat := value?_lift_iff.1 hflat
  rcases flatten_of_same hf hf' hps hms with ⟨x, rfl, hx, hx'⟩ | ⟨hcompound, hcompound'⟩
  · cases hflat.symm.trans hx
    obtain ⟨e, he, h⟩ := value?_bind_iff.1 h
    have he' := value?_lift_iff.1 he
    have hleaf : u.flatten n x = some (.single x) := by
      obtain hx | ⟨d, hd, hrefined⟩ := isRefined_of_mem_flattenFrom hf (List.mem_singleton_self x)
      · cases hx
      · cases n with
        | zero => cases hf
        | succ n => exact flatten_eq_single hd hrefined
    refine value?_bind_iff.2 ⟨_, value?_lift_iff.2 hx', value?_bind_iff.2 ⟨e, he, ?_⟩⟩
    rw [← describeNamed_congr (p := p) fun e' hd y hy ↦
      hasked x (List.mem_singleton_self x) y (.named hleaf he' hd hy)]
    exact h
  · cases hflat.symm.trans hcompound
    obtain ⟨ds, hds, h⟩ := value?_bind_iff.1 h
    obtain ⟨ds', hds', hsame⟩ := Build.value?_mapM_of_mem_iff
      (g := (u.recursion n).nested q ρ) hds hps fun x hx ↦ (hleaves x hx).nested ρ
    refine value?_bind_iff.2 ⟨_, value?_lift_iff.2 hcompound', value?_bind_iff.2 ⟨ds', hds', ?_⟩⟩
    dsimp only at h ⊢
    rw [Descriptor.intersect_congr hsame]
    have hempty : ms'.isEmpty = ms.isEmpty := by
      rw [Bool.eq_iff_iff, List.isEmpty_iff, List.isEmpty_iff, List.eq_nil_iff_forall_not_mem,
        List.eq_nil_iff_forall_not_mem]
      simp only [hms]
    rw [hempty]
    split at h
    · next hnil =>
      rw [if_pos hnil]
      exact h
    · next hnil =>
      rw [if_neg hnil]
      obtain ⟨decls, hdecls, h⟩ := value?_bind_iff.1 h
      obtain ⟨decls', hdecls', hsame⟩ := Build.value?_mapM_of_mem_iff
        (g := u.describeMember (u.recursion n) q ρ) hdecls hms
        fun m hm ↦ describeMember_congr (hmembers m hm)
      refine value?_bind_iff.2 ⟨decls', hdecls', ?_⟩
      have hset : SortedSet.ofList decls'.flatten = SortedSet.ofList decls.flatten :=
        SortedSet.ofList_eq_iff.2 fun c ↦ by simp only [List.mem_flatten, hsame]
      rw [hset]
      exact h

end Same

theorem flattenFrom_le {m : Nat} (hnm : n ≤ m) {ps : List Ty} {ms : List (Member Ty)}
    (h : u.flattenFrom n n [t] [] [] = some (ps, ms)) :
    u.flattenFrom m m [t] [] [] = some (ps, ms) :=
  u.flattenFrom_keeps hnm hnm _ _ _ _ h

theorem rootDescriptor_of_same {ps ps' : List Ty} {ms ms' : List (Member Ty)}
    (ht : t.isRefined = true) (ht' : t'.isRefined = true) (hf : u.Decomposes t ps ms)
    (hf' : u.Decomposes t' ps' ms') (hps : ∀ x, x ∈ ps ↔ x ∈ ps') (hms : ∀ m, m ∈ ms ↔ m ∈ ms')
    (hvisible : ∀ x, (x ∈ ps ∨ ∃ m ∈ ms, x ∈ memberTypes m) → ∀ y, ReflTransGen u.Asks x y →
      u.Visible (fun z ↦ z ≠ t ∧ z ≠ t') y) {d : Descriptor}
    (h : Ends (u.rootDescriptor · t) (some d)) : Ends (u.rootDescriptor · t') (some d) := by
  obtain ⟨i, hi⟩ := h
  obtain ⟨j, hj⟩ := hf
  obtain ⟨k, hk⟩ := hf'
  have hroot {t : Ty} (ht : t.isRefined = true) (n : Nat) : (u.rootDescriptor n t).value? =
      (u.describeProper n (u.recursion n) (Trail.empty.enter t.measured) [] t).value? := by
    have hself : u.dealias n t = some t ∧ t.isPoly = false ∧ u.takesTypeArgs t = false := by
      cases t with
      | refined ps ms => exact ⟨dealias_of_aliasRedex?_eq_none rfl n, rfl, rfl⟩
      | _ => cases ht
    obtain ⟨hd, hpoly, hargs⟩ := hself
    rw [rootDescriptor, hd]
    simp only [Build.liftM_some, pure_bind, descriptor, describeAlone,
      describe_eq_describeProper hpoly hargs]
    ext d
    exact value?_bind_iff.trans ⟨fun ⟨_, _, h⟩ ↦ h, fun h ↦ ⟨(), rfl, h⟩⟩
  have hapart {z : Ty} (hz : z ≠ t ∧ z ≠ t') {s : Ty} (hs : s = t ∨ s = t') :
      (Trail.empty.enter s.measured).contains z.measured = false := by
    refine Trail.not_contains_enter ?_ rfl
    rintro rfl
    exact hs.elim hz.1 hz.2
  have halike : Trail.Alike (fun z ↦ z ≠ t ∧ z ≠ t') (Trail.empty.enter t.measured)
      (Trail.empty.enter t'.measured) :=
    ⟨rfl, fun z hz ↦ (hapart hz (.inl rfl)).trans (hapart hz (.inr rfl)).symm⟩
  let n := max i (max j k)
  have hsame (x : Ty) (hx : x ∈ ps ∨ ∃ m ∈ ms, x ∈ memberTypes m) (y : Ty)
      (hy : ReflTransGen u.Asks x y) := sameOn_of_alike n halike fun z hz ↦
        hvisible x hx z (hy.trans hz)
  have hvalue := outcome_eq_some_some_iff.1 (hi n (Nat.le_max_left _ _))
  rw [hroot ht] at hvalue
  refine (u.steady_rootDescriptor t').ends (n := n) (outcome_eq_some_some_iff.2 ?_)
  rw [hroot ht']
  refine describeProper_of_same (flattenFrom_le (by omega) hj) (flattenFrom_le (by omega) hk) hps
    hms (fun x hx ↦ hsame x (.inl hx) x .refl) (fun m hm x hx ↦ hsame x (.inr ⟨m, hm, hx⟩) x .refl)
    (fun x hx y hy ↦ hsame x (.inl hx) y (.single hy)) hvalue

/-- The refinements inside the type mention no symbol that a type function binds, as far as `B` has
the symbols that are bound there. -/
def NestedFree (B : SymbolId → Prop) (t : Ty) : Prop :=
  ∀ c ∈ t.children, c.Confined B fun r ↦ ∀ p, B p → p ∉ r.symbols

/-- Where no alias and no bound has refinements, the description of what a refinement comes down to
does not come back to it: it only meets refinements inside, which are smaller. -/
theorem RefinementFree.ne_of_asked {B : SymbolId → Prop} (hu : u.RefinementFree B)
    (ht : t.isRefined = true) (hfree : NestedFree B t) {ps : List Ty} {ms : List (Member Ty)}
    (hf : u.Decomposes t ps ms) {x : Ty} (hx : x ∈ ps ∨ ∃ m ∈ ms, x ∈ memberTypes m) {y : Ty}
    (hy : ReflTransGen u.Asks x y) : y ≠ t ∧ ∀ n d, u.dealias n y = some d → d ≠ t := by
  -- A refinement that mentions nothing bound is left as it is by every substitution, and so stays
  -- smaller than `t`.
  let S (r : Ty) : Prop := (∀ p, B p → p ∉ r.symbols) ∧ sizeOf r < sizeOf t
  have hB : ∀ r, S r → ∀ p, B p → p ∉ r.symbols := fun r hr ↦ hr.1
  have hchildren : ∀ c ∈ t.children, c.Confined B S := fun c hc ↦
    (hfree c hc).sized.mono fun r hr ↦
      ⟨hr.1, Nat.lt_of_le_of_lt hr.2 (Ty.sizeOf_lt_of_mem_children hc)⟩
  have hne {z : Ty} (hz : z.Confined B S) : z ≠ t := by
    rintro rfl
    cases hz with
    | refined mem _ _ => exact Nat.lt_irrefl _ mem.2
    | _ => cases ht
  have hxS : x.Confined B S := by
    obtain ⟨n, hf⟩ := hf
    cases t with
    | refined qs ns =>
      cases n with
      | zero => cases hf
      | succ n =>
        rw [flattenFrom_refined (dealias_of_aliasRedex?_eq_none rfl _)] at hf
        have hmembers (m : Member Ty) (hm : m ∈ ns) (c : Ty) (hc : c ∈ m.types) :
            c.Confined B S :=
          hchildren c (List.mem_append_right _ (List.mem_flatMap.2 ⟨m, hm, hc⟩))
        have hparents (c : Ty) (hc : c ∈ qs) : c.Confined B S :=
          hchildren c (List.mem_append_left _ hc)
        obtain ⟨hparts, hmembers⟩ := (hu.keeps hB).flattenFrom (by simpa using hparents) (by simp)
          (by simpa using hmembers) hf
        rcases hx with hx | ⟨m, hm, hx⟩
        · exact hparts x hx
        · exact memberTypes_confined (hmembers m hm) x hx
    | _ => cases ht
  have hyS : y.Confined B S := by
    induction hy with
    | refl => exact hxS
    | tail _ hstep ih => exact hu.asks hB ih hstep
  exact ⟨hne hyS, fun n d hd ↦ hne ((hu.keeps hB).dealias hyS hd)⟩

section Requests

variable {c c' : RootCache} (hc : c.Reached u) (hc' : c'.Reached u) (config config' : Config)
  (alive alive' : ObjectId → Bool) (k k' : Handle Ty)

include hc hc' in
/-- Two refinements with the same leaves and members, nested, ordered and repeated as they may be,
have the same descriptor or none, if the description of the leaves and members does not come back
to either refinement. So it is where no alias, no bound and no refinement class has a refinement in
what it stands for, and the refinements inside the two mention nothing that type functions bind. -/
theorem refinement_descriptor_canonical (ht : k.value.isRefined = true)
    (ht' : k'.value.isRefined = true) {ps ps' : List Ty} {ms ms' : List (Member Ty)}
    (hf : u.Decomposes k.value ps ms) (hf' : u.Decomposes k'.value ps' ms')
    (hps : ∀ x, x ∈ ps ↔ x ∈ ps') (hms : ∀ m, m ∈ ms ↔ m ∈ ms') :
    ((∀ x, (x ∈ ps ∨ ∃ m ∈ ms, x ∈ memberTypes m) → ∀ y, ReflTransGen u.Asks x y →
        u.Visible (fun z ↦ z ≠ k.value ∧ z ≠ k'.value) y) → ∀ d,
      Ends (fun n ↦ (u.makeDescriptor n config c alive k).1) (some d) ↔
        Ends (fun n ↦ (u.makeDescriptor n config' c' alive' k').1) (some d)) ∧
    ∀ B, u.RefinementFree B → NestedFree B k.value → NestedFree B k'.value → ∀ d,
      Ends (fun n ↦ (u.makeDescriptor n config c alive k).1) (some d) ↔
        Ends (fun n ↦ (u.makeDescriptor n config' c' alive' k').1) (some d) := by
  have hsame (hvisible : ∀ x, (x ∈ ps ∨ ∃ m ∈ ms, x ∈ memberTypes m) → ∀ y,
      ReflTransGen u.Asks x y → u.Visible (fun z ↦ z ≠ k.value ∧ z ≠ k'.value) y)
      (d : Descriptor) : Ends (fun n ↦ (u.makeDescriptor n config c alive k).1) (some d) ↔
        Ends (fun n ↦ (u.makeDescriptor n config' c' alive' k').1) (some d) := by
    rw [makeDescriptor_ends_iff hc.sound, makeDescriptor_ends_iff hc'.sound]
    refine ⟨rootDescriptor_of_same ht ht' hf hf' hps hms hvisible, rootDescriptor_of_same ht' ht hf'
      hf (fun x ↦ (hps x).symm) (fun m ↦ (hms m).symm) fun x hx y hy ↦ ?_⟩
    simp only [← hps, ← hms] at hx
    obtain ⟨hown, hexpanded⟩ := hvisible x hx y hy
    exact ⟨hown.symm, fun n e he ↦ (hexpanded n e he).symm⟩
  refine ⟨hsame, fun B hu hfree hfree' ↦ hsame fun x hx y hy ↦ ?_⟩
  have hne := hu.ne_of_asked ht hfree hf hx hy
  simp only [hps, hms] at hx
  have hne' := hu.ne_of_asked ht' hfree' hf' hx hy
  exact ⟨⟨hne.1, hne'.1⟩, fun n e he ↦ ⟨hne.2 n e he, hne'.2 n e he⟩⟩

end Requests

instance : DecidableEq (Member Ty) :=
  fun m n ↦ decidable_of_iff _ (Ty.beqMember_iff m n)

theorem refinementFree_of_body {B : SymbolId → Prop} {b : Ty} (hb : b.Confined B fun _ ↦ False)
    (h : ∀ s : Nat, s < u.size →
      ((u.entry s).body = none ∨ (u.entry s).body = some b) ∧ (u.entry s).bounds = none) :
    u.RefinementFree B := by
  have hentry (s : SymbolId) :
      ((u.entry s).body = none ∨ (u.entry s).body = some b) ∧ (u.entry s).bounds = none := by
    by_cases hs : s < u.size
    · exact h s hs
    · rw [entry_of_size_le u (Nat.le_of_not_lt hs)]
      exact ⟨.inl rfl, rfl⟩
  refine ⟨fun s t _ ht ↦ ?_, fun s b hb ↦ by simp [(hentry s).2] at hb⟩
  rcases (hentry s).1 with hbody | hbody <;> cases hbody.symm.trans ht
  exact hb

theorem anyWithAnyRef_descriptor :
    let u := initial
    let f := Member.method "f" [] u.anyRefType
    let m := Member.type "T" (.refined [u.anyRefType] [f])
    let t := Ty.refined [.refined [u.anyType, u.anyRefType] [f], u.anyRefType] [m]
    let t' := Ty.refined [u.anyRefType, u.anyType] [m, f, m]
    ∃ d, Ends (fun n ↦ (u.makeDescriptor n {} .empty (fun _ ↦ true) ⟨0, t⟩).1) (some d) ∧
      Ends (fun n ↦ (u.makeDescriptor n {} .empty (fun _ ↦ true) ⟨1, t'⟩).1) (some d) := by
  intro u f m t t'
  obtain ⟨hf, hf', hvalue⟩ :
      u.flattenFrom 6 6 [t] [] [] = some ([u.anyType, u.anyRefType], [m, f]) ∧
      u.flattenFrom 6 6 [t'] [] [] = some ([u.anyRefType, u.anyType], [m, f, m]) ∧
      (u.rootDescriptor 10 t).value?.isSome = true := by
    decide +kernel
  obtain ⟨d, hd⟩ := Option.isSome_iff_exists.1 hvalue
  have hend :=
    makeDescriptor_ends_of_value? RootCache.Reached.empty.sound {} (fun _ ↦ true) ⟨0, t⟩ hd
  have hany : u.anyType.Confined (fun _ ↦ False) fun _ ↦ True := typeRef_confined _
  have hanyRef : u.anyRefType.Confined (fun _ ↦ False) fun _ ↦ True := typeRef_confined _
  have hmethod : (Ty.refined [u.anyType, u.anyRefType] [f]).Confined (fun _ ↦ False) fun _ ↦ True :=
    .refined trivial (by simpa using ⟨hany, hanyRef⟩) (by simpa [f, Member.types] using hanyRef)
  have hmember : (Ty.refined [u.anyRefType] [f]).Confined (fun _ ↦ False) fun _ ↦ True :=
    .refined trivial (by simpa using hanyRef) (by simpa [f, Member.types] using hanyRef)
  have hfree {t : Ty} (h : ∀ c ∈ t.children, c.Confined (fun _ ↦ False) fun _ ↦ True) :
      NestedFree (fun _ ↦ False) t :=
    fun c hc ↦ (h c hc).mono fun _ _ _ hp ↦ hp.elim
  have hsame := (refinement_descriptor_canonical (u := u) .empty .empty {} {} (fun _ ↦ true)
    (fun _ ↦ true) ⟨0, t⟩ ⟨1, t'⟩ rfl rfl ⟨6, hf⟩ ⟨6, hf'⟩ (by simp [or_comm]) (by grind)).2
    (fun _ ↦ False) (refinementFree_of_body (.constant "") (by decide)) (hfree ?_)
    (hfree ?_) d
  · exact ⟨d, hend, hsame.1 hend⟩
  · simpa [t, Ty.children, m, Member.types] using ⟨hmethod, hanyRef, hmember⟩
  · simpa [t', Ty.children, m, f, Member.types] using ⟨hanyRef, hany, hmember, hanyRef, hmember⟩

def recursiveAlias : SymbolTable :=
  let (list, u) := initial.cls 1 "List"
  let (_, u) := u.typeParam list "A" .covariant
  let (_, u) := u.cls 1 "Int"
  let (b, u) := u.typeAlias 1 "B"
  let (f, u) := u.typeParam b "F" .invariant
  let (_, u) := u.typeParam f "_" .invariant
  let u := u.setBody b (u.applied f [u.applied list [u.applied b [u.typeRef f]]])
  (u.freeTypeParam 1 "X" .invariant).2

/-- For `L = [X] =>> X { def m: Int }`, the alias `B[L]` expands to `List[B[L]] { def m: Int }`, and
is cut inside this type. It is expanded inside the same refinement with its parent repeated. -/
theorem repeated_parent_descriptor_ne :
    let u := recursiveAlias
    let m := Member.method "m" [] (u.typeRef 7)
    let leaf := u.applied 5 [u.applied 8 [.poly [11] (.refined [u.typeRef 11] [m])]]
    u.RefinementFree (fun _ ↦ True) ∧ u.Decomposes (.refined [leaf] [m]) [leaf] [m] ∧
      u.Decomposes (.refined [leaf, leaf] [m]) [leaf] [m] ∧
      ∃ d d',
        Ends (fun n ↦ (u.makeDescriptor n {} .empty (fun _ ↦ true) ⟨0, .refined [leaf] [m]⟩).1)
          (some d) ∧
        Ends (fun n ↦ (u.makeDescriptor n {} .empty (fun _ ↦ true)
          ⟨1, .refined [leaf, leaf] [m]⟩).1) (some d') ∧ d ≠ d' := by
  intro u m leaf
  obtain ⟨hf, hf', hbodies, hvalue⟩ :
      u.flattenFrom 6 6 [.refined [leaf] [m]] [] [] = some ([leaf], [m]) ∧
      u.flattenFrom 6 6 [.refined [leaf, leaf] [m]] [] [] = some ([leaf], [m]) ∧
      (∀ s : Nat, s < u.size → ((u.entry s).body = none ∨
        (u.entry s).body = some (u.applied 9 [u.applied 5 [u.applied 8 [u.typeRef 9]]])) ∧
        (u.entry s).bounds = none) ∧
      ((u.rootDescriptor 10 (.refined [leaf] [m])).value?.any fun d ↦
        (u.rootDescriptor 10 (.refined [leaf, leaf] [m])).value?.any fun d' ↦ d ≠ d') = true := by
    decide +kernel
  obtain ⟨d, hd, hvalue⟩ := (Option.any_eq_true _ _).1 hvalue
  obtain ⟨d', hd', hne⟩ := (Option.any_eq_true _ _).1 hvalue
  have hfree : u.RefinementFree fun _ ↦ True := by
    refine refinementFree_of_body (applied_confined ?_) hbodies
    have hself : (u.applied 8 [u.typeRef 9]).Confined (fun _ ↦ True) fun _ ↦ False :=
      applied_confined (by simpa using typeRef_confined 9)
    simpa using applied_confined (by simpa using hself)
  have hsound := RootCache.Reached.empty.sound (u := u)
  exact ⟨hfree, ⟨6, hf⟩, ⟨6, hf'⟩, d, d', makeDescriptor_ends_of_value? hsound {} _ ⟨0, _⟩ hd,
    makeDescriptor_ends_of_value? hsound {} _ ⟨1, _⟩ hd', of_decide_eq_true hne⟩

end SymbolTable

end TypeTag
