import TypeTag.Proofs.Builds.Basic
import TypeTag.Proofs.SymbolTable.Chains
import TypeTag.Proofs.Tags.StableBases

namespace TypeTag.SymbolTable

open Build (Ends Steady value?_bind_iff value?_lift_iff outcome_eq_some_some_iff ends_add_iff
  ends_bind_some_iff ends_pure_iff ends_emit_bind_iff)

variable {u : SymbolTable} {s : SymbolId} {n : Nat}

section Describe

theorem boundariesOf_single (hs : u.isTerm s = true) (r : Recursion) (trail : Trail Measured)
    (ρ : Bindings) : u.boundariesOf r trail ρ (u.single s) = pure Boundaries.empty := by
  have hkind : (u.entry s).kind = .object ∨ (u.entry s).kind = .term := by
    simpa [isTerm, kind] using hs
  unfold boundariesOf
  simp only [single, Ty.symbol?, Option.map_some, signature]
  rcases hkind with hk | hk <;> simp only [hk]
  cases (u.entry s).body with
  | none => rfl
  | some t => cases t <;> rfl

/-- The descriptor of a singleton type is the path to the end of its chain; the path to the term
itself is described too, and left out. -/
theorem descriptor_single (hs : u.isTerm s = true) (n : Nat) :
    u.descriptor (n + 1) (u.single s) = do
      .emit (.describing (u.single s) 0 false)
      let _ ← u.termQualifier (n + 2) s
      let q ← u.termQualifier (n + 1) (u.resolveTerm s)
      return .name { name := u.symName (u.resolveTerm s), qualifier := q } := by
  have hnamed : u.describeNamed (n + 1) (u.recursion (n + 1))
      (Trail.empty.enter (u.single s).measured) [] (u.single s) = do
        let _ ← u.termQualifier (n + 2) s
        let q ← u.termQualifier (n + 1) (u.resolveTerm s)
        return .name { name := u.symName (u.resolveTerm s), qualifier := q } := by
    have hresult : u.dealiasResult (n + 1) (u.single s) = some (u.single s) := by
      simp [dealiasResult, single, dealias_single, Ty.resultType]
    have hhead (q : Option Descriptor) : u.headName (u.recursion (n + 1))
        (Trail.empty.enter (u.single s).measured) [] (u.single s) q = do
          let q ← u.termQualifier (n + 1) (u.resolveTerm s)
          return { name := u.symName (u.resolveTerm s), qualifier := q } := by
      unfold headName
      rw [placeholder?_nil, boundariesOf_single hs]
      simp only [pure_bind, nameOf, single, termName, bind_assoc]
      rfl
    unfold describeNamed
    rw [hresult]
    simp only [Build.liftM_some, pure_bind, hhead, bind_assoc]
    rfl
  have hargs : u.takesTypeArgs (u.single s) = false := rfl
  have hd : u.dealias (n + 1) (u.single s) = some (u.single s) := dealias_single _ _ _
  rw [descriptor, describeAlone, describe_eq_describeProper rfl hargs,
    describeProper_eq_describeNamed (flatten_eq_single hd rfl) hargs hd, hnamed]
  rfl

theorem rootDescriptor_single (s : SymbolId) (n : Nat) :
    u.rootDescriptor n (u.single s) = u.descriptor n (u.single s) := by
  rw [rootDescriptor, single, dealias_single, Build.liftM_some, pure_bind]

theorem rootDescriptor_single_ends_iff (hs : u.isTerm s = true) {d : Descriptor} :
    Ends (u.rootDescriptor · (u.single s)) (some d) ↔
      (∃ q, Ends (u.termQualifier · s) (some q)) ∧
        ∃ q, Ends (u.termQualifier · (u.resolveTerm s)) (some q) ∧
          d = .name { name := u.symName (u.resolveTerm s), qualifier := q } := by
  have hown := (steady_termQualifier (u := u) s).add 2
  have hpath := (steady_termQualifier (u := u) (u.resolveTerm s)).add 1
  have hname (q : Option Descriptor) := Steady.const (Pure.pure
    (Descriptor.name { name := u.symName (u.resolveTerm s), qualifier := q }))
  have hshift (k : Nat) (x : SymbolId) (q : Option Descriptor) :
      Ends (fun n ↦ u.termQualifier (n + k) x) (some q) ↔ Ends (u.termQualifier · x) (some q) :=
    ends_add_iff (b := (u.termQualifier · x)) k
  simp only [rootDescriptor_single]
  rw [← ends_add_iff 1]
  simp only [descriptor_single hs]
  rw [ends_emit_bind_iff, ends_bind_some_iff hown fun _ ↦ hpath.bind hname]
  simp only [ends_bind_some_iff hpath hname, ends_pure_iff, hshift, Option.some.injEq,
    exists_and_right]

end Describe

theorem dealiasResult_etaExpand_single (s : SymbolId) (n : Nat) :
    u.dealiasResult n (u.etaExpand (u.single s)) = some (u.single s) := by
  simp [dealiasResult, etaExpand, single, dealias_single, Ty.resultType]

theorem reachable_single (s : SymbolId) (n : Nat) :
    u.reachable (n + 1) (u.single s) = some [u.single s] := by
  simp [reachable, explore, successors, single, dealias_single, Ty.resultType, Ty.args,
    expansionArgs, typeParams, Ty.parents, Ty.measured]

section Alias

variable {a b : SymbolId} (ha : u.termAlias? a = some b)

include ha

theorem kind_of_termAlias? : u.kind a = .term ∧ (u.termType a).isSingle = true := by
  unfold termAlias? at ha
  dsimp only at ha
  split at ha
  · next hk hb => simp [kind, termType, hk, hb, Ty.isSingle]
  · cases ha

theorem ancestors_termAlias : u.ancestors (n + 1) (u.single a) = some [] := by
  obtain ⟨hk, hsingle⟩ := kind_of_termAlias? ha
  have hlineage : u.lineage (n + 1) [] (u.single a) = some [] := by
    simp [lineage, single, dealias_single, hk, hsingle]
  simp [ancestors, dealiasResult_etaExpand_single, baseClasses, hlineage, closeBases]

theorem closeOverAncestors_termAlias :
    u.closeOverAncestors (n + 1) [u.single a] = some [u.single a] := by
  simp [closeOverAncestors, explore, Ty.measured, ancestors_termAlias ha]

section Edges

variable {d : Descriptor} (hd : (u.descriptor (n + 1) (u.single a)).value? = some d)

include hd

theorem stableEdges_termAlias : (u.stableEdges (n + 1) (u.single a)).value? = some [] := by
  have hproper : u.Proper (u.single a) := ⟨rfl, rfl⟩
  refine value?_bind_iff.2 ⟨_, value?_lift_iff.2 hproper.stableBindings, ?_⟩
  refine value?_bind_iff.2 ⟨d, hd, ?_⟩
  exact value?_bind_iff.2 ⟨[], value?_lift_iff.2 (ancestors_termAlias ha), rfl⟩

theorem unappliedEdges_termAlias : (u.unappliedEdges (n + 1) (u.single a)).value? = some [] := by
  have hterm : u.isTerm a = true := by simp [isTerm, (kind_of_termAlias? ha).1]
  rw [descriptor_single hterm] at hd
  obtain ⟨-, -, hd⟩ := value?_bind_iff.1 hd
  obtain ⟨_, hq, -⟩ := value?_bind_iff.1 hd
  refine value?_bind_iff.2 ⟨_, value?_lift_iff.2 (dealiasResult_etaExpand_single a _), ?_⟩
  refine value?_bind_iff.2 ⟨[], by simp [aliasEdge]; rfl, ?_⟩
  refine value?_bind_iff.2 ⟨_, value?_bind_iff.2 ⟨_, hq, rfl⟩, ?_⟩
  exact value?_bind_iff.2 ⟨[], value?_lift_iff.2 (ancestors_termAlias ha), rfl⟩

theorem tagOf_termAlias :
    (u.tagOf (n + 1) d (u.single a)).value? = some ⟨d, .empty, .empty⟩ := by
  have hlist {α : Type} {f : Ty → Build α} {x : α} (h : (f (u.single a)).value? = some x) :
      ([u.single a].mapM f).value? = some [x] := by
    rw [List.mapM_cons]
    exact value?_bind_iff.2 ⟨x, h, rfl⟩
  have hstable := hlist (stableEdges_termAlias ha hd)
  have hunapplied := hlist (unappliedEdges_termAlias ha hd)
  refine value?_bind_iff.2 ⟨_, value?_lift_iff.2 (reachable_single a n), ?_⟩
  refine value?_bind_iff.2 ⟨_, value?_lift_iff.2 (closeOverAncestors_termAlias ha), ?_⟩
  refine value?_bind_iff.2 ⟨.empty, value?_bind_iff.2 ⟨_, hstable, rfl⟩, ?_⟩
  exact value?_bind_iff.2 ⟨.empty, value?_bind_iff.2 ⟨_, hunapplied, rfl⟩, rfl⟩

end Edges

theorem tag_termAlias_ends_iff {tag : Tag} :
    Ends (u.tag · (u.single a)) (some tag) ↔
      ∃ d, Ends (u.rootDescriptor · (u.single a)) (some d) ∧ tag = ⟨d, .empty, .empty⟩ := by
  have htagOf {d : Descriptor} (hd : Ends (u.rootDescriptor · (u.single a)) (some d)) :
      Ends (u.tagOf · d (u.single a)) (some ⟨d, .empty, .empty⟩) := by
    obtain ⟨n, hn⟩ := hd
    have hd : (u.rootDescriptor (n + 1) (u.single a)).outcome = some (some d) :=
      hn (n + 1) (Nat.le_succ n)
    rw [rootDescriptor_single, outcome_eq_some_some_iff] at hd
    exact (u.steady_tagOf d _).ends (outcome_eq_some_some_iff.2 (tagOf_termAlias ha hd))
  change Ends (fun n ↦ u.rootDescriptor n (u.single a) >>= fun d ↦ u.tagOf n d (u.single a)) _ ↔ _
  rw [ends_bind_some_iff (u.steady_rootDescriptor _) fun d ↦ u.steady_tagOf d _]
  constructor
  · rintro ⟨d, hd, ht⟩
    exact ⟨d, hd, Option.some.inj (ht.unique (htagOf hd))⟩
  · rintro ⟨d, hd, rfl⟩
    exact ⟨d, hd, htagOf hd⟩

end Alias

theorem tag_single_reference {tag : Tag} (h : Ends (u.tag · (u.single s)) (some tag)) :
    Ends (u.rootDescriptor · (u.single s)) (some tag.reference) := by
  obtain ⟨n, hn⟩ := h
  obtain ⟨d, -, -, hd, hreference, -⟩ :=
    tag_value? (outcome_eq_some_some_iff.1 (hn n (Nat.le_refl n)))
  rw [single, dealias_single] at hd
  obtain rfl := Option.some.inj hd
  simp only [rootDescriptor_single]
  exact hreference

/-- A term declared to be the same as another has the reference of the term at the end of its chain,
but never stable bases; so the tags agree on these just if the other term has none. Its tag needs
the path to it, which goes unused, and nothing of what the other tag needs beyond the reference. -/
theorem singletonAlias_tag {c c' : RootCache} (hc : c.Reached u) (hc' : c'.Reached u)
    (config config' : Config) (alive alive' : ObjectId → Bool) (o o' : ObjectId) {a m : SymbolId}
    (hm : u.resolveTerm a = m) (hterm : u.isTerm m = true) (hend : u.termAlias? m = none) :
    (a ≠ m →
      ((∃ tag, Ends (fun n ↦ (u.makeTag n config c alive ⟨o, u.single a⟩).1) (some tag)) ↔
        (∃ q, Ends (u.termQualifier · a) (some q)) ∧
          ∃ d, Ends (fun n ↦ (u.makeDescriptor n config' c' alive' ⟨o', u.single m⟩).1) (some d))) ∧
      ∀ tag tag', Ends (fun n ↦ (u.makeTag n config c alive ⟨o, u.single a⟩).1) (some tag) →
        Ends (fun n ↦ (u.makeTag n config' c' alive' ⟨o', u.single m⟩).1) (some tag') →
        tag.reference = tag'.reference ∧
          (tag.stableBases = tag'.stableBases ↔ a = m ∨ tag'.stableBases = .empty) := by
  simp only [makeTag_ends_iff hc.sound, makeTag_ends_iff hc'.sound,
    makeDescriptor_ends_iff hc'.sound]
  have halias (hne : a ≠ m) : ∃ b, u.termAlias? a = some b := by
    refine Option.isSome_iff_exists.1 (Option.isSome_iff_ne_none.2 fun hnone ↦ hne ?_)
    rw [← hm, resolveTerm_of_termAlias? hnone]
  have hisTerm (hne : a ≠ m) : u.isTerm a = true := by
    obtain ⟨b, hb⟩ := halias hne
    simp [isTerm, (kind_of_termAlias? hb).1]
  have hsame : u.resolveTerm m = m := resolveTerm_of_termAlias? hend
  refine ⟨fun hne ↦ ?_, fun tag tag' ht ht' ↦ ?_⟩
  · obtain ⟨b, hb⟩ := halias hne
    simp only [tag_termAlias_ends_iff hb, rootDescriptor_single_ends_iff (hisTerm hne),
      rootDescriptor_single_ends_iff hterm, hm, hsame]
    constructor
    · rintro ⟨-, d, ⟨hown, q, hq, hd⟩, -⟩
      exact ⟨hown, d, ⟨q, hq⟩, q, hq, hd⟩
    · rintro ⟨hown, d, -, q, hq, hd⟩
      exact ⟨_, d, ⟨hown, q, hq, hd⟩, rfl⟩
  · by_cases heq : a = m
    · subst heq
      obtain rfl := Option.some.inj (ht.unique ht')
      exact ⟨rfl, fun _ ↦ .inl rfl, fun _ ↦ rfl⟩
    · obtain ⟨b, hb⟩ := halias heq
      obtain ⟨d, hd, rfl⟩ := (tag_termAlias_ends_iff hb).1 ht
      obtain ⟨-, q, hq, rfl⟩ := (rootDescriptor_single_ends_iff (hisTerm heq)).1 hd
      obtain ⟨-, q', hq', hd'⟩ :=
        (rootDescriptor_single_ends_iff hterm).1 (tag_single_reference ht')
      rw [hm] at hq ⊢
      rw [hsame] at hq' hd'
      obtain rfl := Option.some.inj (hq.unique hq')
      refine ⟨hd'.symm, ?_⟩
      simp only [heq, false_or]
      exact eq_comm

/-- The class `C`; the objects `O`, a `C`, and `P`, which has no parents; `a: O.type`, `b: P.type`
and `d: b.type`. -/
def singletonAliases : SymbolTable :=
  let (c, u) := initial.cls 1 "C"
  let (o, u) := u.object 1 "O"
  let u := u.setParents o [u.typeRef c]
  let (p, u) := u.object 1 "P"
  let (_, u) := u.term 1 "a" (some (u.single o))
  let (b, u) := u.term 1 "b" (some (u.single p))
  (u.term 1 "d" (some (u.single b))).2

theorem singletonChain_tag :
    let u := singletonAliases
    ∃ tag tag',
      Ends (fun n ↦ (u.makeTag n {} .empty (fun _ ↦ true) ⟨0, u.single 10⟩).1) (some tag) ∧
      Ends (fun n ↦ (u.makeTag n {} .empty (fun _ ↦ true) ⟨1, u.single 7⟩).1) (some tag') ∧
      tag.reference = tag'.reference ∧ tag.stableBases = tag'.stableBases := by
  intro u
  obtain ⟨hd, hp, hm, hterm, hend⟩ : (u.tag 10 (u.single 10)).value?.isSome = true ∧
      (u.tag 10 (u.single 7)).value?.map (·.stableBases.isEmpty) = some true ∧
      u.resolveTerm 10 = 7 ∧ u.isTerm 7 = true ∧ u.termAlias? 7 = none := by decide +kernel
  obtain ⟨tag, htag⟩ := Option.isSome_iff_exists.1 hd
  obtain ⟨tag', htag', hempty⟩ := Option.map_eq_some_iff.1 hp
  have hsound := RootCache.Reached.empty.sound (u := u)
  have hends := makeTag_ends_of_value? hsound {} (fun _ ↦ true) ⟨0, u.single 10⟩ htag
  have hends' := makeTag_ends_of_value? hsound {} (fun _ ↦ true) ⟨1, u.single 7⟩ htag'
  obtain ⟨-, hsame⟩ :=
    singletonAlias_tag .empty .empty {} {} (fun _ ↦ true) (fun _ ↦ true) 0 1 hm hterm hend
  obtain ⟨hreference, hstable⟩ := hsame tag tag' hends hends'
  exact ⟨tag, tag', hends, hends', hreference, hstable.2 (.inr (MultiMap.isEmpty_iff.1 hempty))⟩

/-- The term `a` is declared to be the object `O`, but does not inherit from `C`. -/
theorem singletonAlias_stableBases_ne :
    let u := singletonAliases
    u.resolveTerm 8 = 6 ∧ u.isTerm 6 = true ∧ u.termAlias? 6 = none ∧ ∃ tag tag',
      Ends (fun n ↦ (u.makeTag n {} .empty (fun _ ↦ true) ⟨0, u.single 8⟩).1) (some tag) ∧
      Ends (fun n ↦ (u.makeTag n {} .empty (fun _ ↦ true) ⟨1, u.single 6⟩).1) (some tag') ∧
      tag.stableBases ≠ tag'.stableBases := by
  intro u
  obtain ⟨ha, ho, hm, hterm, hend⟩ :
      (u.tag 10 (u.single 8)).value?.map (·.stableBases.isEmpty) = some true ∧
      (u.tag 10 (u.single 6)).value?.map (·.stableBases.isEmpty) = some false ∧
      u.resolveTerm 8 = 6 ∧ u.isTerm 6 = true ∧ u.termAlias? 6 = none := by decide +kernel
  obtain ⟨tag, htag, hempty⟩ := Option.map_eq_some_iff.1 ha
  obtain ⟨tag', htag', hempty'⟩ := Option.map_eq_some_iff.1 ho
  have hsound := RootCache.Reached.empty.sound (u := u)
  refine ⟨hm, hterm, hend, tag, tag', makeTag_ends_of_value? hsound {} _ ⟨0, _⟩ htag,
    makeTag_ends_of_value? hsound {} _ ⟨1, _⟩ htag', fun hsame ↦ ?_⟩
  rw [hsame, hempty'] at hempty
  cases hempty

end TypeTag.SymbolTable
