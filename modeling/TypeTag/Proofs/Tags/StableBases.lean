import Mathlib.Logic.Relation
import TypeTag.Proofs.Builds.Basic
import TypeTag.Proofs.Descriptor.Order
import TypeTag.Proofs.SymbolTable.Exploration
import TypeTag.Proofs.Tags.Caching
import TypeTag.Proofs.Tags.MultiMap
import TypeTag.SymbolTable.Standard

namespace TypeTag

open Build Stepped

/-- The descriptor of a base: a type function that does not use all its parameters is replaced by
its body. -/
def Descriptor.collapsed (d : Descriptor) : Descriptor :=
  match d.lambda? with
  | some l => if l.allReferenced then d else l.body
  | none => d

namespace SymbolTable

section Edges

variable (u : SymbolTable)

/-- `b` is a form in which `t` inherits from an ancestor. -/
def Inherits (t b : Ty) : Prop :=
  ∃ n bases, u.ancestors n t = some bases ∧ b ∈ bases

def Describes (t : Ty) (d : Descriptor) : Prop :=
  Ends (u.descriptor · t) (some d)

variable {u} {n : Nat}

theorem steady_descriptor (t : Ty) : Steady (u.descriptor · t) :=
  fun _ _ h ↦ u.descriptor_keeps h t

theorem Describes.of_value? {t : Ty} {d : Descriptor} (h : (u.descriptor n t).value? = some d) :
    u.Describes t d :=
  (steady_descriptor t).ends (outcome_eq_some_some_iff.2 h)

theorem Inherits.mem {t b : Ty} (h : u.Inherits t b) {bases : List Ty}
    (hb : u.ancestors n t = some bases) : b ∈ bases := by
  obtain ⟨m, bs, hbs, hmem⟩ := h
  rwa [ancestors_unique hb hbs]

theorem collapseBase_value? (d : Descriptor) : (collapseBase d).value? = some d.collapsed := by
  unfold collapseBase Descriptor.collapsed
  cases d.lambda? with
  | none => rfl
  | some l =>
    dsimp only
    split <;> rfl

theorem stableEdge_value? {child : Descriptor} {base : Ty} {ρ : Bindings}
    {e : Option (Descriptor × Descriptor)} (h : (u.stableEdge n ρ child base).value? = some e) :
    ∃ d, (u.describeAlone n ρ (!ρ.isEmpty) base).value? = some d ∧
      (child = d.collapsed ∨ e = some (child, d.collapsed)) := by
  obtain ⟨d, hd, h⟩ := value?_bind_iff.1 h
  obtain ⟨p, hp, h⟩ := value?_bind_iff.1 h
  obtain rfl := Option.some.inj ((collapseBase_value? d).symm.trans hp)
  refine ⟨d, hd, ?_⟩
  split at h
  · next heq => exact .inl (eq_of_beq heq).symm
  · cases h
    exact .inr rfl

theorem Proper.stableBindings {t : Ty} (h : u.Proper t) : u.stableBindings n t = some ([], t) := by
  have hparams : u.typeParams t = [] := by
    simpa [takesTypeArgs] using h.2
  have heta : u.etaExpand t = t := etaExpand_of_not_takesTypeArgs h.2
  simp [SymbolTable.stableBindings, heta, hparams, Bindings.bindAll]

theorem Proper.stableEdges {t : Ty} (ht : u.Proper t) {es : List (Descriptor × Descriptor)}
    (h : (u.stableEdges n t).value? = some es) :
    ∃ child bases, u.Describes t child ∧ u.ancestors n t = some bases ∧
      ∀ b ∈ bases, ∃ d, u.Describes b d ∧
        (child = d.collapsed ∨ (child, d.collapsed) ∈ es) := by
  obtain ⟨⟨ρ, own⟩, hown, h⟩ := value?_bind_iff.1 h
  obtain ⟨rfl, rfl⟩ := Prod.mk.inj
    (Option.some.inj (ht.stableBindings.symm.trans (value?_lift_iff.1 hown)))
  obtain ⟨child, hchild, h⟩ := value?_bind_iff.1 h
  obtain ⟨bases, hbases, h⟩ := value?_bind_iff.1 h
  obtain ⟨found, hfound, h⟩ := value?_bind_iff.1 h
  cases h
  refine ⟨child, bases, .of_value? hchild, value?_lift_iff.1 hbases, fun b hb ↦ ?_⟩
  obtain ⟨e, he, hedge⟩ := exists_mem_of_value?_mapM hfound hb
  obtain ⟨d, hd, hcases⟩ := stableEdge_value? hedge
  refine ⟨d, .of_value? hd, hcases.imp_right fun hsome ↦ ?_⟩
  exact List.mem_filterMap.2 ⟨e, he, hsome⟩

theorem mem_stableBases {ts : List Ty} {m : MultiMap Descriptor Descriptor}
    (h : (u.stableBases n ts).value? = some m) {t : Ty} (ht : t ∈ ts) :
    ∃ es, (u.stableEdges n t).value? = some es ∧ es ⊆ m.edges := by
  obtain ⟨ess, hess, h⟩ := value?_bind_iff.1 h
  cases h
  obtain ⟨es, hmem, hes⟩ := exists_mem_of_value?_mapM hess ht
  exact ⟨es, hes, fun e he ↦ MultiMap.mem_edges_ofList.2 (List.mem_flatten_of_mem hmem he)⟩

theorem tag_value? {t : Ty} {tag : Tag} (h : (u.tag n t).value? = some tag) :
    ∃ d ts cs, u.dealias n t = some d ∧ u.Describes d tag.reference ∧
      u.reachable n t = some ts ∧ u.closeOverAncestors n ts = some cs ∧
      (u.stableBases n cs).value? = some tag.stableBases ∧
      (u.unappliedInheritance n cs).value? = some tag.unapplied := by
  obtain ⟨r, hr, h⟩ := value?_bind_iff.1 h
  obtain ⟨d, hd, hr⟩ := value?_bind_iff.1 hr
  obtain ⟨ts, hts, h⟩ := value?_bind_iff.1 h
  obtain ⟨cs, hcs, h⟩ := value?_bind_iff.1 h
  obtain ⟨stable, hstable, h⟩ := value?_bind_iff.1 h
  obtain ⟨unapplied, hunapplied, h⟩ := value?_bind_iff.1 h
  obtain ⟨-, -, h⟩ := value?_bind_iff.1 h
  cases h
  exact ⟨d, ts, cs, value?_lift_iff.1 hd, .of_value? hr, value?_lift_iff.1 hts,
    value?_lift_iff.1 hcs, hstable, hunapplied⟩

/-- A chain of ancestors stays within a set of types that is closed over ancestors. -/
theorem mem_of_chain {ts cs : List Ty} (h : u.closeOverAncestors n ts = some cs) {d x : Ty}
    (hd : d ∈ cs) (hx : Relation.ReflTransGen (fun t b ↦ u.Inherits t b ∧ u.Proper b) d x) :
    x ∈ cs := by
  induction hx with
  | refl => exact hd
  | tail _ hstep ih =>
    obtain ⟨found, hfound, hsub⟩ := (closeOverAncestors_closed h).2 _ ih
    exact hsub (hstep.1.mem hfound)

end Edges

variable {u : SymbolTable} {c : RootCache} {n : Nat}

/-- Along every chain of ancestors that are proper types, from the expansion of the type of a tag
on, each ancestor has the descriptor of the type before it or is its stable base. -/
theorem stableBases_complete (hc : c.Reached u) {config : Config} {alive : ObjectId → Bool}
    {k : Handle Ty} {tag : Tag}
    (htag : Ends (fun n ↦ (u.makeTag n config c alive k).1) (some tag)) {d : Ty}
    (hd : u.dealias n k.value = some d) (hproper : u.Proper d) :
    u.Describes d tag.reference ∧
      ∀ x, Relation.ReflTransGen (fun t b ↦ u.Inherits t b ∧ u.Proper b) d x →
        ∀ b, u.Inherits x b → ∃ p q, u.Describes x p ∧ u.Describes b q ∧
          (p = q.collapsed ∨ (p, q.collapsed) ∈ tag.stableBases.edges) := by
  obtain ⟨m, hm⟩ := (makeTag_ends_iff hc.sound config alive k).1 htag
  obtain ⟨e, ts, cs, he, href, hts, hcs, hstable, -⟩ :=
    tag_value? (outcome_eq_some_some_iff.1 (hm m (Nat.le_refl m)))
  obtain rfl := dealias_unique hd he
  have hresult : d.resultType = d := by
    cases d with
    | poly ps r => exact absurd hproper.1 (by simp [Ty.isPoly])
    | _ => rfl
  have hmem : d ∈ cs := by
    have hts := dealias_mem_reachable hts he
    rw [hresult] at hts
    exact (closeOverAncestors_closed hcs).1 hts
  refine ⟨href, fun x hx b hb ↦ ?_⟩
  have hxproper : u.Proper x := by
    cases hx with
    | refl => exact hproper
    | tail _ hstep => exact hstep.2
  obtain ⟨es, hes, hsub⟩ := mem_stableBases hstable (mem_of_chain hcs hmem hx)
  obtain ⟨p, bases, hp, hbases, hedges⟩ := hxproper.stableEdges hes
  obtain ⟨q, hq, hpq⟩ := hedges b (hb.mem hbases)
  exact ⟨p, q, hp, hq, hpq.imp_right fun hedge ↦ hsub hedge⟩

theorem Inherits.of_contains {t b : Ty} (h : (u.ancestors n t).any (·.contains b) = true) :
    u.Inherits t b := by
  cases hb : u.ancestors n t with
  | none => simp [hb] at h
  | some bases => exact ⟨n, bases, hb, by simpa [hb] using h⟩

theorem list_stableBases :
    let s := standard
    let of (c : SymbolId) := s.table.applied c [s.table.typeRef s.int]
    ∃ tag p q, (∀ o, Ends (fun n ↦ (s.table.makeTag n {} .empty (fun _ ↦ true) ⟨o, of s.list⟩).1)
        (some tag)) ∧ s.table.Describes (of s.seq) p ∧ s.table.Describes (of s.iterable) q ∧
      (p = q.collapsed ∨ (p, q.collapsed) ∈ tag.stableBases.edges) := by
  intro s of
  obtain ⟨hsome, hseq, hiterable, hdealias, hlist, hproper⟩ :
      (s.table.tag 10 (of s.list)).value?.isSome ∧
      (s.table.ancestors 10 (of s.list)).any (·.contains (of s.seq)) = true ∧
      (s.table.ancestors 10 (of s.seq)).any (·.contains (of s.iterable)) = true ∧
      s.table.dealias 10 (of s.list) = some (of s.list) ∧ s.table.Proper (of s.list) ∧
      s.table.Proper (of s.seq) := by decide +kernel
  obtain ⟨tag, htag⟩ := Option.isSome_iff_exists.1 hsome
  have hend (o : ObjectId) := (makeTag_ends_iff RootCache.Reached.empty.sound {} (fun _ ↦ true)
    ⟨o, of s.list⟩).2 ((steady_tag _ _).ends (outcome_eq_some_some_iff.2 htag))
  obtain ⟨-, hchain⟩ := stableBases_complete .empty (hend 0) hdealias hlist
  obtain ⟨p, q, hp, hq, hpq⟩ :=
    hchain _ (.single ⟨.of_contains hseq, hproper⟩) _ (.of_contains hiterable)
  exact ⟨tag, p, q, hend, hp, hq, hpq⟩

/-- Two aliases `K[A]` and `L[A]` of `Int`, and a class `D` whose parent is the class behind the
refinement of both. -/
def refinedAliases : SymbolTable :=
  let (int, u) := initial.cls 1 "Int"
  let (k, u) := u.typeAlias 1 "K"
  let (_, u) := u.typeParam k "A" .invariant
  let u := u.setBody k (u.typeRef int)
  let (l, u) := u.typeAlias 1 "L"
  let (_, u) := u.typeParam l "A" .invariant
  let u := u.setBody l (u.typeRef int)
  let (r, u) := u.refinement 1 (.refined [u.typeRef k, u.typeRef l] [])
  let (d, u) := u.cls 1 "D"
  u.setParents d [.self r]

/-- The descriptor of the refinement of both aliases is a type function that does not use its
parameter, and the edge from `D` leads to its body. -/
theorem refinedAliases_edge :
    let u := refinedAliases
    let d := u.typeRef 11
    let b := Ty.refined [u.typeRef 6, u.typeRef 8] []
    ∃ tag q, (∀ o, Ends (fun n ↦ (u.makeTag n {} .empty (fun _ ↦ true) ⟨o, d⟩).1) (some tag)) ∧
      u.dealias 0 d = some d ∧ u.Proper d ∧ u.Inherits d b ∧ u.Proper b ∧ u.Describes b q ∧
      q ≠ tag.reference ∧ (tag.reference, q) ∉ tag.stableBases.edges := by
  intro u d b
  have hvalues : ((u.tag 20 d).value?.bind fun tag ↦ (u.descriptor 20 b).value?.map fun q ↦
      decide (q ≠ tag.reference ∧ (tag.reference, q) ∉ tag.stableBases.edges)) = some true := by
    decide +kernel
  obtain ⟨tag, htag, hvalues⟩ := Option.bind_eq_some_iff.1 hvalues
  obtain ⟨q, hq, hvalues⟩ := Option.map_eq_some_iff.1 hvalues
  obtain ⟨hne, hedge⟩ := of_decide_eq_true hvalues
  refine ⟨tag, q, fun o ↦ ?_, by rfl, by decide, ?_, by decide,
    .of_value? hq, hne, hedge⟩
  · exact (makeTag_ends_iff RootCache.Reached.empty.sound {} (fun _ ↦ true) ⟨o, d⟩).2
      ((steady_tag _ _).ends (outcome_eq_some_some_iff.2 htag))
  · exact .of_contains (n := 20) (by decide +kernel)

end SymbolTable

end TypeTag
