import TypeTag.Proofs.Descriptor.Mentions
import TypeTag.Proofs.Descriptor.RoundTrip

namespace TypeTag

section MapTypes

variable {α β : Type} {f : α → β}

theorem Boundaries.types_map (b : Boundaries α) : (b.map f).types = b.types.map f := by
  cases b <;> rfl

theorem NameRef.types_map (n : NameRef α) : (n.map f).types = n.types.map f := by
  obtain ⟨s, b, q⟩ := n
  cases q <;> simp [types, map, Boundaries.types_map]

theorem Decl.types_map (d : Decl α) : (d.map f).types = d.types.map f := by
  cases d <;> simp [types, map]

variable {g : α → α}

theorem Boundaries.map_eq_self {b : Boundaries α} (h : ∀ a ∈ b.types, g a = a) : b.map g = b := by
  cases b with
  | empty => rfl
  | defined l u => rw [map, h l (by simp [types]), h u (by simp [types])]

theorem map_qualifier_eq_self {q : Option α} (h : ∀ a ∈ q.toList, g a = a) : q.map g = q := by
  cases q with
  | none => rfl
  | some q => rw [Option.map_some, h q (by simp)]

theorem map_list_eq_self {as : List α} (h : ∀ a ∈ as, g a = a) : as.map g = as := by
  rw [List.map_congr_left h, List.map_id']

theorem NameRef.map_eq_self {n : NameRef α} (h : ∀ a ∈ n.types, g a = a) : n.map g = n := by
  obtain ⟨s, b, q⟩ := n
  rw [map, Boundaries.map_eq_self fun a ha ↦ h a (List.mem_append_left _ ha),
    map_qualifier_eq_self fun a ha ↦ h a (List.mem_append_right _ ha)]

theorem TypeArg.map_eq_self {a : TypeArg α} (h : g a.reference = a.reference) : a.map g = a := by
  rw [map, h]

theorem Decl.map_eq_self {d : Decl α} (h : ∀ a ∈ d.types, g a = a) : d.map g = d := by
  cases d with
  | signature s ps r =>
    rw [map, map_list_eq_self fun a ha ↦ h a (List.mem_append_left _ ha),
      h r (List.mem_append_right _ (List.mem_singleton_self r))]
  | typeMember s r => rw [map, h r (List.mem_singleton_self r)]

end MapTypes

namespace Descriptor

variable {σ : String → Option Descriptor} {x y : String} {d e r : Descriptor}

theorem mem_mentions_iff_occurs :
    x ∈ d.mentions ↔ ∃ e : Descriptor, e.OccursIn d ∧ e.symName? = some (.type x) := by
  induction d using parts_induction with
  | step d ih =>
    rw [mem_mentions_iff]
    constructor
    · rintro (hself | ⟨a, ha, hx⟩)
      · exact ⟨d, .refl d, hself⟩
      · obtain ⟨e, he, hname⟩ := (ih a ha).1 hx
        exact ⟨e, he.of_part ha, hname⟩
    · rintro ⟨e, he, hname⟩
      rcases occursIn_iff.1 he with rfl | ⟨a, ha, he⟩
      · exact .inl hname
      · exact .inr ⟨a, ha, (ih a ha).2 ⟨e, he, hname⟩⟩

section Rebuild

variable {f : Descriptor → Descriptor}

def rebuild (f : Descriptor → Descriptor) : Descriptor → Descriptor
  | name n => .name (n.map f)
  | full s as q => .full s (as.map (TypeArg.map f)) (q.map f)
  | lambda ps b => .lambda ps (f b)
  | intersection ps => .intersection (SortedSet.ofList (ps.map f))
  | refinement p ds => .refinement (f p) (SortedSet.ofList (ds.map (Decl.map f)))

theorem symName?_rebuild (d : Descriptor) : (d.rebuild f).symName? = d.symName? := by
  cases d <;> rfl

theorem mem_parts_rebuild : e ∈ (d.rebuild f).parts ↔ e ∈ d.parts.map f := by
  cases d with
  | name n => rw [rebuild, parts, parts, NameRef.types_map]
  | full s as q => cases q <;> simp [rebuild, parts, TypeArg.map]
  | lambda ps b => rfl
  | intersection ps => rw [rebuild, parts, parts, SortedSet.mem_ofList_iff]
  | refinement p ds =>
    have hdecls : e ∈ (SortedSet.ofList (ds.map (Decl.map f))).flatMap Decl.types ↔
        e ∈ (ds.flatMap Decl.types).map f := by
      simp only [List.mem_flatMap, SortedSet.mem_ofList_iff, List.mem_map, List.map_flatMap]
      constructor
      · rintro ⟨_, ⟨c, hc, rfl⟩, he⟩
        exact ⟨c, hc, List.mem_map.1 (c.types_map ▸ he)⟩
      · rintro ⟨c, hc, he⟩
        exact ⟨c.map f, ⟨c, hc, rfl⟩, c.types_map ▸ List.mem_map.2 he⟩
    rw [rebuild, parts, parts, List.map_cons, List.mem_cons, List.mem_cons, hdecls]

theorem rebuild_eq_self (hd : d.SetIncreasing) (h : ∀ a ∈ d.parts, f a = a) : d.rebuild f = d := by
  cases d with
  | name n => rw [rebuild, NameRef.map_eq_self h]
  | full s as q =>
    have hargs (a : TypeArg Descriptor) (ha : a ∈ as) : a.map f = a :=
      TypeArg.map_eq_self (h _ (List.mem_append_left _ (List.mem_map_of_mem ha)))
    rw [rebuild, map_list_eq_self hargs,
      map_qualifier_eq_self fun a ha ↦ h a (List.mem_append_right _ ha)]
  | lambda ps b => rw [rebuild, h b (List.mem_singleton_self b)]
  | intersection ps =>
    have hps : ps.map f = ps := map_list_eq_self h
    rw [rebuild, hps, SortedSet.ofList_eq_self hd]
  | refinement p ds =>
    have hdecls (c : Decl Descriptor) (hc : c ∈ ds) : c.map f = c :=
      Decl.map_eq_self fun a ha ↦
        h a (List.mem_cons_of_mem p (List.mem_flatMap.2 ⟨c, hc, ha⟩))
    rw [rebuild, h p List.mem_cons_self, map_list_eq_self hdecls, SortedSet.ofList_eq_self hd]

end Rebuild

def replacement? (σ : String → Option Descriptor) : SymName → Option Descriptor
  | .type x => σ x
  | _ => none

def replacing (σ : String → Option Descriptor) : Algebra Descriptor where
  name n := (replacement? σ n.name).getD (.name n)
  full s as q := (replacement? σ s).getD (.full s as q)
  lambda := .lambda
  intersection ps := .intersection (SortedSet.ofList ps)
  refinement p ds := .refinement p (SortedSet.ofList ds)

/-- Puts other descriptors in the place of all names that `σ` knows, with their arguments, bounds
and qualifiers. -/
def replace (σ : String → Option Descriptor) : Descriptor → Descriptor :=
  fold (replacing σ)

def only (x : String) (r : Descriptor) (y : String) : Option Descriptor :=
  if y = x then some r else none

theorem replacement?_eq_some_iff {s : SymName} :
    replacement? σ s = some r ↔ ∃ x, s = .type x ∧ σ x = some r := by
  cases s <;> simp [replacement?]

theorem replace_eq (d : Descriptor) :
    d.replace σ = (d.symName?.bind (replacement? σ)).getD (d.rebuild (replace σ)) := by
  cases d <;> simp [replace, replacing, rebuild, symName?, NameRef.map]

theorem replace_of_not_mentioned (hd : d.Canonical) (h : ∀ x ∈ d.mentions, σ x = none) :
    d.replace σ = d := by
  induction d using parts_induction with
  | step d ih =>
    have hparts (a : Descriptor) (ha : a ∈ d.parts) : a.replace σ = a :=
      ih a ha (hd.part ha) fun x hx ↦ h x (mem_mentions_iff.2 (.inr ⟨a, ha, hx⟩))
    have hself : d.symName?.bind (replacement? σ) = none := by
      rw [Option.eq_none_iff_forall_ne_some]
      intro r hr
      obtain ⟨s, hs, hr⟩ := Option.bind_eq_some_iff.1 hr
      obtain ⟨x, rfl, hx⟩ := replacement?_eq_some_iff.1 hr
      rw [h x (mem_mentions_iff.2 (.inl hs))] at hx
      cases hx
    rw [replace_eq, hself, Option.getD_none, rebuild_eq_self (hd d (.refl d)) hparts]

/-- What is mentioned after a replacement was mentioned before and is not replaced, or is mentioned
in what replaces something. -/
theorem mentions_replace (hx : x ∈ (d.replace σ).mentions) :
    (x ∈ d.mentions ∧ σ x = none) ∨ ∃ y r, σ y = some r ∧ x ∈ r.mentions := by
  induction d using parts_induction with
  | step d ih =>
    rw [replace_eq] at hx
    cases hself : d.symName?.bind (replacement? σ) with
    | some r =>
      rw [hself, Option.getD_some] at hx
      obtain ⟨s, -, hr⟩ := Option.bind_eq_some_iff.1 hself
      obtain ⟨y, -, hy⟩ := replacement?_eq_some_iff.1 hr
      exact .inr ⟨y, r, hy, hx⟩
    | none =>
      rw [hself, Option.getD_none, mem_mentions_iff, symName?_rebuild] at hx
      rcases hx with hname | ⟨e, he, hx⟩
      · rw [hname] at hself
        exact .inl ⟨mem_mentions_iff.2 (.inl hname), hself⟩
      · obtain ⟨a, ha, rfl⟩ := List.mem_map.1 (mem_parts_rebuild.1 he)
        exact (ih a ha hx).imp_left fun hmentioned ↦
          ⟨mem_mentions_iff.2 (.inr ⟨a, ha, hmentioned.1⟩), hmentioned.2⟩

theorem replace_only_ne (hx : x ∈ d.mentions) (hr : x ∉ r.mentions) : d.replace (only x r) ≠ d := by
  intro heq
  rw [← heq] at hx
  rcases mentions_replace hx with ⟨-, hnone⟩ | ⟨y, r', hy, hmentioned⟩
  · rw [only, if_pos rfl] at hnone
    cases hnone
  · unfold only at hy
    split at hy
    · cases hy
      exact hr hmentioned
    · cases hy

end Descriptor

namespace Lambda

variable {l : Lambda} {p : String}

theorem mem_referenced_iff : p ∈ l.referenced ↔ p ∈ l.params ∧ p ∈ l.body.mentions := by
  rw [referenced, SortedSet.mem_ofList_iff, List.mem_filter, List.contains_iff_mem]

theorem toDescriptor_ne_body : l.toDescriptor ≠ l.body := by
  intro heq
  have hlt : sizeOf l.body < sizeOf l.toDescriptor :=
    Descriptor.sizeOf_lt_of_mem_parts (List.mem_singleton_self l.body)
  rw [heq] at hlt
  exact Nat.lt_irrefl _ hlt

theorem someReferenced_iff : l.someReferenced = true ↔ ∃ p ∈ l.params, p ∈ l.body.mentions := by
  simp only [someReferenced, Bool.not_eq_true', List.isEmpty_eq_false_iff_exists_mem,
    mem_referenced_iff]

/-- The referenced parameters of a type function, as a set, are those that a name in its body refers
to, at any depth. A parameter is not among them if and only if whatever is put in its place leaves
the body as it is, also for several parameters at once; and the function collapses to its body if and
only if no parameter occurs in it. -/
theorem referenced_iff_occurs (l : Lambda) (h : l.body.Canonical) :
    SortedSet.Increasing l.referenced ∧
      (∀ p, p ∈ l.referenced ↔ p ∈ l.params ∧
        ∃ e : Descriptor, e.OccursIn l.body ∧ e.symName? = some (.type p)) ∧
      (∀ σ : String → Option Descriptor,
        (∀ p, σ p ≠ none → p ∈ l.params ∧ p ∉ l.referenced) → l.body.replace σ = l.body) ∧
      (∀ p ∈ l.referenced, ∃ r, l.body.replace (Descriptor.only p r) ≠ l.body) ∧
      (l.collapse = l.body ↔ ∀ p ∈ l.params,
        ¬∃ e : Descriptor, e.OccursIn l.body ∧ e.symName? = some (.type p)) ∧
      (l.collapse = l.body ∨ l.collapse = l.toDescriptor) := by
  refine ⟨SortedSet.increasing_ofList, fun p ↦ ?_, fun σ hσ ↦ ?_, fun p hp ↦ ?_, ?_, ?_⟩
  · rw [mem_referenced_iff, Descriptor.mem_mentions_iff_occurs]
  · refine Descriptor.replace_of_not_mentioned h fun x hx ↦ ?_
    refine Option.eq_none_iff_forall_ne_some.2 fun r hr ↦ ?_
    obtain ⟨hparam, hnot⟩ := hσ x (by simp [hr])
    exact hnot (mem_referenced_iff.2 ⟨hparam, hx⟩)
  · refine ⟨.intersection [], Descriptor.replace_only_ne (mem_referenced_iff.1 hp).2 ?_⟩
    simp [Descriptor.mentions, Descriptor.mentioning]
  · simp only [← Descriptor.mem_mentions_iff_occurs]
    unfold collapse
    split
    · next hsome =>
      obtain ⟨p, hp, hmentioned⟩ := someReferenced_iff.1 hsome
      exact iff_of_false toDescriptor_ne_body fun hnone ↦ hnone p hp hmentioned
    · next hnone =>
      refine iff_of_true rfl fun p hp hmentioned ↦ hnone ?_
      exact someReferenced_iff.2 ⟨p, hp, hmentioned⟩
  · unfold collapse
    split
    · exact .inr rfl
    · exact .inl rfl

/-- A function of two parameters that uses the first one in the qualifier of a method's result. -/
def methodLambda : Lambda where
  params := ["0:0", "0:1"]
  body := .refinement (.typeName "A")
    [.signature "f" [] (.name { name := .type "B", qualifier := some (.typeName "0:0") })]

theorem methodLambda_referenced :
    methodLambda.body.Canonical ∧ "0:0" ∈ methodLambda.referenced ∧
      (∀ r, methodLambda.body.replace (Descriptor.only "0:1" r) = methodLambda.body) ∧
      methodLambda.collapse ≠ methodLambda.body := by
  have hresult : (Descriptor.name
      { name := .type "B", qualifier := some (.typeName "0:0") }).Canonical := by
    refine Descriptor.canonical_iff.2 ⟨trivial, fun e he ↦ ?_⟩
    obtain rfl := List.mem_singleton.1 he
    exact Descriptor.canonical_typeName _
  have hcanonical : methodLambda.body.Canonical := by
    refine Descriptor.canonical_iff.2 ⟨List.pairwise_singleton _ _, fun e he ↦ ?_⟩
    rcases List.mem_cons.1 he with rfl | he
    · exact Descriptor.canonical_typeName _
    · obtain rfl := List.mem_singleton.1 he
      exact hresult
  obtain ⟨-, hmem, hreplace, -, hcollapse, -⟩ := referenced_iff_occurs methodLambda hcanonical
  have hused : "0:0" ∈ methodLambda.referenced := by decide
  refine ⟨hcanonical, hused, fun r ↦ hreplace _ fun p hp ↦ ?_, fun hbare ↦ ?_⟩
  · have hp : p = "0:1" := by
      unfold Descriptor.only at hp
      split at hp
      · assumption
      · exact absurd rfl hp
    rw [hp]
    decide
  · exact hcollapse.1 hbare "0:0" (by decide) ((hmem "0:0").1 hused).2

end Lambda

end TypeTag
