import Mathlib.Data.Set.Card
import TypeTag.Proofs.Tags.Formats

namespace TypeTag

open Std

theorem ncard_setOf_mem {α : Type} {l : List α} (h : l.Nodup) : {a | a ∈ l}.ncard = l.length := by
  classical
  have hset : {a | a ∈ l} = (l.toFinset : Set α) := by ext; simp
  rw [hset, Set.ncard_coe_finset, List.toFinset_card_of_nodup h]

namespace MultiMap

open SortedSet (Increasing)

variable {K V : Type}

section Entries

variable {key : Json → Option K} {value : Json → Option V} {j : Json} {e : K × V}

def listed (key : Json → Option K) (value : Json → Option V) (j : Json) : Set (K × V) :=
  {e | ∃ entries k values v, j = .arr entries ∧ .arr [k, .arr values] ∈ entries ∧ v ∈ values ∧
    key k = some e.1 ∧ value v = some e.2}

def Readable (key : Json → Option K) (value : Json → Option V) (j : Json) : Prop :=
  ∃ entries, j = .arr entries ∧ ∀ x ∈ entries, ∃ k values, x = .arr [k, .arr values] ∧
    (key k).isSome ∧ ∀ v ∈ values, (value v).isSome

variable [Ord K] [Ord V] {m : MultiMap K V}

theorem isSome_ofJson?_iff : (ofJson? key value j).isSome = true ↔ Readable key value j := by
  rw [Option.isSome_iff_exists]
  constructor
  · rintro ⟨m, hm⟩
    obtain ⟨entries, ps, rfl, hps, -⟩ := ofJson?_eq_some_iff.1 hm
    refine ⟨entries, rfl, fun x hx ↦ ?_⟩
    obtain ⟨p, -, hp⟩ := mapM_mem hps hx
    obtain ⟨k, values, rfl, hk, hvalues⟩ := readPair?_eq_some_iff.1 hp
    refine ⟨k, values, rfl, Option.isSome_of_eq_some hk, fun v hv ↦ ?_⟩
    obtain ⟨w, -, hw⟩ := mapM_mem hvalues hv
    exact Option.isSome_of_eq_some hw
  · rintro ⟨entries, rfl, hentries⟩
    have hpairs (x : Json) (hx : x ∈ entries) : ∃ p, readPair? key value x = some p := by
      obtain ⟨k, values, rfl, hk, hvalues⟩ := hentries x hx
      obtain ⟨l, hl⟩ := Option.isSome_iff_exists.1 hk
      obtain ⟨vs, hvs⟩ := exists_mapM fun v hv ↦ Option.isSome_iff_exists.1 (hvalues v hv)
      exact ⟨(l, vs), readPair?_eq_some_iff.2 ⟨k, values, rfl, hl, hvs⟩⟩
    obtain ⟨ps, hps⟩ := exists_mapM hpairs
    exact ⟨_, ofJson?_eq_some_iff.2 ⟨entries, ps, rfl, hps, rfl⟩⟩

variable [LawfulEqOrd K] [LawfulEqOrd V]

theorem mem_edges_of_ofJson? (h : ofJson? key value j = some m) :
    e ∈ m.edges ↔ e ∈ listed key value j := by
  obtain ⟨entries, ps, rfl, hps, rfl⟩ := ofJson?_eq_some_iff.1 h
  rw [ofEntries, mem_edges_ofList, List.mem_flatMap]
  constructor
  · rintro ⟨p, hp, he⟩
    obtain ⟨w, hw, rfl⟩ := List.mem_map.1 he
    obtain ⟨x, hx, hread⟩ := mem_mapM hps hp
    obtain ⟨k, values, rfl, hk, hvalues⟩ := readPair?_eq_some_iff.1 hread
    obtain ⟨v, hv, hvw⟩ := mem_mapM hvalues hw
    exact ⟨entries, k, values, v, rfl, hx, hv, hk, hvw⟩
  · rintro ⟨_, k, values, v, ⟨⟩, hx, hv, hk, hve⟩
    obtain ⟨p, hp, hread⟩ := mapM_mem hps hx
    obtain ⟨_, _, ⟨⟩, hk', hvalues⟩ := readPair?_eq_some_iff.1 hread
    obtain ⟨w, hw, hvw⟩ := mapM_mem hvalues hv
    have hkey : p.1 = e.1 := Option.some.inj (hk'.symm.trans hk)
    have hvalue : w = e.2 := Option.some.inj (hvw.symm.trans hve)
    exact ⟨p, hp, List.mem_map.2 ⟨w, hw, Prod.ext hkey hvalue⟩⟩

end Entries

inductive Operation (K V : Type) where
  | insert (k : K) (v : V)
  | retain (keep : K → V → Bool)
  | extend (pairs : List (K × V))
  | collect (pairs : List (K × V))
  | decode (j : Json)

/-- The operation on sets of edges. What is no multimap is not decoded and changes nothing. -/
def Operation.apply (key : Json → Option K) (value : Json → Option V) (E : Set (K × V)) :
    Operation K V → Set (K × V)
  | insert k v => E ∪ {(k, v)}
  | retain keep => {e ∈ E | keep e.1 e.2 = true}
  | extend pairs => E ∪ {e | e ∈ pairs}
  | collect pairs => {e | e ∈ pairs}
  | decode j => {e | Readable key value j ∧ e ∈ listed key value j ∨ ¬Readable key value j ∧ e ∈ E}

def edgesAfter (key : Json → Option K) (value : Json → Option V) (ops : List (Operation K V)) :
    Set (K × V) :=
  ops.foldl (Operation.apply key value) ∅

def edgeSet (m : MultiMap K V) : Set (K × V) :=
  {e | e ∈ m.edges}

variable [Ord K] [Ord V]

def Operation.run (key : Json → Option K) (value : Json → Option V) (m : MultiMap K V) :
    Operation K V → MultiMap K V
  | insert k v => (m.insertNew k v).2
  | retain keep => m.filter keep
  | extend pairs => m.insertMany pairs
  | collect pairs => ofList pairs
  | decode j => (ofJson? key value j).getD m

def after (key : Json → Option K) (value : Json → Option V) (ops : List (Operation K V)) :
    MultiMap K V :=
  ops.foldl (Operation.run key value) empty

/-- What the queries tell of a set of edges, in increasing order. -/
structure Shows (m : MultiMap K V) (E : Set (K × V)) : Prop where
  finite : E.Finite
  contains (k : K) (v : V) : m.contains k v = true ↔ (k, v) ∈ E
  get (k : K) (vs : List V) :
    m.get? k = some vs ↔ vs ≠ [] ∧ Increasing vs ∧ ∀ v, v ∈ vs ↔ (k, v) ∈ E
  containsKey (k : K) : m.containsKey k = true ↔ ∃ v, (k, v) ∈ E
  keys : Increasing m.keys ∧ ∀ k, k ∈ m.keys ↔ ∃ v, (k, v) ∈ E
  entries : m.entries.map Prod.fst = m.keys ∧ ∀ k vs, (k, vs) ∈ m.entries ↔ m.get? k = some vs
  edgeCount : m.edgeCount = E.ncard
  size : m.size = {k | ∃ v, (k, v) ∈ E}.ncard
  isEmpty : m.isEmpty = true ↔ E = ∅

section Queries

variable {m n : MultiMap K V} {k : K} {v : V} {vs ws : List V}

theorem Ordered.increasing_keys (h : m.Ordered) : Increasing m.keys :=
  List.pairwise_map.2 h.keys

theorem Ordered.exists_edge_iff (h : m.Ordered) :
    (∃ v, (k, v) ∈ m.edgeSet) ↔ ∃ vs, (k, vs) ∈ m.entries := by
  constructor
  · rintro ⟨v, hv⟩
    obtain ⟨vs, hvs, -⟩ := mem_edges_iff.1 hv
    exact ⟨vs, hvs⟩
  · rintro ⟨vs, hvs⟩
    obtain ⟨v, hv⟩ := List.exists_mem_of_ne_nil _ (h.nonempty _ hvs)
    exact ⟨v, mem_edges_iff.2 ⟨vs, hvs, hv⟩⟩

theorem Ordered.mem_keys_iff (h : m.Ordered) : k ∈ m.keys ↔ ∃ v, (k, v) ∈ m.edgeSet := by
  rw [h.exists_edge_iff, MultiMap.keys, List.mem_map]
  exact ⟨fun ⟨e, he, hk⟩ ↦ ⟨e.2, hk ▸ he⟩, fun ⟨vs, hvs⟩ ↦ ⟨_, hvs, rfl⟩⟩

variable [TransOrd K]

theorem Ordered.values_unique (h : m.Ordered) (hvs : (k, vs) ∈ m.entries) (hws : (k, ws) ∈ m.entries) :
    vs = ws :=
  (Prod.mk.inj (List.inj_on_of_nodup_map h.increasing_keys.nodup hvs hws rfl)).2

variable [LawfulEqOrd K]

theorem Ordered.get?_eq_some_iff (h : m.Ordered) : m.get? k = some vs ↔ (k, vs) ∈ m.entries := by
  have hfind (e : K × List V) (he : m.entries.find? (fun e ↦ compare k e.1 == .eq) = some e) :
      e.1 = k ∧ e ∈ m.entries := by
    have heq := List.find?_some he
    exact ⟨(LawfulEqOrd.eq_of_compare (eq_of_beq heq)).symm, List.mem_of_find?_eq_some he⟩
  rw [get?, Option.map_eq_some_iff]
  constructor
  · rintro ⟨⟨l, ws⟩, he, rfl⟩
    obtain ⟨rfl, hmem⟩ := hfind _ he
    exact hmem
  · intro hmem
    have hsome : (m.entries.find? fun e ↦ compare k e.1 == .eq).isSome :=
      List.find?_isSome.2 ⟨(k, vs), hmem, by simp⟩
    obtain ⟨⟨l, ws⟩, he⟩ := Option.isSome_iff_exists.1 hsome
    obtain ⟨rfl, hmem'⟩ := hfind _ he
    exact ⟨_, he, h.values_unique hmem' hmem⟩

theorem Ordered.containsKey_iff (h : m.Ordered) : m.containsKey k = true ↔ ∃ v, (k, v) ∈ m.edgeSet := by
  rw [h.exists_edge_iff, containsKey, Option.isSome_iff_exists]
  simp only [h.get?_eq_some_iff]

variable [TransOrd V]

theorem Ordered.nodup_edges (h : m.Ordered) : m.edges.Nodup := by
  let : Ord (K × V) := lexOrd
  exact SortedSet.Increasing.nodup h.edges_increasing

theorem Ordered.get?_iff (h : m.Ordered) : m.get? k = some vs ↔
    vs ≠ [] ∧ Increasing vs ∧ ∀ v, v ∈ vs ↔ (k, v) ∈ m.edgeSet := by
  have hvalues {ws : List V} (hws : (k, ws) ∈ m.entries) (v : V) : v ∈ ws ↔ (k, v) ∈ m.edgeSet := by
    refine ⟨fun hv ↦ mem_edges_iff.2 ⟨ws, hws, hv⟩, fun hv ↦ ?_⟩
    obtain ⟨us, hus, hv⟩ := mem_edges_iff.1 hv
    exact h.values_unique hws hus ▸ hv
  rw [h.get?_eq_some_iff]
  constructor
  · exact fun hvs ↦ ⟨h.nonempty _ hvs, h.values _ hvs, hvalues hvs⟩
  · rintro ⟨hne, hvs, hmem⟩
    obtain ⟨v, hv⟩ := List.exists_mem_of_ne_nil _ hne
    obtain ⟨ws, hws⟩ := h.exists_edge_iff.1 ⟨v, (hmem v).1 hv⟩
    have heq : vs = ws := hvs.eq_of_mem_iff (h.values _ hws) fun v ↦
      (hmem v).trans (hvalues hws v).symm
    exact heq ▸ hws

variable [LawfulEqOrd V]

omit [TransOrd V] in
theorem Ordered.contains_iff (h : m.Ordered) : m.contains k v = true ↔ (k, v) ∈ m.edgeSet := by
  have hmem (vs : List V) : SortedSet.mem v vs = true ↔ v ∈ vs := by simp [SortedSet.mem]
  rw [contains, hmem, edgeSet, Set.mem_ofPred_eq, mem_edges_iff, getD]
  simp only [← h.get?_eq_some_iff]
  cases m.get? k <;> simp

theorem Ordered.shows (h : m.Ordered) : m.Shows m.edgeSet where
  finite := m.edges.finite_toSet
  contains _ _ := h.contains_iff
  get _ _ := h.get?_iff
  containsKey _ := h.containsKey_iff
  keys := ⟨h.increasing_keys, fun _ ↦ h.mem_keys_iff⟩
  entries := ⟨rfl, fun _ _ ↦ h.get?_eq_some_iff.symm⟩
  edgeCount := (ncard_setOf_mem h.nodup_edges).symm
  size := by
    simp only [← h.mem_keys_iff]
    rw [ncard_setOf_mem h.increasing_keys.nodup, MultiMap.keys, List.length_map, MultiMap.size]
  isEmpty := by
    rw [isEmpty_iff, Set.eq_empty_iff_forall_notMem]
    constructor
    · rintro rfl e he
      cases he
    · exact fun hnone ↦ h.eq_of_mem_edges_iff ordered_empty fun e ↦
        ⟨fun he ↦ (hnone e he).elim, fun he ↦ (nomatch he)⟩

end Queries

section Runs

variable [TransOrd K] [TransOrd V] [LawfulEqOrd K] [LawfulEqOrd V] (key : Json → Option K)
  (value : Json → Option V) {m : MultiMap K V}

/-- One operation keeps the order, and does to the edges what it does to sets. -/
theorem Ordered.run (h : m.Ordered) (op : Operation K V) : (op.run key value m).Ordered ∧
    (op.run key value m).edgeSet = op.apply key value m.edgeSet := by
  cases op with
  | insert k v =>
    refine ⟨ordered_insertEntry h, Set.ext fun ⟨l, w⟩ ↦ ?_⟩
    exact mem_edges_insert_iff.trans (by simp [Operation.apply, edgeSet])
  | retain keep => exact ⟨h.filter keep, Set.ext fun _ ↦ mem_edges_filter_iff⟩
  | extend pairs =>
    exact ⟨h.insertMany, Set.ext fun _ ↦ mem_edges_insertMany.trans or_comm⟩
  | collect pairs => exact ⟨ordered_empty.insertMany, Set.ext fun _ ↦ mem_edges_ofList⟩
  | decode j =>
    cases hj : ofJson? key value j with
    | none =>
      have hread : ¬Readable key value j := by simp [← isSome_ofJson?_iff, hj]
      simp [Operation.run, Operation.apply, hj, hread, h]
    | some n =>
      have hread : Readable key value j := isSome_ofJson?_iff.1 (Option.isSome_of_eq_some hj)
      obtain ⟨_, ps, -, -, rfl⟩ := ofJson?_eq_some_iff.1 hj
      simp only [Operation.run, Operation.apply, hj, hread, true_and, not_true_eq_false, false_and,
        or_false]
      exact ⟨ordered_empty.insertMany, Set.ext fun e ↦ mem_edges_of_ofJson? hj⟩

theorem Ordered.foldl_run (h : m.Ordered) (ops : List (Operation K V)) :
    (ops.foldl (Operation.run key value) m).Ordered ∧
      (ops.foldl (Operation.run key value) m).edgeSet =
        ops.foldl (Operation.apply key value) m.edgeSet := by
  induction ops generalizing m with
  | nil => exact ⟨h, rfl⟩
  | cons op ops ih =>
    obtain ⟨hop, hedges⟩ := h.run key value op
    rw [List.foldl_cons, List.foldl_cons, ← hedges]
    exact ih hop

theorem after_ordered (ops : List (Operation K V)) : (after key value ops).Ordered ∧
    (after key value ops).edgeSet = edgesAfter key value ops := by
  have hempty : (empty : MultiMap K V).edgeSet = ∅ := Set.eq_empty_of_forall_notMem fun _ ↦ List.not_mem_nil
  rw [after, edgesAfter, ← hempty]
  exact ordered_empty.foldl_run key value ops

/-- Multimaps refine sets of edges: after any operations the queries tell the set, an insertion
tells whether the edge is new, decoding succeeds on all that lists edges, and multimaps are the same
if their edges are. -/
theorem after_refines (ops : List (Operation K V)) :
    (after key value ops).Shows (edgesAfter key value ops) ∧
      (∀ k v, ((after key value ops).insertNew k v).1 = true ↔ (k, v) ∉ edgesAfter key value ops) ∧
      (∀ j, (ofJson? key value j).isSome = true ↔ Readable key value j) ∧
      ∀ ops', after key value ops = after key value ops' ↔
        edgesAfter key value ops = edgesAfter key value ops' := by
  obtain ⟨hordered, hedges⟩ := after_ordered key value ops
  have hshows : (after key value ops).Shows (edgesAfter key value ops) := hedges ▸ hordered.shows
  refine ⟨hshows, fun k v ↦ ?_, fun j ↦ isSome_ofJson?_iff, fun ops' ↦ ?_⟩
  · rw [insertNew, ← hshows.contains, Bool.not_eq_true, Bool.not_eq_true']
  · obtain ⟨hordered', hedges'⟩ := after_ordered key value ops'
    refine ⟨fun heq ↦ by rw [← hedges, ← hedges', heq], fun heq ↦ ?_⟩
    rw [← hedges, ← hedges'] at heq
    exact hordered.eq_of_mem_edges_iff hordered' fun e ↦ Set.ext_iff.1 heq e

/-- Entries without values, a key that comes twice, and one that loses its values. -/
def sampleOperations : List (Operation String String) :=
  [.decode (.arr [.arr [.str "a", .arr []], .arr [.str "b", .arr [.str "y"]],
    .arr [.str "b", .arr [.str "x"]], .arr [.str "c", .arr [.str "x"]]]), .retain fun _ v ↦ v == "y"]

theorem edgesAfter_sampleOperations :
    edgesAfter Json.string? Json.string? sampleOperations = {("b", "y")} := by
  have hstring (j : Json) (s : String) : j.string? = some s ↔ j = .str s := by
    cases j <;> simp [Json.string?]
  ext ⟨k, v⟩
  simp only [edgesAfter, sampleOperations, List.foldl_cons, List.foldl_nil, Operation.apply,
    Readable, listed, Option.isSome_iff_exists, hstring]
  simp +contextual [or_and_right, exists_or, or_imp]

theorem after_refines_sampleOperations :
    (after Json.string? Json.string? sampleOperations).containsKey "a" = false ∧
      (after Json.string? Json.string? sampleOperations).keys = ["b"] ∧
      (after Json.string? Json.string? sampleOperations).edgeCount = 1 ∧
      ((after Json.string? Json.string? sampleOperations).insertNew "b" "x").1 = true := by
  obtain ⟨hshows, hnew, -⟩ := after_refines Json.string? Json.string? sampleOperations
  rw [edgesAfter_sampleOperations] at hshows hnew
  refine ⟨?_, ?_, ?_, ?_⟩
  · rw [Bool.eq_false_iff, ne_eq, hshows.containsKey]
    simp
  · refine hshows.keys.1.eq_of_mem_iff (List.pairwise_singleton _ _) fun k ↦ ?_
    rw [hshows.keys.2]
    simp
  · rw [hshows.edgeCount, Set.ncard_singleton]
  · simp [hnew]

end Runs

end MultiMap
end TypeTag
