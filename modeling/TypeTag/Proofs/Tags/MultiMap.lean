import TypeTag.MultiMap

namespace TypeTag

open Std

theorem SortedSet.mem_insert_iff {α : Type} [Ord α] [LawfulEqOrd α] {a b : α} {s : List α} :
    b ∈ insert a s ↔ b = a ∨ b ∈ s := by
  induction s with
  | nil => simp [insert]
  | cons c s ih =>
    rw [insert]
    cases h : compare a c with
    | lt => simp
    | eq => simp [LawfulEqOrd.eq_of_compare h]
    | gt => simp [ih, or_left_comm]

theorem SortedSet.mem_ofList_iff {α : Type} [Ord α] [LawfulEqOrd α] {a : α} {l : List α} :
    a ∈ ofList l ↔ a ∈ l := by
  have hfold (s : List α) : a ∈ l.foldl (fun s b ↦ insert b s) s ↔ a ∈ l ∨ a ∈ s := by
    induction l generalizing s with
    | nil => simp
    | cons b l ih => simp [ih, mem_insert_iff, or_left_comm, or_assoc]
  simp [ofList, hfold]

namespace MultiMap

variable {K V : Type}

theorem mem_edges_iff {m : MultiMap K V} {k : K} {v : V} :
    (k, v) ∈ m.edges ↔ ∃ vs, (k, vs) ∈ m.entries ∧ v ∈ vs := by
  constructor
  · intro h
    obtain ⟨⟨l, vs⟩, he, hv⟩ := List.mem_flatMap.1 h
    obtain ⟨w, hw, hp⟩ := List.mem_map.1 hv
    obtain ⟨rfl, rfl⟩ := Prod.mk.inj hp
    exact ⟨vs, he, hw⟩
  · rintro ⟨vs, he, hv⟩
    exact List.mem_flatMap.2 ⟨(k, vs), he, List.mem_map_of_mem hv⟩

theorem isEmpty_iff {m : MultiMap K V} : m.isEmpty = true ↔ m = empty := by
  cases m
  simp [isEmpty, empty]

theorem mem_edges_filter_iff {m : MultiMap K V} {keep : K → V → Bool} {k : K} {v : V} :
    (k, v) ∈ (m.filter keep).edges ↔ (k, v) ∈ m.edges ∧ keep k v = true := by
  rw [mem_edges_iff, mem_edges_iff]
  constructor
  · rintro ⟨vs, he, hv⟩
    obtain ⟨⟨l, ws⟩, hmem, heq⟩ := List.mem_map.1 (List.mem_filter.1 he).1
    cases heq
    obtain ⟨hv, hkeep⟩ := List.mem_filter.1 hv
    exact ⟨⟨ws, hmem, hv⟩, hkeep⟩
  · rintro ⟨⟨vs, he, hv⟩, hkeep⟩
    have hmem : v ∈ vs.filter (keep k) := List.mem_filter.2 ⟨hv, hkeep⟩
    refine ⟨vs.filter (keep k), List.mem_filter.2 ⟨List.mem_map_of_mem he, ?_⟩, hmem⟩
    simpa using List.ne_nil_of_mem hmem

variable [Ord K] [Ord V] [LawfulEqOrd K] [LawfulEqOrd V]

theorem mem_edges_insert_iff {m : MultiMap K V} {k l : K} {v w : V} :
    (l, w) ∈ (m.insert k v).edges ↔ (l = k ∧ w = v) ∨ (l, w) ∈ m.edges := by
  rw [mem_edges_iff, mem_edges_iff, insert]
  dsimp only
  induction m.entries with
  | nil => simp [insertEntry, and_assoc]
  | cons e es ih =>
    obtain ⟨i, vs⟩ := e
    rw [insertEntry]
    cases h : compare k i with
    | lt => simp [or_and_right, exists_or, and_assoc]
    | eq =>
      obtain rfl := LawfulEqOrd.eq_of_compare h
      simp only [List.mem_cons, Prod.mk.injEq, or_and_right, exists_or, and_assoc,
        exists_and_left, exists_eq_left, SortedSet.mem_insert_iff, and_or_left, or_assoc]
    | gt =>
      simp only [List.mem_cons, Prod.mk.injEq, or_and_right, exists_or, ih, or_left_comm]

theorem mem_edges_insertMany {m : MultiMap K V} {pairs : List (K × V)} {e : K × V} :
    e ∈ (m.insertMany pairs).edges ↔ e ∈ pairs ∨ e ∈ m.edges := by
  induction pairs generalizing m with
  | nil => simp [insertMany]
  | cons p pairs ih =>
    obtain ⟨k, v⟩ := p
    obtain ⟨l, w⟩ := e
    have hcons : m.insertMany ((k, v) :: pairs) = (m.insert k v).insertMany pairs := rfl
    rw [hcons, ih, mem_edges_insert_iff, List.mem_cons, Prod.mk.injEq]
    grind

theorem mem_edges_ofList {pairs : List (K × V)} {e : K × V} :
    e ∈ (ofList pairs).edges ↔ e ∈ pairs := by
  rw [ofList, mem_edges_insertMany]
  simp [empty, edges]

end MultiMap

end TypeTag
