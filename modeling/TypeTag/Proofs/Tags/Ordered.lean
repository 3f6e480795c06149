import TypeTag.Proofs.Tags.MultiMap

namespace TypeTag

open Std

namespace SortedSet

variable {α : Type} [Ord α] [TransOrd α] {a : α} {s l : List α}

theorem insert_eq_append (h : ∀ b ∈ s, compare b a = .lt) : insert a s = s ++ [a] := by
  induction s with
  | nil => rfl
  | cons b s ih =>
    have hab : compare a b = .gt := OrientedCmp.gt_of_lt (h b List.mem_cons_self)
    rw [insert, hab, ih fun c hc ↦ h c (List.mem_cons_of_mem b hc), List.cons_append]

theorem foldl_insert_eq_append (h : Increasing (s ++ l)) :
    l.foldl (fun s a ↦ insert a s) s = s ++ l := by
  induction l generalizing s with
  | nil => simp
  | cons a l ih =>
    have hlast : ∀ b ∈ s, compare b a = .lt :=
      fun b hb ↦ (List.pairwise_append.1 h).2.2 b hb a List.mem_cons_self
    rw [List.append_cons] at h ⊢
    rw [List.foldl_cons, insert_eq_append hlast, ih h]

theorem ofList_eq_self (h : Increasing s) : ofList s = s :=
  foldl_insert_eq_append (s := []) h

theorem Increasing.nodup (h : Increasing s) : s.Nodup := by
  refine List.Pairwise.imp (fun {a b} hab heq ↦ ?_) h
  have hself : compare b b = .eq := ReflCmp.compare_self
  rw [heq, hself] at hab
  cases hab

theorem Increasing.eq_of_mem_iff (hs : Increasing s) (hl : Increasing l) (h : ∀ a, a ∈ s ↔ a ∈ l) :
    s = l := by
  refine List.Perm.eq_of_pairwise (fun a b _ _ hab hba ↦ ?_) hs hl
    ((List.perm_ext_iff_of_nodup hs.nodup hl.nodup).2 h)
  rw [OrientedCmp.gt_of_lt hab] at hba
  cases hba

variable [LawfulEqOrd α]

theorem increasing_insert (h : Increasing s) : Increasing (insert a s) := by
  induction s with
  | nil => exact List.pairwise_singleton _ _
  | cons b s ih =>
    obtain ⟨hb, hs⟩ := List.pairwise_cons.1 h
    rw [insert]
    cases hab : compare a b with
    | lt =>
      refine List.pairwise_cons.2 ⟨fun c hc ↦ ?_, h⟩
      rcases List.mem_cons.1 hc with rfl | hc
      · exact hab
      · exact TransCmp.lt_trans hab (hb c hc)
    | eq => exact h
    | gt =>
      refine List.pairwise_cons.2 ⟨fun c hc ↦ ?_, ih hs⟩
      rcases mem_insert_iff.1 hc with rfl | hc
      · exact OrientedCmp.lt_of_gt hab
      · exact hb c hc

theorem increasing_foldl_insert (h : Increasing s) :
    Increasing (l.foldl (fun s a ↦ insert a s) s) := by
  induction l generalizing s with
  | nil => exact h
  | cons a l ih => exact ih (increasing_insert h)

theorem increasing_ofList : Increasing (ofList l) :=
  increasing_foldl_insert List.Pairwise.nil

theorem ofList_eq_iff : ofList s = ofList l ↔ ∀ a, a ∈ s ↔ a ∈ l := by
  constructor
  · intro h a
    rw [← mem_ofList_iff, h, mem_ofList_iff]
  · refine fun h ↦ increasing_ofList.eq_of_mem_iff increasing_ofList fun a ↦ ?_
    rw [mem_ofList_iff, mem_ofList_iff, h]

end SortedSet

namespace MultiMap

open SortedSet

variable {K V : Type} [Ord K] [Ord V] {e : K × List V} {es : List (K × List V)} {k : K} {v : V}

/-- The keys increase, and so do the values of each key, of which there is at least one. -/
structure Ordered (m : MultiMap K V) : Prop where
  keys : m.entries.Pairwise fun e f ↦ compare e.1 f.1 = .lt
  values : ∀ e ∈ m.entries, Increasing e.2
  nonempty : ∀ e ∈ m.entries, e.2 ≠ []

/-- The multimaps that the operations reach from the empty one, with keys in `P` and values
in `Q`. -/
inductive Reached (P : K → Prop) (Q : V → Prop) : MultiMap K V → Prop
  | empty : Reached P Q .empty
  | insert {m : MultiMap K V} {k : K} {v : V} (h : Reached P Q m) (hk : P k)
    (hv : Q v) : Reached P Q (m.insert k v)
  | insertMany {m : MultiMap K V} {pairs : List (K × V)} (h : Reached P Q m)
    (hp : ∀ e ∈ pairs, P e.1 ∧ Q e.2) : Reached P Q (m.insertMany pairs)
  | filter {m : MultiMap K V} (h : Reached P Q m) (keep : K → V → Bool) :
    Reached P Q (m.filter keep)
  | ofList {pairs : List (K × V)} (hp : ∀ e ∈ pairs, P e.1 ∧ Q e.2) : Reached P Q (.ofList pairs)
  | ofEntries {entries : List (K × List V)} (h : ∀ e ∈ entries, P e.1 ∧ ∀ v ∈ e.2, Q v) :
    Reached P Q (.ofEntries entries)

theorem ordered_empty : (empty : MultiMap K V).Ordered :=
  ⟨.nil, fun _ h ↦ (nomatch h), fun _ h ↦ (nomatch h)⟩

theorem ordered_cons_iff : Ordered ⟨e :: es⟩ ↔
    (∀ f ∈ es, compare e.1 f.1 = .lt) ∧ Increasing e.2 ∧ e.2 ≠ [] ∧ Ordered ⟨es⟩ := by
  constructor
  · rintro ⟨hkeys, hvalues, hnonempty⟩
    obtain ⟨hk, hkeys⟩ := List.pairwise_cons.1 hkeys
    exact ⟨hk, hvalues e List.mem_cons_self, hnonempty e List.mem_cons_self, hkeys,
      fun f hf ↦ hvalues f (List.mem_cons_of_mem e hf),
      fun f hf ↦ hnonempty f (List.mem_cons_of_mem e hf)⟩
  · rintro ⟨hk, hv, hne, h⟩
    refine ⟨List.pairwise_cons.2 ⟨hk, h.keys⟩, fun f hf ↦ ?_, fun f hf ↦ ?_⟩ <;>
      rcases List.mem_cons.1 hf with rfl | hf
    · exact hv
    · exact h.values f hf
    · exact hne
    · exact h.nonempty f hf

theorem Ordered.filter {m : MultiMap K V} (h : m.Ordered) (keep : K → V → Bool) :
    (m.filter keep).Ordered := by
  refine ⟨(List.pairwise_map.2 h.keys).filter _, fun e he ↦ ?_, fun e he ↦ ?_⟩
  · obtain ⟨f, hf, rfl⟩ := List.mem_map.1 (List.mem_filter.1 he).1
    exact (h.values f hf).filter _
  · simpa using (List.mem_filter.1 he).2

theorem insertMany_cons (m : MultiMap K V) (p : K × V) (pairs : List (K × V)) :
    m.insertMany (p :: pairs) = (m.insert p.1 p.2).insertMany pairs :=
  rfl

theorem insertMany_append (m : MultiMap K V) (pairs pairs' : List (K × V)) :
    m.insertMany (pairs ++ pairs') = (m.insertMany pairs).insertMany pairs' :=
  List.foldl_append

section Edges

variable [LawfulEqOrd K] [LawfulEqOrd V] {P : K → Prop} {Q : V → Prop} {m : MultiMap K V}

theorem Reached.edges (h : Reached P Q m) : ∀ p ∈ m.edges, P p.1 ∧ Q p.2 := by
  induction h with
  | empty => exact fun _ hp ↦ (nomatch hp)
  | insert _ hk hv ih =>
    rintro ⟨l, w⟩ hp
    rcases mem_edges_insert_iff.1 hp with ⟨rfl, rfl⟩ | hp
    · exact ⟨hk, hv⟩
    · exact ih _ hp
  | insertMany _ hpairs ih => exact fun p hp ↦ (mem_edges_insertMany.1 hp).elim (hpairs p) (ih p)
  | filter _ keep ih => exact fun p hp ↦ ih p (mem_edges_filter_iff.1 hp).1
  | ofList hpairs => exact fun p hp ↦ hpairs p (mem_edges_ofList.1 hp)
  | ofEntries hentries =>
    intro p hp
    obtain ⟨e, he, hp⟩ := List.mem_flatMap.1 (mem_edges_ofList.1 hp)
    obtain ⟨v, hv, rfl⟩ := List.mem_map.1 hp
    exact ⟨(hentries e he).1, (hentries e he).2 v hv⟩

theorem Reached.value (h : Reached P Q m) (he : e ∈ m.entries) (hv : v ∈ e.2) : Q v :=
  (h.edges (e.1, v) (mem_edges_iff.2 ⟨e.2, he, hv⟩)).2

end Edges

section Append

variable [TransOrd K]

theorem insertEntry_eq_append (h : ∀ e ∈ es, compare e.1 k = .lt) :
    insertEntry k v es = es ++ [(k, [v])] := by
  induction es with
  | nil => rfl
  | cons e es ih =>
    have hk : compare k e.1 = .gt := OrientedCmp.gt_of_lt (h e List.mem_cons_self)
    rw [insertEntry, hk, ih fun f hf ↦ h f (List.mem_cons_of_mem e hf), List.cons_append]

theorem insertEntry_last {vs : List V} (h : ∀ e ∈ es, compare e.1 k = .lt) :
    insertEntry k v (es ++ [(k, vs)]) = es ++ [(k, SortedSet.insert v vs)] := by
  induction es with
  | nil => simp [insertEntry]
  | cons e es ih =>
    have hk : compare k e.1 = .gt := OrientedCmp.gt_of_lt (h e List.mem_cons_self)
    rw [List.cons_append, insertEntry, hk, ih fun f hf ↦ h f (List.mem_cons_of_mem e hf),
      List.cons_append]

variable [TransOrd V] {vs ws : List V} {fs : List (K × List V)}

theorem insertMany_last (hk : ∀ e ∈ es, compare e.1 k = .lt) (hv : Increasing (vs ++ ws)) :
    insertMany ⟨es ++ [(k, vs)]⟩ (ws.map (k, ·)) = ⟨es ++ [(k, vs ++ ws)]⟩ := by
  induction ws generalizing vs with
  | nil => simp [insertMany]
  | cons w ws ih =>
    have hlast : ∀ v ∈ vs, compare v w = .lt :=
      fun v hv' ↦ (List.pairwise_append.1 hv).2.2 v hv' w List.mem_cons_self
    have hinsert : insert ⟨es ++ [(k, vs)]⟩ k w = ⟨es ++ [(k, vs ++ [w])]⟩ := by
      rw [insert, insertEntry_last hk, insert_eq_append hlast]
    rw [List.append_cons] at hv
    rw [List.map_cons, insertMany_cons, hinsert, ih hv, ← List.append_cons]

theorem insertMany_values (hk : ∀ e ∈ es, compare e.1 k = .lt) (hv : Increasing vs)
    (hne : vs ≠ []) : insertMany ⟨es⟩ (vs.map (k, ·)) = ⟨es ++ [(k, vs)]⟩ := by
  obtain ⟨w, ws, rfl⟩ := List.exists_cons_of_ne_nil hne
  rw [List.map_cons, insertMany_cons, insert, insertEntry_eq_append hk]
  exact insertMany_last hk hv

theorem insertMany_entries (h : Ordered ⟨es ++ fs⟩) :
    insertMany ⟨es⟩ (fs.flatMap fun e ↦ e.2.map (e.1, ·)) = ⟨es ++ fs⟩ := by
  induction fs generalizing es with
  | nil => simp [insertMany]
  | cons f fs ih =>
    have hmem : f ∈ es ++ f :: fs := List.mem_append_right es List.mem_cons_self
    have hk : ∀ e ∈ es, compare e.1 f.1 = .lt :=
      fun e he ↦ (List.pairwise_append.1 h.keys).2.2 e he f List.mem_cons_self
    have hfirst := insertMany_values hk (h.values f hmem) (h.nonempty f hmem)
    rw [List.append_cons] at h
    rw [List.flatMap_cons, insertMany_append, hfirst, ih h, ← List.append_cons]

theorem ofEntries_entries {m : MultiMap K V} (h : m.Ordered) : ofEntries m.entries = m :=
  insertMany_entries (show Ordered ⟨[] ++ m.entries⟩ from h)

end Append

section Insert

variable [LawfulEqOrd K]

theorem key_of_mem_insertEntry (h : e ∈ insertEntry k v es) : e.1 = k ∨ e ∈ es := by
  induction es with
  | nil =>
    obtain rfl := List.mem_singleton.1 h
    exact .inl rfl
  | cons f es ih =>
    rw [insertEntry] at h
    cases hk : compare k f.1 <;> simp only [hk, List.mem_cons] at h
    case lt =>
      rcases h with rfl | h
      · exact .inl rfl
      · exact .inr (List.mem_cons.2 h)
    case eq =>
      rcases h with rfl | h
      · exact .inl (LawfulEqOrd.eq_of_compare hk).symm
      · exact .inr (List.mem_cons_of_mem f h)
    case gt =>
      rcases h with rfl | h
      · exact .inr List.mem_cons_self
      · exact (ih h).imp_right (List.mem_cons_of_mem f)

variable [TransOrd K] [TransOrd V] [LawfulEqOrd V]

theorem ordered_insertEntry (h : Ordered ⟨es⟩) : Ordered ⟨insertEntry k v es⟩ := by
  induction es with
  | nil =>
    exact ordered_cons_iff.2 ⟨fun _ h ↦ (nomatch h), List.pairwise_singleton _ _, by simp, h⟩
  | cons f es ih =>
    obtain ⟨hf, hv, hne, hes⟩ := ordered_cons_iff.1 h
    rw [insertEntry]
    cases hk : compare k f.1 with
    | lt =>
      refine ordered_cons_iff.2 ⟨fun e he ↦ ?_, List.pairwise_singleton _ _, by simp, h⟩
      rcases List.mem_cons.1 he with rfl | he
      · exact hk
      · exact TransCmp.lt_trans hk (hf e he)
    | eq =>
      refine ordered_cons_iff.2 ⟨hf, increasing_insert hv, ?_, hes⟩
      exact List.ne_nil_of_mem (mem_insert_iff.2 (.inl rfl))
    | gt =>
      refine ordered_cons_iff.2 ⟨fun e he ↦ ?_, hv, hne, ih hes⟩
      rcases key_of_mem_insertEntry he with hek | he
      · rw [hek]
        exact OrientedCmp.lt_of_gt hk
      · exact hf e he

theorem Ordered.insertMany {m : MultiMap K V} {pairs : List (K × V)} (h : m.Ordered) :
    (m.insertMany pairs).Ordered := by
  induction pairs generalizing m with
  | nil => exact h
  | cons p pairs ih => exact ih (m := m.insert p.1 p.2) (ordered_insertEntry h)

namespace Reached

variable {P : K → Prop} {Q : V → Prop} {m : MultiMap K V}

theorem ordered (h : Reached P Q m) : m.Ordered := by
  induction h with
  | empty => exact ordered_empty
  | insert _ _ _ ih => exact ordered_insertEntry ih
  | insertMany _ _ ih => exact ih.insertMany
  | filter _ keep ih => exact ih.filter keep
  | ofList => exact ordered_empty.insertMany
  | ofEntries => exact ordered_empty.insertMany

theorem key (h : Reached P Q m) (he : e ∈ m.entries) : P e.1 := by
  obtain ⟨v, hv⟩ := List.exists_mem_of_ne_nil _ (h.ordered.nonempty e he)
  exact (h.edges (e.1, v) (mem_edges_iff.2 ⟨e.2, he, hv⟩)).1

end Reached

omit [TransOrd K] [TransOrd V] [LawfulEqOrd V] in
theorem Ordered.edges_increasing {m : MultiMap K V} (h : m.Ordered) :
    m.edges.Pairwise fun p q ↦
      compareLex (compareOn Prod.fst) (compareOn Prod.snd) p q = .lt := by
  refine List.pairwise_flatMap.2 ⟨fun e he ↦ ?_, h.keys.imp fun {e f} hef p hp q hq ↦ ?_⟩
  · refine List.pairwise_map.2 ((h.values e he).imp fun {v w} hvw ↦ ?_)
    simp [compareLex, compareOn, hvw]
  · obtain ⟨v, -, rfl⟩ := List.mem_map.1 hp
    obtain ⟨w, -, rfl⟩ := List.mem_map.1 hq
    simp [compareLex, compareOn, hef]

omit [LawfulEqOrd V] in
/-- An ordered multimap is known by its edges. -/
theorem Ordered.eq_of_mem_edges_iff {m n : MultiMap K V} (hm : m.Ordered) (hn : n.Ordered)
    (h : ∀ p, p ∈ m.edges ↔ p ∈ n.edges) : m = n := by
  let : Ord (K × V) := lexOrd
  have hedges : m.edges = n.edges :=
    Increasing.eq_of_mem_iff hm.edges_increasing hn.edges_increasing h
  calc
    m = ofList m.edges := (ofEntries_entries hm).symm
    _ = ofList n.edges := by rw [hedges]
    _ = n := ofEntries_entries hn

/-- Entries, in any order and with keys repeated, stand for their edges alone. -/
theorem ofEntries_eq_of_mem_iff {es fs : List (K × List V)}
    (h : ∀ k v, (∃ vs, (k, vs) ∈ es ∧ v ∈ vs) ↔ ∃ vs, (k, vs) ∈ fs ∧ v ∈ vs) :
    ofEntries es = ofEntries fs := by
  refine Ordered.eq_of_mem_edges_iff ordered_empty.insertMany ordered_empty.insertMany
    fun ⟨k, v⟩ ↦ ?_
  change (k, v) ∈ (ofList (edges ⟨es⟩)).edges ↔ (k, v) ∈ (ofList (edges ⟨fs⟩)).edges
  rw [mem_edges_ofList, mem_edges_ofList, mem_edges_iff, mem_edges_iff]
  exact h k v

end Insert

end MultiMap

end TypeTag
