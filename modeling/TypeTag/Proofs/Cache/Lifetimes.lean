import Mathlib.Data.Set.Card
import TypeTag.Build.Tag

namespace TypeTag.Cache

variable {K V : Type}

/-- The entry inserted last under each key since the cache was cleared, dead or alive: the object
that it was inserted through, and its value. -/
abbrev Ledger (K V : Type) := K → Option (ObjectId × V)

namespace Ledger

variable (L : Ledger K V) (alive : ObjectId → Bool)

def living? (k : K) : Option V :=
  ((L k).filter fun e ↦ alive e.1).map (·.2)

def insert [BEq K] (h : Handle K) (v : V) : Ledger K V :=
  if (L.living? alive h.value).isSome then L
  else fun k ↦ if k == h.value then some (h.object, v) else L k

variable {L alive}

theorem living?_eq_some_iff {k : K} {v : V} :
    L.living? alive k = some v ↔ ∃ o, L k = some (o, v) ∧ alive o = true := by
  simp [living?, Option.filter_eq_some_iff]

end Ledger

/-- A cache among its users, who hold handles to objects with keys, and requests that wait for the
value of a key to be built. -/
structure Usage (K V : Type) where
  cache : Cache K V
  held : List (Handle K)
  /-- The handles that unfinished requests hold on to. -/
  building : List (Handle K)
  nextObject : ObjectId

def Usage.alive (s : Usage K V) (o : ObjectId) : Bool :=
  (s.held ++ s.building).any (·.object == o)

def Usage.start : Usage K V :=
  ⟨.empty, [], [], 0⟩

/-- A run of a cache and its users, with the ledger of what was inserted and the number of requests
that were begun. A request for a key that is missing goes on while its value is built, whatever
happens meanwhile, until the value is inserted or the build has failed. -/
inductive Run [BEq K] : Usage K V → Ledger K V → Nat → Prop
  | start : Run .start (fun _ ↦ none) 0
  | create {s : Usage K V} {L : Ledger K V} {n : Nat} (k : K) (h : Run s L n) :
    Run { s with held := ⟨s.nextObject, k⟩ :: s.held, nextObject := s.nextObject + 1 } L n
  | share {s : Usage K V} {L : Ledger K V} {n : Nat} {k : Handle K} (hk : k ∈ s.held)
    (h : Run s L n) : Run { s with held := k :: s.held } L n
  | drop {s : Usage K V} {L : Ledger K V} {n : Nat} {k : Handle K} {l₁ l₂ : List (Handle K)}
    (hk : s.held = l₁ ++ k :: l₂) (h : Run s L n) : Run { s with held := l₁ ++ l₂ } L n
  | get {s : Usage K V} {L : Ledger K V} {n : Nat} (k : K) (h : Run s L n) :
    Run { s with cache := (s.cache.get s.alive k).2 } L n
  | insert {s : Usage K V} {L : Ledger K V} {n : Nat} {k : Handle K} (hk : k ∈ s.held) (v : V)
    (h : Run s L n) :
    Run { s with cache := (s.cache.insert s.alive k v).2 } (L.insert s.alive k v) n
  /-- A request begins; if it finds nothing, it waits for the value to be built. -/
  | request {s : Usage K V} {L : Ledger K V} {n : Nat} {k : Handle K} (hk : k ∈ s.held)
    (h : Run s L n) :
    Run { s with
      cache := (s.cache.fetch s.alive k.value).2
      building :=
        if (s.cache.fetch s.alive k.value).1.isSome then s.building else k :: s.building } L (n + 1)
  | finish {s : Usage K V} {L : Ledger K V} {n : Nat} {k : Handle K} {l₁ l₂ : List (Handle K)}
    (hk : s.building = l₁ ++ k :: l₂) (v : V) (h : Run s L n) :
    Run { s with cache := (s.cache.insert s.alive k v).2, building := l₁ ++ l₂ }
      (L.insert s.alive k v) n
  | giveUp {s : Usage K V} {L : Ledger K V} {n : Nat} {k : Handle K} {l₁ l₂ : List (Handle K)}
    (hk : s.building = l₁ ++ k :: l₂) (h : Run s L n) : Run { s with building := l₁ ++ l₂ } L n
  | purge {s : Usage K V} {L : Ledger K V} {n : Nat} (h : Run s L n) :
    Run { s with cache := s.cache.purge s.alive } L n
  | clear {s : Usage K V} {L : Ledger K V} {n : Nat} (h : Run s L n) :
    Run { s with cache := s.cache.clear } (fun _ ↦ none) n

section Matches

/-- The cache has at most one entry for each key, the one that the ledger tells, and has it as long
as it is alive. -/
structure Matches (c : Cache K V) (alive : ObjectId → Bool) (L : Ledger K V) : Prop where
  nodup : (c.entries.map (·.key.value)).Nodup
  recorded : ∀ e ∈ c.entries, L e.key.value = some (e.key.object, e.value)
  kept : ∀ k o v, L k = some (o, v) → alive o = true → ⟨⟨o, k⟩, v⟩ ∈ c.entries

namespace Matches

variable {c : Cache K V} {alive : ObjectId → Bool} {L : Ledger K V} (h : Matches c alive L)

include h

theorem of_alive {alive' : ObjectId → Bool}
    (hle : ∀ k o v, L k = some (o, v) → alive' o = true → alive o = true) : Matches c alive' L :=
  ⟨h.nodup, h.recorded, fun k o v hL ho ↦ h.kept k o v hL (hle k o v hL ho)⟩

theorem of_sublist {d : Cache K V} (hd : d.entries.Sublist c.entries)
    (halive : ∀ e ∈ c.entries, alive e.key.object = true → e ∈ d.entries) : Matches d alive L :=
  ⟨h.nodup.sublist (hd.map _), fun e he ↦ h.recorded e (hd.subset he),
    fun k o v hL ho ↦ halive _ (h.kept k o v hL ho) ho⟩

theorem purge : Matches (c.purge alive) alive L :=
  h.of_sublist List.filter_sublist fun _ he ho ↦ List.mem_filter.2 ⟨he, ho⟩

variable [BEq K]

theorem dropDead (k : K) : Matches (c.dropDead alive k) alive L := by
  refine h.of_sublist List.filter_sublist fun e he ho ↦ List.mem_filter.2 ⟨he, ?_⟩
  simp [ho]

variable [LawfulBEq K]

theorem find?_eq (k : K) : c.find? alive k = L.living? alive k := by
  ext v
  rw [Ledger.living?_eq_some_iff]
  constructor
  · intro hv
    obtain ⟨e, he, rfl⟩ := Option.map_eq_some_iff.1 hv
    have hk := List.find?_some he
    simp only [Bool.and_eq_true, beq_iff_eq] at hk
    exact ⟨e.key.object, hk.2 ▸ h.recorded e (List.mem_of_find?_eq_some he), hk.1⟩
  · rintro ⟨o, hL, ho⟩
    have hfound : (c.entries.find? fun e ↦ alive e.key.object && e.key.value == k).isSome := by
      rw [List.find?_isSome]
      exact ⟨_, h.kept k o v hL ho, by simp [ho]⟩
    obtain ⟨e, he⟩ := Option.isSome_iff_exists.1 hfound
    have hk := List.find?_some he
    simp only [Bool.and_eq_true, beq_iff_eq] at hk
    have heq := h.recorded e (List.mem_of_find?_eq_some he)
    rw [hk.2, hL] at heq
    cases heq
    exact Option.map_eq_some_iff.2 ⟨e, he, rfl⟩

theorem alive_of_find? {k : K} {v : V} (hv : c.find? alive k = some v) {e : CacheEntry K V}
    (he : e ∈ c.entries) (hk : e.key.value = k) : alive e.key.object = true := by
  rw [h.find?_eq, Ledger.living?_eq_some_iff] at hv
  obtain ⟨o, hL, ho⟩ := hv
  have heq := h.recorded e he
  rw [hk, hL] at heq
  cases heq
  exact ho

theorem dropDead_of_find? {k : K} {v : V} (hv : c.find? alive k = some v) :
    c.dropDead alive k = c := by
  have hall : ∀ e ∈ c.entries, (alive e.key.object || !(e.key.value == k)) = true := by
    intro e he
    by_cases hk : e.key.value = k
    · simp [h.alive_of_find? hv he hk]
    · simp [hk]
  rw [Cache.dropDead, List.filter_eq_self.2 hall]

theorem insert_of_find? {k : Handle K} {w : V} (hw : c.find? alive k.value = some w) (v : V) :
    c.insert alive k v = (w, c) := by
  simp only [Cache.insert, hw, h.dropDead_of_find? hw]

theorem insert (k : Handle K) (v : V) :
    Matches (c.insert alive k v).2 alive (L.insert alive k v) := by
  have hfind := h.find?_eq k.value
  unfold Ledger.insert
  rw [← hfind]
  cases hv : c.find? alive k.value with
  | some w =>
    rw [h.insert_of_find? hv]
    exact h
  | none =>
    have hdrop := h.dropDead k.value
    have hnone {e : CacheEntry K V} (he : e ∈ (c.dropDead alive k.value).entries) :
        e.key.value ≠ k.value := by
      intro hk
      have halive : alive e.key.object = true := by simpa [hk] using (List.mem_filter.1 he).2
      have hL := hk ▸ hdrop.recorded e he
      rw [hfind] at hv
      simp [Ledger.living?, hL, halive] at hv
    have heq : (c.insert alive k v).2.entries = (c.dropDead alive k.value).entries ++ [⟨k, v⟩] := by
      simp [Cache.insert, hv]
    simp only [Option.isSome_none, Bool.false_eq_true, if_false]
    refine ⟨?_, fun e he ↦ ?_, fun k' o w hL ho ↦ ?_⟩
    · rw [heq, List.map_append, List.nodup_append]
      refine ⟨hdrop.nodup, by simp, fun x hx y hy hxy ↦ ?_⟩
      obtain ⟨e, he, rfl⟩ := List.mem_map.1 hx
      exact hnone he (hxy.trans (by simpa using hy))
    · rw [heq] at he
      rcases List.mem_append.1 he with he | he
      · simpa [hnone he] using hdrop.recorded e he
      · obtain rfl := List.mem_singleton.1 he
        simp
    · rw [heq]
      by_cases hk : k' = k.value
      · subst hk
        simp only [beq_self_eq_true, if_true, Option.some.injEq, Prod.mk.injEq] at hL
        obtain ⟨rfl, rfl⟩ := hL
        simp
      · simp only [beq_iff_eq, hk, if_false] at hL
        exact List.mem_append_left _ (hdrop.kept k' o w hL ho)

omit [LawfulBEq K] in
theorem fetch (k : K) : Matches (c.fetch alive k).2 alive L := by
  have hdrop := h.dropDead k
  unfold Cache.fetch Cache.get
  cases Cache.find? c alive k <;> exact ⟨hdrop.nodup, hdrop.recorded, hdrop.kept⟩

theorem length_filter_le (k : K) :
    (c.entries.filter fun e ↦ alive e.key.object && e.key.value == k).length ≤ 1 := by
  have hnodup : ((c.entries.filter fun e ↦ alive e.key.object && e.key.value == k).map
      fun e ↦ e.key.value).Nodup := h.nodup.sublist (List.filter_sublist.map _)
  have hall := List.map_eq_replicate_iff.2 fun (e : CacheEntry K V)
      (he : e ∈ c.entries.filter fun e ↦ alive e.key.object && e.key.value == k) ↦
    beq_iff_eq.1 (Bool.and_eq_true_iff.1 (List.mem_filter.1 he).2).2
  rw [hall, List.nodup_replicate] at hnodup
  exact hnodup

theorem size_purge :
    ((c.purge alive).size : ℕ∞) = {k | (c.find? alive k).isSome}.encard := by
  classical
  have hnodup : ((c.purge alive).entries.map fun e ↦ e.key.value).Nodup := h.purge.nodup
  have hmem : {k | (c.find? alive k).isSome} =
      ((c.purge alive).entries.map fun e ↦ e.key.value).toFinset := by
    ext k
    simp only [Set.mem_ofPred_eq, Cache.find?, Option.isSome_map, List.find?_isSome,
      Bool.and_eq_true, beq_iff_eq, Cache.purge, List.coe_toFinset, List.mem_map, List.mem_filter,
      and_assoc]
  rw [hmem, Set.encard_coe_eq_coe_finsetCard, List.toFinset_card_of_nodup hnodup, List.length_map]
  rfl

end Matches

end Matches

section Runs

variable {s : Usage K V} {L : Ledger K V} {n : Nat}

theorem Usage.alive_iff {o : ObjectId} :
    s.alive o = true ↔ ∃ k ∈ s.held ++ s.building, k.object = o := by
  rw [Usage.alive, List.any_eq_true]
  simp only [beq_iff_eq]

theorem Usage.alive_building {k : Handle K} (hk : k ∈ s.held) (c : Cache K V) :
    Usage.alive { s with cache := c, building := k :: s.building } = s.alive := by
  funext o
  rw [Bool.eq_iff_iff, Usage.alive_iff, Usage.alive_iff]
  simp only [List.mem_append, List.mem_cons]
  constructor
  · rintro ⟨k', hk' | rfl | hk', ho⟩
    · exact ⟨k', .inl hk', ho⟩
    · exact ⟨k', .inl hk, ho⟩
    · exact ⟨k', .inr hk', ho⟩
  · rintro ⟨k', hk' | hk', ho⟩
    · exact ⟨k', .inl hk', ho⟩
    · exact ⟨k', .inr (.inr hk'), ho⟩

/-- The cache matches the ledger, and objects to come are in neither. -/
structure Usage.Sound (s : Usage K V) (L : Ledger K V) : Prop where
  entries : Matches s.cache s.alive L
  held : ∀ k ∈ s.held ++ s.building, k.object < s.nextObject
  recorded : ∀ k o v, L k = some (o, v) → o < s.nextObject

namespace Usage.Sound

variable (h : s.Sound L)

include h

theorem of_handles {c : Cache K V} {L' : Ledger K V} {held building : List (Handle K)}
    (hc : Matches c s.alive L') (hL : ∀ k o v, L' k = some (o, v) → o < s.nextObject)
    (hsub : held ++ building ⊆ s.held ++ s.building) :
    Usage.Sound { s with cache := c, held, building } L' := by
  refine ⟨hc.of_alive fun k o v _ ho ↦ ?_, fun k hk ↦ h.held k (hsub hk), hL⟩
  obtain ⟨k', hk', ho⟩ := Usage.alive_iff.1 ho
  exact Usage.alive_iff.2 ⟨k', hsub hk', ho⟩

theorem create (k : K) :
    Usage.Sound { s with held := ⟨s.nextObject, k⟩ :: s.held, nextObject := s.nextObject + 1 } L := by
  refine ⟨h.entries.of_alive fun k' o v hL ho ↦ ?_, fun k' hk' ↦ ?_, fun k' o v hL ↦ ?_⟩
  · obtain ⟨k', hk', rfl⟩ := Usage.alive_iff.1 ho
    rcases List.mem_cons.1 hk' with rfl | hk'
    · exact absurd (h.recorded _ _ v hL) (Nat.lt_irrefl _)
    · exact Usage.alive_iff.2 ⟨k', hk', rfl⟩
  · rcases List.mem_cons.1 hk' with rfl | hk'
    · exact Nat.lt_succ_self _
    · exact Nat.lt_succ_of_lt (h.held k' hk')
  · exact Nat.lt_succ_of_lt (h.recorded k' o v hL)

theorem recorded_insert [BEq K] {k : Handle K} (hk : k ∈ s.held ++ s.building) (v : V) :
    ∀ k' o w, L.insert s.alive k v k' = some (o, w) → o < s.nextObject := by
  intro k' o w hL
  unfold Ledger.insert at hL
  split at hL
  · exact h.recorded k' o w hL
  · dsimp only at hL
    split at hL
    · cases hL
      exact h.held k hk
    · exact h.recorded k' o w hL

end Usage.Sound

variable [BEq K] [LawfulBEq K]

theorem Run.sound (h : Run s L n) : s.Sound L := by
  induction h with
  | start =>
    exact ⟨⟨.nil, fun _ he ↦ (nomatch he), fun _ _ _ hL ↦ (nomatch hL)⟩, fun _ hk ↦ (nomatch hk),
      fun _ _ _ hL ↦ (nomatch hL)⟩
  | create k _ ih => exact ih.create k
  | share hk _ ih =>
    refine ih.of_handles ih.entries ih.recorded fun k' hk' ↦ ?_
    rcases List.mem_cons.1 hk' with rfl | hk'
    · exact List.mem_append_left _ hk
    · exact hk'
  | @drop s _ _ k l₁ l₂ hk _ ih =>
    refine ih.of_handles ih.entries ih.recorded ?_
    rw [hk]
    exact (((List.sublist_cons_self k l₂).append_left l₁).append_right _).subset
  | get k _ ih => exact ih.of_handles (ih.entries.dropDead k) ih.recorded (List.Subset.refl _)
  | insert hk v _ ih =>
    exact ih.of_handles (ih.entries.insert _ v) (ih.recorded_insert (List.mem_append_left _ hk) v)
      (List.Subset.refl _)
  | request hk _ ih =>
    refine ih.of_handles (ih.entries.fetch _) ih.recorded fun k' hk' ↦ ?_
    split at hk'
    · exact hk'
    · simp only [List.mem_append, List.mem_cons] at hk' ⊢
      rcases hk' with hk' | rfl | hk'
      · exact .inl hk'
      · exact .inl hk
      · exact .inr hk'
  | @finish s _ _ k l₁ l₂ hk v _ ih =>
    have hmem : k ∈ s.held ++ s.building := by simp [hk]
    refine ih.of_handles (ih.entries.insert k v) (ih.recorded_insert hmem v) ?_
    rw [hk]
    exact (((List.sublist_cons_self k l₂).append_left l₁).append_left _).subset
  | @giveUp s _ _ k l₁ l₂ hk _ ih =>
    refine ih.of_handles ih.entries ih.recorded ?_
    rw [hk]
    exact (((List.sublist_cons_self k l₂).append_left l₁).append_left _).subset
  | purge _ ih => exact ih.of_handles ih.entries.purge ih.recorded (List.Subset.refl _)
  | clear _ ih =>
    exact ih.of_handles ⟨.nil, fun _ he ↦ (nomatch he), fun _ _ _ hL ↦ (nomatch hL)⟩
      (fun _ _ _ hL ↦ (nomatch hL)) (List.Subset.refl _)

omit [LawfulBEq K] in
theorem Run.hits_add_misses (h : Run s L n) : s.cache.hits + s.cache.misses = n := by
  have hinsert (c : Cache K V) (alive : ObjectId → Bool) (k : Handle K) (v : V) :
      (c.insert alive k v).2.hits = c.hits ∧ (c.insert alive k v).2.misses = c.misses := by
    unfold Cache.insert
    cases Cache.find? c alive k.value <;> exact ⟨rfl, rfl⟩
  induction h with
  | start => rfl
  | create | share | drop | get | giveUp | purge | clear => assumption
  | insert hk v _ ih =>
    rw [(hinsert _ _ _ _).1, (hinsert _ _ _ _).2]
    exact ih
  | finish hk v _ ih =>
    rw [(hinsert _ _ _ _).1, (hinsert _ _ _ _).2]
    exact ih
  | @request s _ _ k hk _ ih =>
    unfold Cache.fetch Cache.get
    cases Cache.find? s.cache s.alive k.value <;> simp only [Cache.dropDead] <;> omega

/-- A request that nothing comes in between of. -/
theorem Run.fetchOrBuild {ε : Type} {k : Handle K} (hk : k ∈ s.held) (build : Unit → Except ε V)
    (h : Run s L n) :
    Run { s with cache := (s.cache.fetchOrBuild s.alive k build).2 }
      (match build () with
        | .ok v => L.insert s.alive k v
        | .error _ => L) (n + 1) := by
  have hrequest := h.request hk
  have hfind := h.sound.entries.find?_eq k.value
  cases hv : s.cache.find? s.alive k.value with
  | some w =>
    have hinsert (v : V) : L.insert s.alive k v = L := by
      simp [Ledger.insert, ← hfind, hv]
    simp only [Cache.fetch, Cache.get, hv, Option.isSome_some, if_true] at hrequest
    cases build () <;> simpa only [Cache.fetchOrBuild, Cache.fetch, Cache.get, hv, hinsert]
  | none =>
    simp only [Cache.fetch, Cache.get, hv, Option.isSome_none, Bool.false_eq_true,
      if_false] at hrequest
    cases hb : build () with
    | error e =>
      have hgiveUp := hrequest.giveUp (List.nil_append _).symm
      simpa only [Cache.fetchOrBuild, Cache.fetch, Cache.get, hv, hb]
    | ok v =>
      -- The building request holds `k` too, but its owner holds it already: the same keys are alive.
      have hfinish := hrequest.finish (List.nil_append _).symm v
      rw [Usage.alive_building hk] at hfinish
      simpa only [Cache.fetchOrBuild, Cache.fetch, Cache.get, hv, hb]

omit [LawfulBEq K] in
theorem find?_dropDead (c : Cache K V) (alive : ObjectId → Bool) (k : K) :
    (c.dropDead alive k).find? alive k = c.find? alive k := by
  rw [find?, find?, dropDead, List.find?_filter]
  congr 2
  funext e
  cases alive e.key.object <;> simp

omit [LawfulBEq K] in
theorem fetchOrBuild_answer {ε : Type} (c : Cache K V) (alive : ObjectId → Bool) (k : Handle K)
    (build : Unit → Except ε V) :
    (c.fetchOrBuild alive k build).1 =
      match (c.get alive k.value).1 with
      | some v => .ok v
      | none => build () := by
  unfold Cache.fetchOrBuild Cache.fetch Cache.get
  cases hv : c.find? alive k.value with
  | some v => rfl
  | none =>
    dsimp only
    cases build () with
    | error e => rfl
    | ok v =>
      have hmissing (m : Nat) :
          Cache.find? { c.dropDead alive k.value with misses := m } alive k.value = none :=
        (c.find?_dropDead alive k.value).trans hv
      simp only [Cache.insert, hmissing]

/-- At any point of a run, each key has at most one living entry; a key is read as long as the object
that its last entry was inserted through is alive and the cache has not been cleared since, and
insertions change nothing meanwhile; each request has been counted once, also one whose value is
built at once, which answers with what is read or else with what is built; and a purge leaves one
entry for each key that is read. -/
theorem entry_lifetimes (h : Run s L n) :
    (∀ k, (s.cache.entries.filter fun e ↦ s.alive e.key.object && e.key.value == k).length ≤ 1) ∧
      (∀ k v, (s.cache.get s.alive k).1 = some v ↔ ∃ o, L k = some (o, v) ∧ s.alive o = true) ∧
      (∀ k ∈ s.held, ∀ v w, (s.cache.get s.alive k.value).1 = some w →
        s.cache.insert s.alive k v = (w, s.cache) ∧ L.insert s.alive k v = L) ∧
      s.cache.hits + s.cache.misses = n ∧
      (∀ k ∈ s.held, ∀ {ε : Type} (build : Unit → Except ε V),
        (s.cache.fetchOrBuild s.alive k build).1 =
          (match (s.cache.get s.alive k.value).1 with
            | some v => .ok v
            | none => build ()) ∧
        Run { s with cache := (s.cache.fetchOrBuild s.alive k build).2 }
          (match build () with
            | .ok v => L.insert s.alive k v
            | .error _ => L) (n + 1)) ∧
      ((s.cache.purge s.alive).size : ℕ∞) = {k | (s.cache.get s.alive k).1.isSome}.encard := by
  have hs := h.sound.entries
  refine ⟨hs.length_filter_le, fun k v ↦ ?_, fun k _ v w hw ↦ ⟨hs.insert_of_find? hw v, ?_⟩,
    h.hits_add_misses,
    fun k hk _ build ↦ ⟨fetchOrBuild_answer _ _ k build, h.fetchOrBuild hk build⟩, hs.size_purge⟩
  · rw [← Ledger.living?_eq_some_iff, ← hs.find?_eq]
    rfl
  · have hliving : L.living? s.alive k.value = some w := (hs.find?_eq k.value).symm.trans hw
    simp [Ledger.insert, hliving]

section Example

def sharedKey : Ty := .self 0

def sharedValue : Descriptor := .intersection []

/-- Of two objects with the same key, the first had a value inserted, which the second requested; then
the first was dropped. -/
def survivor : Usage Ty Descriptor where
  cache := ⟨[⟨⟨0, sharedKey⟩, sharedValue⟩], 1, 0⟩
  held := [⟨1, sharedKey⟩]
  building := []
  nextObject := 2

def survivorLedger : Ledger Ty Descriptor :=
  fun k ↦ if k == sharedKey then some (0, sharedValue) else none

theorem survivor_run : Run survivor survivorLedger 1 := by
  have hcreate : Run (V := Descriptor) ⟨.empty, [⟨1, sharedKey⟩, ⟨0, sharedKey⟩], [], 2⟩ _ 0 :=
    (Run.start.create _).create _
  have hinsert := hcreate.insert (k := ⟨0, sharedKey⟩)
    (List.mem_cons_of_mem _ List.mem_cons_self) sharedValue
  have hrequest := hinsert.request (k := ⟨1, sharedKey⟩) List.mem_cons_self
  have hdrop := hrequest.drop (k := ⟨0, sharedKey⟩) List.singleton_append.symm
  unfold survivor survivorLedger
  simpa [Cache.insert, Cache.fetch, Cache.get, Cache.find?, Cache.dropDead, Cache.empty,
    Usage.alive, Ledger.insert, Ledger.living?] using hdrop

theorem survivor_lifetimes :
    (survivor.cache.get survivor.alive sharedKey).1 = none ∧
      (survivor.cache.purge survivor.alive).size = 0 ∧
      survivor.cache.hits + survivor.cache.misses = 1 ∧
      (survivor.cache.fetchOrBuild survivor.alive ⟨1, sharedKey⟩ fun _ ↦ Except.error ()).1 =
        .error () := by
  obtain ⟨-, hread, -, hcount, hcall, -⟩ := entry_lifetimes survivor_run
  have hnone : (survivor.cache.get survivor.alive sharedKey).1 = none := by
    rw [Option.eq_none_iff_forall_ne_some]
    intro v hv
    obtain ⟨o, hL, ho⟩ := (hread _ v).1 hv
    simp only [survivorLedger, beq_self_eq_true, if_true, Option.some.injEq, Prod.mk.injEq] at hL
    obtain ⟨rfl, -⟩ := hL
    exact absurd ho (by decide)
  refine ⟨hnone, rfl, hcount, ?_⟩
  rw [(hcall ⟨1, sharedKey⟩ List.mem_cons_self _).1, hnone]

end Example

end Runs

end TypeTag.Cache
