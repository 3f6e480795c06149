import TypeTag.Proofs.SymbolTable.Hierarchy

namespace TypeTag.SymbolTable

open Relation

section Closing

variable {u : SymbolTable} {bases : List SymbolId} {b c x : SymbolId}

theorem nodup_eraseDups (l : List SymbolId) : l.eraseDups.Nodup := by
  induction h : l.length using Nat.strong_induction_on generalizing l with
  | h n ih =>
    cases l with
    | nil => exact List.nodup_nil
    | cons a l =>
      rw [List.eraseDups_cons, List.nodup_cons, List.mem_eraseDups]
      refine ⟨by simp, ih _ ?_ _ rfl⟩
      rw [← h, List.length_cons]
      exact Nat.lt_succ_of_le (List.length_filter_le _ _)

theorem mem_filter_append_iff : b ∈ bases.filter (· != x) ++ [x] ↔ b ∈ bases ∨ b = x := by
  by_cases h : b = x <;> simp [h]

theorem nodup_filter_append (h : bases.Nodup) : (bases.filter (· != x) ++ [x]).Nodup := by
  refine (h.filter _).append (List.nodup_singleton x) fun y hy hx ↦ ?_
  rw [List.mem_singleton.1 hx] at hy
  simp at hy

/-- Classes with the object root moved to the end, or put there, if one of them is not universal. -/
def rooted (u : SymbolTable) (bases : List SymbolId) : List SymbolId :=
  if bases.any (!u.isUniversal ·) then bases.filter (· != u.anyRef) ++ [u.anyRef] else bases

theorem closeBases_eq (hne : bases ≠ []) :
    u.closeBases bases = (u.rooted bases).filter (· != u.any) ++ [u.any] := by
  have hrooted : u.rooted bases ≠ [] := by
    unfold rooted
    split
    · simp
    · exact hne
  unfold closeBases
  change (if (u.rooted bases).isEmpty then [] else _) = _
  rw [if_neg (by simpa using hrooted)]
  rfl

theorem mem_rooted_iff :
    b ∈ u.rooted bases ↔ b ∈ bases ∨ b = u.anyRef ∧ ∃ d ∈ bases, u.isUniversal d = false := by
  unfold rooted
  split
  · next h =>
    have hex : ∃ d ∈ bases, u.isUniversal d = false := by simpa using h
    simp only [mem_filter_append_iff, hex, and_true]
  · next h =>
    have hnot : ¬∃ d ∈ bases, u.isUniversal d = false := by simpa using h
    simp only [hnot, and_false, or_false]

theorem nodup_rooted (h : bases.Nodup) : (u.rooted bases).Nodup := by
  unfold rooted
  split
  · exact nodup_filter_append h
  · exact h

theorem head?_closeBases (hc : u.isUniversal c = false) :
    (u.closeBases (c :: bases)).head? = some c := by
  simp only [isUniversal, Bool.or_eq_false_iff, beq_eq_false_iff_ne, ne_eq] at hc
  obtain ⟨⟨hany, hanyRef⟩, -⟩ := hc
  rw [closeBases_eq (List.cons_ne_nil c bases)]
  unfold rooted
  split <;> simp [hany, hanyRef]

theorem getLast?_rooted (hne : u.anyRef ≠ u.any) (h : ∃ d ∈ bases, u.isUniversal d = false) :
    ((u.rooted bases).filter (· != u.any)).getLast? = some u.anyRef := by
  have hany : bases.any (!u.isUniversal ·) = true := by simpa using h
  rw [rooted, if_pos hany, List.filter_append, List.filter_cons_of_pos (by simpa using hne)]
  exact List.getLast?_concat

end Closing

section Lineage

variable {u : SymbolTable} {n : Nat} {visiting cs : List SymbolId} {c : SymbolId} {q : Option Ty}
  {as : List Ty}

theorem dealias_of_isClass (hc : u.IsClass c) (n : Nat) :
    u.dealias n (.ref q c as) = some (.ref q c as) :=
  dealias_of_kind_ne (by rcases hc with hc | hc | hc <;> simp [hc]) n

theorem lineage_class (hc : u.IsClass c) (n : Nat) (visiting : List SymbolId) :
    u.lineage (n + 1) visiting (.ref q c as) = u.linearize (u.lineage n) visiting c := by
  rw [lineage, dealias_of_isClass hc]
  rfl

theorem linearize_class (hc : u.IsClass c) (visit : List SymbolId → Ty → Option (List SymbolId))
    (hvisiting : c ∉ visiting) : u.linearize visit visiting c = do
      return c :: (← (u.entry c).parents.mapM (visit (c :: visiting))).flatten := by
  unfold linearize
  rw [if_neg (by simpa using hvisiting)]
  rcases hc with hc | hc | hc <;> rw [kind] at hc <;> simp only [hc]

variable (hparents : ∀ c, u.kind c = .cls → u.InheritsClasses c)

include hparents

theorem lineage_ends (hc : u.IsClass c) (hown : u.InheritsClasses c) (hvisiting : visiting.Nodup)
    (hlt : ∀ s ∈ visiting, s < u.size) (hsteps : u.size < visiting.length + n) :
    ∃ cs, u.lineage n visiting (.ref q c as) = some cs := by
  -- Each step marks one more class, so that no more steps are needed than there are symbols.
  induction n generalizing visiting c q as with
  | zero => exact absurd hsteps (Nat.not_lt.2 (length_le_of_nodup hvisiting hlt))
  | succ n ih =>
    rw [lineage_class hc]
    by_cases hmem : c ∈ visiting
    · exact ⟨[], linearize_eq_nil hmem⟩
    · rw [linearize_class hc _ hmem]
      have hc' : c < u.size := kind_lt_size (by rcases hc with hc | hc | hc <;> simp [hc])
      have hall : ∃ css, (u.entry c).parents.mapM (u.lineage n (c :: visiting)) = some css := by
        refine exists_mapM fun p hp ↦ ?_
        obtain ⟨q, b, as, rfl, hb⟩ := hown p hp
        refine ih (.inl hb) (hparents b hb) (List.nodup_cons.2 ⟨hmem, hvisiting⟩)
          (List.forall_mem_cons.2 ⟨hc', hlt⟩) ?_
        rw [List.length_cons]
        omega
      obtain ⟨css, hcss⟩ := hall
      rw [hcss]
      exact ⟨_, rfl⟩

theorem exists_lineage (hc : u.IsClass c) (hown : u.InheritsClasses c) (q : Option Ty) (as : List Ty) :
    ∃ cs, u.lineage (u.size + 1) [] (.ref q c as) = some (c :: cs) ∧
      ∀ b, b ∈ c :: cs ↔ ReflTransGen u.Extends c b := by
  obtain ⟨ds, hds⟩ : ∃ ds, u.lineage (u.size + 1) [] (.ref q c as) = some ds :=
    lineage_ends hparents hc hown List.nodup_nil (by simp) (by simp)
  have hhead : ∃ cs, ds = c :: cs := by
    rw [lineage_class hc, linearize_class hc _ List.not_mem_nil] at hds
    obtain ⟨css, -, h⟩ := Option.bind_eq_some_iff.1 hds
    cases h
    exact ⟨_, rfl⟩
  obtain ⟨cs, rfl⟩ := hhead
  refine ⟨cs, hds, fun b ↦ ?_⟩
  have hshows (h : Head) : u.Shows (.ref q c as) h ↔ h = .ref c :=
    shows_ref_iff (dealias_of_isClass hc 0)
  simp only [mem_lineage_iff hds, ← climbs_iff hparents hc hown, hshows]
  constructor
  · rintro ⟨h, s, k, rfl, ha, hk⟩
    cases ha
    exact ⟨k, hk⟩
  · rintro ⟨k, hk⟩
    exact ⟨_, c, k, rfl, rfl, hk⟩

end Lineage

/-- Where classes and objects declare references to classes as their parents, a class or an object
inherits from what declared parents lead to from it, in any number of steps, from the top class and,
if one of these classes is not universal, from the object root. Each is listed once: the class itself
first unless it is universal, the top class last and the object root, if put there, before it. -/
theorem baseClasses_linearised {u : SymbolTable} {c : SymbolId} (hu : u.Constructible)
    (hparents : ∀ c, u.kind c = .cls ∨ u.kind c = .object → u.InheritsClasses c)
    (hc : u.kind c = .cls ∨ u.kind c = .object) (q : Option Ty) (as : List Ty) :
    ∃ front : List SymbolId,
      (∀ n > u.size, u.baseClasses n (.ref q c as) = some (front ++ [u.any])) ∧
      (front ++ [u.any]).Nodup ∧
      (∀ b, b ∈ front ++ [u.any] ↔ ReflTransGen u.Extends c b ∨ b = u.any ∨
        b = u.anyRef ∧ ∃ d, ReflTransGen u.Extends c d ∧ u.isUniversal d = false) ∧
      (u.isUniversal c = false → (front ++ [u.any]).head? = some c) ∧
      ((∃ d, ReflTransGen u.Extends c d ∧ u.isUniversal d = false) →
        front.getLast? = some u.anyRef) := by
  obtain ⟨cs, hcs, hmem⟩ := exists_lineage (fun c hc ↦ hparents c (.inl hc)) (hc.imp_right .inl)
    (hparents c hc) q as
  -- What the list is before the universal classes are moved: the class still comes first in it.
  obtain ⟨ds, hds⟩ : ∃ ds, (c :: cs).eraseDups = c :: ds := ⟨_, List.eraseDups_cons⟩
  have hmem' (b : SymbolId) : b ∈ c :: ds ↔ ReflTransGen u.Extends c b := by
    rw [← hds, List.mem_eraseDups, hmem]
  have hnodup : (c :: ds).Nodup := hds ▸ nodup_eraseDups _
  have hclose := closeBases_eq (u := u) (List.cons_ne_nil c ds)
  have hex : (∃ d, ReflTransGen u.Extends c d ∧ u.isUniversal d = false) ↔
      ∃ d ∈ c :: ds, u.isUniversal d = false := by simp only [hmem']
  refine ⟨(u.rooted (c :: ds)).filter (· != u.any), fun n hn ↦ ?_, ?_, fun b ↦ ?_, fun hc ↦ ?_,
    fun h ↦ ?_⟩
  · rw [baseClasses, u.lineage_keeps hn [] _ _ hcs, ← hclose, ← hds]
    rfl
  · exact nodup_filter_append (nodup_rooted hnodup)
  · rw [mem_filter_append_iff, mem_rooted_iff, hex, hmem', or_assoc, or_comm (b := b = u.any)]
  · rw [← hclose]
    exact head?_closeBases hc
  · obtain ⟨hany, hanyRef, -⟩ := hu.universal
    refine getLast?_rooted ?_ (hex.1 h)
    rw [hany, hanyRef]
    decide

section Ring

/-- The class `Both` inherits from `Left` and `Right[A]`, these from `Base`, and that from `Both`. -/
def ring : SymbolTable :=
  let (both, u) := initial.cls 1 "Both"
  let (left, u) := u.cls 1 "Left"
  let (right, u) := u.cls 1 "Right"
  let (_, u) := u.typeParam right "A" .invariant
  let (base, u) := u.cls 1 "Base"
  let u := u.setParents both [u.typeRef left, u.applied right [u.typeRef base]]
  let u := u.setParents left [u.typeRef base]
  let u := u.setParents right [u.anyRefType, u.typeRef base]
  u.setParents base [u.typeRef both]

theorem constructible_ring : ring.Constructible := by
  refine .step (.step (.step (.step (.step (.step (.step (.step (.step .initial
    (.cls 1 "Both" ?_)) (.cls 1 "Left" ?_)) (.cls 1 "Right" ?_)) (.typeParam 7 "A" .invariant ?_))
    (.cls 1 "Base" ?_)) (.setParents 5 _ ?_ ?_)) (.setParents 6 _ ?_ ?_)) (.setParents 7 _ ?_ ?_))
    (.setParents 9 _ ?_ ?_)
  all_goals first
    | decide
    | exact fun t ht s hs ↦ (by decide : ∀ t ∈ _, ∀ s ∈ t.symbols, s < _) t ht s hs

theorem ring_linearised :
    let u := ring
    let bases : List SymbolId := [5, 6, 9, 7, 3, 2]
    u.Constructible ∧ u.kind 5 = .cls ∧ u.isUniversal 5 = false ∧
      (∀ n > 10, u.baseClasses n (u.typeRef 5) = some bases) ∧ bases.Nodup ∧
      ∀ b, b ∈ bases ↔ ReflTransGen u.Extends 5 b ∨ b = u.any ∨
        b = u.anyRef ∧ ∃ d, ReflTransGen u.Extends 5 d ∧ u.isUniversal d = false := by
  intro u bases
  have hparents (c : SymbolId) : u.InheritsClasses c := by
    have hsmall : ∀ c : Nat, c < 10 → ∀ p ∈ (u.entry c).parents, u.IsClassParent c p := by
      decide
    intro p hp
    by_cases hlt : (c : Nat) < 10
    · obtain ⟨q, b, as, rfl, hb, -⟩ := (hsmall c hlt p hp).exists_ref
      exact ⟨q, b, as, rfl, hb⟩
    · rw [entry_of_size_le u (Nat.le_of_not_lt hlt)] at hp
      cases hp
  obtain ⟨front, hends, hnodup, hmem, -⟩ := baseClasses_linearised constructible_ring
    (fun c _ ↦ hparents c) (.inl rfl : u.kind 5 = .cls ∨ _) (u.defaultQualifier 5) []
  have hbases : u.baseClasses 11 (u.typeRef 5) = some bases := by decide
  have heq : front ++ [u.any] = bases :=
    Option.some.inj ((hends 11 (by decide)).symm.trans hbases)
  rw [heq] at hends hnodup hmem
  exact ⟨constructible_ring, rfl, rfl, hends, hnodup, hmem⟩

end Ring

end TypeTag.SymbolTable
