import Mathlib.Data.Nat.Find
import Mathlib.Tactic.ByContra
import TypeTag.Proofs.Steps.Loops
import TypeTag.Proofs.SymbolTable.Heads

namespace TypeTag.SymbolTable

variable {u : SymbolTable} {c : SymbolId}

section Shortest

/-- From no symbol on the way does one come to the class in at most so many steps. -/
def Fails (u : SymbolTable) (c : SymbolId) (k : Nat) (visiting : List SymbolId) : Prop :=
  ∀ v ∈ visiting, ∀ j ≤ k, ¬u.Climbs c j v

theorem fails_nil (k : Nat) : u.Fails c k [] :=
  fun _ hv ↦ nomatch hv

theorem Fails.mono {k j : Nat} {visiting : List SymbolId} (h : u.Fails c k visiting)
    (hj : j ≤ k) : u.Fails c j visiting :=
  fun v hv i hi ↦ h v hv i (Nat.le_trans hi hj)

/-- A shortest way up from a symbol does not come back to it. -/
theorem Climbs.shortest {k : Nat} {s : SymbolId} (h : u.Climbs c k s) {visiting : List SymbolId}
    (hv : u.Fails c k visiting) :
    s ∉ visiting ∧ ((s = c ∧ u.IsClass c) ∨
      ∃ j t h s', j ≤ k ∧ u.Leads s t ∧ u.Shows t h ∧ u.anchor? h = some s' ∧ u.Climbs c j s' ∧
        u.Fails c j (s :: visiting)) := by
  refine ⟨fun hs ↦ hv s hs k (Nat.le_refl k) h, ?_⟩
  -- After the first step of a shortest way, `s` itself may be left out of the search.
  obtain ⟨m, hmk, hm, hmin⟩ : ∃ m ≤ k, u.Climbs c m s ∧ ∀ i < m, ¬u.Climbs c i s := by
    classical
    have hex : ∃ k, u.Climbs c k s := ⟨k, h⟩
    exact ⟨Nat.find hex, Nat.find_min' hex h, Nat.find_spec hex, fun i hi ↦ Nat.find_min hex hi⟩
  cases hm with
  | here hc => exact .inl ⟨rfl, hc⟩
  | @up j _ s' t h ht hh ha hs' =>
    have hjk : j ≤ k := Nat.le_trans (Nat.le_succ j) hmk
    refine .inr ⟨j, t, h, s', hjk, ht, hh, ha, hs', fun v hmem i hi ↦ ?_⟩
    rcases List.mem_cons.1 hmem with rfl | hmem
    · exact hmin i (Nat.lt_succ_of_le hi)
    · exact hv v hmem i (Nat.le_trans hi hjk)

end Shortest

section Linearize

variable {visit : List SymbolId → Ty → Option (List SymbolId)} {visiting cs : List SymbolId}
  {s : SymbolId}

theorem linearize_eq_cons (hs : s ∉ visiting) (h : u.linearize visit visiting s = some cs) :
    (u.IsClass s → s ∈ cs) ∧
      (∀ t, u.Leads s t → ∃ ls, visit (s :: visiting) t = some ls ∧ ls ⊆ cs) ∧
      ∀ x ∈ cs, (x = s ∧ u.IsClass s) ∨
        ∃ t ls, u.Leads s t ∧ visit (s :: visiting) t = some ls ∧ x ∈ ls := by
  have hvisiting : visiting.contains s = false := by simpa using hs
  have hentry : (u.entry s).kind = u.kind s := rfl
  unfold linearize at h
  simp only [hvisiting, Bool.false_eq_true, if_false, hentry] at h
  unfold Leads IsClass
  cases hk : u.kind s with
  | package | term =>
    rw [hk] at h
    cases h
    simp
  | typeParam | abstractType =>
    rw [hk] at h
    simp only [reduceCtorEq, or_self, false_implies, true_and, and_false, false_or,
      forall_eq]
    exact ⟨⟨cs, h, List.Subset.refl cs⟩, fun x hx ↦ ⟨_, cs, rfl, h, hx⟩⟩
  | typeAlias =>
    rw [hk] at h
    simp only [reduceCtorEq, or_self, false_implies, true_and, and_false, false_or]
    cases hb : (u.entry s).body with
    | none =>
      rw [hb] at h
      cases h
      simp
    | some b =>
      rw [hb] at h
      refine ⟨fun t ht ↦ ?_, fun x hx ↦ ⟨b, cs, rfl, h, hx⟩⟩
      cases ht
      exact ⟨cs, h, List.Subset.refl cs⟩
  | cls | object | refinement =>
    rw [hk] at h
    obtain ⟨lss, hlss, h⟩ := Option.bind_eq_some_iff.1 h
    cases h
    refine ⟨fun _ ↦ List.mem_cons_self, fun t ht ↦ ?_, fun x hx ↦ ?_⟩
    · obtain ⟨ls, hls, hvisit⟩ := mapM_mem hlss ht
      refine ⟨ls, hvisit, fun x hx ↦ List.mem_cons_of_mem s ?_⟩
      exact List.mem_flatten_of_mem hls hx
    · rcases List.mem_cons.1 hx with rfl | hx
      · exact .inl ⟨rfl, by simp⟩
      · obtain ⟨ls, hls, hx⟩ := List.mem_flatten.1 hx
        obtain ⟨t, ht, hvisit⟩ := mem_mapM hlss hls
        exact .inr ⟨t, ls, ht, hvisit, hx⟩

theorem linearize_eq_nil (hs : s ∈ visiting) : u.linearize visit visiting s = some [] := by
  unfold linearize
  rw [if_pos (by simpa using hs)]

theorem linearize_sound (hvisit : ∀ {visiting t ls}, visit visiting t = some ls → c ∈ ls →
      ∃ h s k, u.Shows t h ∧ u.anchor? h = some s ∧ u.Climbs c k s)
    (h : u.linearize visit visiting s = some cs) (hc : c ∈ cs) : ∃ k, u.Climbs c k s := by
  by_cases hs : s ∈ visiting
  · rw [linearize_eq_nil hs] at h
    cases h
    cases hc
  · rcases (linearize_eq_cons hs h).2.2 c hc with ⟨rfl, hclass⟩ | ⟨t, ls, ht, hls, hmem⟩
    · exact ⟨0, .here hclass⟩
    · obtain ⟨h, s', k, hh, ha, hk⟩ := hvisit hls hmem
      exact ⟨k + 1, .up ht hh ha hk⟩

theorem linearize_complete {k : Nat}
    (hvisit : ∀ {visiting t ls h s k}, visit visiting t = some ls → u.Shows t h →
      u.anchor? h = some s → u.Climbs c k s → u.Fails c k visiting → c ∈ ls)
    (h : u.linearize visit visiting s = some cs) (hk : u.Climbs c k s)
    (hv : u.Fails c k visiting) : c ∈ cs := by
  obtain ⟨hs, ⟨rfl, hclass⟩ | ⟨j, t, hd, s', -, ht, hh, ha, hs', hfails⟩⟩ := hk.shortest hv
  · exact (linearize_eq_cons hs h).1 hclass
  · obtain ⟨ls, hls, hsub⟩ := (linearize_eq_cons hs h).2.1 t ht
    exact hsub (hvisit hls hh ha hs' hfails)

end Linearize

section Lineage

variable {n : Nat} {visiting cs : List SymbolId} {t : Ty}

theorem isSingle_termType {s : SymbolId} (h : u.kind s ≠ .term) :
    (u.termType s).isSingle = true := by
  unfold termType
  dsimp only
  split
  · next hk _ => exact absurd hk h
  · rfl

theorem lineage_sound (h : u.lineage n visiting t = some cs) (hc : c ∈ cs) :
    ∃ h s k, u.Shows t h ∧ u.anchor? h = some s ∧ u.Climbs c k s := by
  induction n generalizing visiting t cs with
  | zero => cases h
  | succ n ih =>
    obtain ⟨d, hd, h⟩ := Option.bind_eq_some_iff.1 h
    cases d with
    | ref q s as =>
      obtain ⟨k, hk⟩ := linearize_sound ih h hc
      exact ⟨.ref s, s, k, .ref hd, rfl, hk⟩
    | self s =>
      obtain ⟨k, hk⟩ := linearize_sound ih h hc
      exact ⟨.self s, s, k, .self hd, rfl, hk⟩
    | single q s =>
      dsimp only at h
      split at h
      · next hobj =>
        obtain ⟨k, hk⟩ := linearize_sound ih h hc
        exact ⟨.single s, s, k, .single hd (by simp [hobj]), if_pos hobj, hk⟩
      · split at h
        · cases h
          cases hc
        · next hsingle =>
          obtain ⟨h', s', k, hh, ha, hk⟩ := ih h hc
          have hterm : u.kind s = .term := by
            by_contra hterm
            exact hsingle (isSingle_termType hterm)
          exact ⟨h', s', k, .term hd hterm (by simpa using hsingle) hh, ha, hk⟩
    | constant v | bounds l r =>
      cases h
      cases hc
    | refined ps ms =>
      obtain ⟨lss, hlss, h⟩ := Option.bind_eq_some_iff.1 h
      cases h
      obtain ⟨ls, hls, hc⟩ := List.mem_flatten.1 hc
      obtain ⟨p, hp, hvisit⟩ := mem_mapM hlss hls
      obtain ⟨h', s', k, hh, ha, hk⟩ := ih hvisit hc
      exact ⟨h', s', k, .refined hd hp hh, ha, hk⟩
    | poly ps r =>
      obtain ⟨h', s', k, hh, ha, hk⟩ := ih h hc
      exact ⟨h', s', k, .poly hd hh, ha, hk⟩

theorem lineage_complete (h : u.lineage n visiting t = some cs) {hd : Head} {s : SymbolId}
    {k : Nat} (hh : u.Shows t hd) (ha : u.anchor? hd = some s) (hk : u.Climbs c k s)
    (hv : u.Fails c k visiting) : c ∈ cs := by
  induction n generalizing visiting t cs hd s k with
  | zero => cases h
  | succ n ih =>
    obtain ⟨d, hd, h⟩ := Option.bind_eq_some_iff.1 h
    cases d with
    | ref q s =>
      cases (shows_ref_iff hd).1 hh
      cases ha
      exact linearize_complete (fun h hh ha ↦ ih h hh ha) h hk hv
    | self s =>
      cases (shows_self_iff hd).1 hh
      cases ha
      exact linearize_complete (fun h hh ha ↦ ih h hh ha) h hk hv
    | single q s =>
      dsimp only at h
      rcases (shows_single_iff hd).1 hh with ⟨-, rfl⟩ | ⟨hterm, hsingle, hh⟩
      · rw [anchor?] at ha
        split at ha
        · next hobj =>
          cases ha
          rw [if_pos hobj] at h
          exact linearize_complete (fun h hh ha ↦ ih h hh ha) h hk hv
        · cases ha
      · rw [if_neg (by simp [hterm]), hsingle, if_neg Bool.false_ne_true] at h
        exact ih h hh ha hk hv
    | constant v => exact absurd hh (not_shows_constant hd)
    | bounds l r => exact absurd hh (not_shows_bounds hd)
    | refined ps ms =>
      obtain ⟨lss, hlss, h⟩ := Option.bind_eq_some_iff.1 h
      cases h
      obtain ⟨p, hp, hh⟩ := (shows_refined_iff hd).1 hh
      obtain ⟨ls, hls, hvisit⟩ := mapM_mem hlss hp
      exact List.mem_flatten_of_mem hls (ih hvisit hh ha hk hv)
    | poly ps r => exact ih h ((shows_poly_iff hd).1 hh) ha hk hv

/-- The classes of a type are those that one comes to from its heads. -/
theorem mem_lineage_iff (h : u.lineage n [] t = some cs) :
    c ∈ cs ↔ ∃ h s k, u.Shows t h ∧ u.anchor? h = some s ∧ u.Climbs c k s :=
  ⟨lineage_sound h, fun ⟨_, _, k, hh, ha, hk⟩ ↦ lineage_complete h hh ha hk (fails_nil k)⟩

end Lineage

section BaseClasses

variable {n : Nat} {t : Ty} {bases : List SymbolId}

theorem mem_closeBases_iff (hc : u.isUniversal c = false) {bases : List SymbolId} :
    c ∈ u.closeBases bases ↔ c ∈ bases := by
  simp only [isUniversal, Bool.or_eq_false_iff, beq_eq_false_iff_ne, ne_eq] at hc
  unfold closeBases
  dsimp only
  split <;> split <;> simp_all

theorem mem_baseClasses_iff (hc : u.isUniversal c = false)
    (h : u.baseClasses n t = some bases) :
    c ∈ bases ↔ ∃ h s k, u.Shows t h ∧ u.anchor? h = some s ∧ u.Climbs c k s := by
  obtain ⟨cs, hcs, h⟩ := Option.bind_eq_some_iff.1 h
  cases h
  rw [mem_closeBases_iff hc, List.mem_eraseDups, mem_lineage_iff hcs]

end BaseClasses

end TypeTag.SymbolTable
