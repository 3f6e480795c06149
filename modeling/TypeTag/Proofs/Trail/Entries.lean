import Mathlib.Data.List.Induction
import TypeTag.Trail

namespace TypeTag.Trail

inductive Move (α : Type) where
  | enter (a : α)
  | leave (a : α)

/-- What is done with a trail: moves, and scopes around what is done inside of them. -/
inductive Use (α : Type) where
  | enter (a : α)
  | leave (a : α)
  | scope (a : α) (inner : List (Use α))

section Moves

variable {α : Type}

mutual

def Use.moves : Use α → List (Move α)
  | enter a => [.enter a]
  | leave a => [.leave a]
  | scope a inner => .enter a :: (movesAll inner ++ [.leave a])

def Use.movesAll : List (Use α) → List (Move α)
  | [] => []
  | x :: xs => x.moves ++ movesAll xs

end

variable [BEq α]

mutual

def Use.run : Use α → Trail α → Trail α
  | enter a, p => p.enter a
  | leave a, p => p.leave a
  | scope a inner, p => (p.scope a fun q ↦ ((), runAll inner q)).2

def Use.runAll : List (Use α) → Trail α → Trail α
  | [], p => p
  | x :: xs, p => runAll xs (x.run p)

end

def Move.run (p : Trail α) : Move α → Trail α
  | enter a => p.enter a
  | leave a => p.leave a

def afterMoves (ms : List (Move α)) : Trail α :=
  ms.foldl Move.run empty

def entered (a : α) (ms : List (Move α)) : Nat :=
  ms.countP fun
    | .enter b => b == a
    | .leave _ => false

def left (a : α) (ms : List (Move α)) : Nat :=
  ms.countP fun
    | .enter _ => false
    | .leave b => b == a

/-- Each time a type is left, it has been entered before more often than left. -/
def Matched (ms : List (Move α)) : Prop :=
  ∀ before, before <+: ms → ∀ a, left a before ≤ entered a before

def Balanced (ms : List (Move α)) : Prop :=
  ∀ a, entered a ms = left a ms

def Move.track (entries : List α) : Move α → List α
  | enter a => a :: entries
  | leave a => entries.erase a

/-- The entries that are not left yet, the latest first. -/
def unmatched (ms : List (Move α)) : List α :=
  ms.foldl Move.track []

end Moves

variable {α : Type} [BEq α] {p q : Trail α} {a b : α} {entries : List α} {ms : List (Move α)}

/-- A trail stands for a list of entries, whatever their order. -/
structure Represents (p : Trail α) (entries : List α) : Prop where
  lookup : ∀ a, p.counts.lookup a =
    if entries.count a = 0 then none else some (entries.count a)
  depth : p.depth = entries.length

mutual

theorem run_eq_foldl : ∀ (x : Use α) (p : Trail α), x.run p = x.moves.foldl Move.run p
  | .enter _, _ => rfl
  | .leave _, _ => rfl
  | .scope a inner, p => by
    have hscope : (Use.scope a inner).run p = (Use.runAll inner (p.enter a)).leave a := by
      rw [Use.run, scope]
    rw [hscope, runAll_eq_foldl inner, Use.moves, List.foldl_cons, List.foldl_append,
      List.foldl_cons, List.foldl_nil]
    rfl

theorem runAll_eq_foldl : ∀ (xs : List (Use α)) (p : Trail α),
    Use.runAll xs p = (Use.movesAll xs).foldl Move.run p
  | [], _ => rfl
  | x :: xs, p => by
    rw [Use.runAll, Use.movesAll, List.foldl_append, run_eq_foldl x, runAll_eq_foldl xs]

end

section Lookup

variable {counts : List (α × Nat)}

theorem lookup_cons_count {e : α × Nat} :
    (e :: counts).lookup b = if b == e.1 then some e.2 else counts.lookup b := by
  rw [List.lookup_cons]
  cases b == e.1 <;> rfl

variable [LawfulBEq α]

theorem lookup_map_counts (f : Nat → Nat) :
    (counts.map fun e ↦ if e.1 == a then (e.1, f e.2) else e).lookup b =
      if b == a then (counts.lookup b).map f else counts.lookup b := by
  induction counts with
  | nil => simp
  | cons e counts ih =>
    obtain ⟨c, k⟩ := e
    rw [List.map_cons, lookup_cons_count, lookup_cons_count, ih]
    by_cases ha : c = a
    · subst ha
      by_cases hb : b = c <;> simp [hb]
    · by_cases hb : b = c <;> simp [hb, ha]

theorem lookup_filter_counts :
    (counts.filter fun e ↦ !(e.1 == a)).lookup b = if b == a then none else counts.lookup b := by
  induction counts with
  | nil => simp
  | cons e counts ih =>
    rw [lookup_cons_count]
    by_cases ha : e.1 = a
    · rw [List.filter_cons_of_neg (by simp [ha]), ih, ha]
      by_cases hb : b = a <;> simp [hb]
    · rw [List.filter_cons_of_pos (by simp [ha]), lookup_cons_count, ih]
      by_cases hb : b = e.1 <;> simp [ha, hb]

end Lookup

namespace Represents

theorem empty : Represents (Trail.empty : Trail α) [] :=
  ⟨fun _ ↦ by simp [Trail.empty], rfl⟩

theorem count_eq (h : Represents p entries) (a : α) : p.count a = entries.count a := by
  rw [count, h.lookup]
  split
  · next hzero => rw [hzero, Option.getD_none]
  · rfl

theorem contains_iff (h : Represents p entries) : p.contains a = true ↔ 0 < entries.count a := by
  rw [contains, h.lookup, Nat.pos_iff_ne_zero]
  split
  · next hzero => simp [hzero]
  · next hpos => simp [hpos]

variable [LawfulBEq α]

theorem isEmpty_iff (h : Represents p entries) : p.isEmpty = true ↔ p.depth = 0 := by
  rw [isEmpty, List.isEmpty_iff, h.depth, List.length_eq_zero_iff]
  constructor
  · intro hcounts
    refine List.eq_nil_iff_forall_not_mem.2 fun a ha ↦ ?_
    have hlookup := h.lookup a
    have hpos : 0 < entries.count a := List.count_pos_iff.2 ha
    rw [hcounts, List.lookup_nil, if_neg (Nat.ne_of_gt hpos)] at hlookup
    cases hlookup
  · intro hentries
    refine List.eq_nil_iff_forall_not_mem.2 fun e he ↦ ?_
    have hsome : (p.counts.lookup e.1).isSome = true :=
      List.lookup_isSome_iff.2 ⟨e, he, beq_self_eq_true e.1⟩
    rw [h.lookup, hentries] at hsome
    simp at hsome

theorem enter (h : Represents p entries) (a : α) : Represents (p.enter a) (a :: entries) := by
  refine ⟨fun b ↦ ?_, congrArg (· + 1) h.depth⟩
  have hlookup : (p.enter a).counts.lookup b =
      if b == a then some (entries.count a + 1) else p.counts.lookup b := by
    unfold Trail.enter
    dsimp only
    split
    · next ha =>
      have hpos := Nat.ne_of_gt (h.contains_iff.1 ha)
      rw [lookup_map_counts (· + 1)]
      by_cases hb : b = a <;> simp [hb, h.lookup, hpos]
    · next ha =>
      have hzero : entries.count a = 0 := Nat.eq_zero_of_not_pos fun hpos ↦ ha (h.contains_iff.2 hpos)
      rw [lookup_cons_count, hzero]
  rw [hlookup, h.lookup, List.count_cons]
  by_cases hb : b = a
  · simp [hb]
  · simp [hb, Ne.symm hb]

theorem leave (h : Represents p entries) (ha : a ∈ entries) :
    Represents (p.leave a) (entries.erase a) := by
  have hdepth : (p.leave a).depth = (entries.erase a).length := by
    rw [List.length_erase_of_mem ha, Trail.leave, h.depth]
  refine ⟨fun b ↦ ?_, hdepth⟩
  have hlookup : (p.leave a).counts.lookup b =
      if b == a then (if entries.count a - 1 = 0 then none else some (entries.count a - 1))
      else p.counts.lookup b := by
    have hpos : 0 < entries.count a := List.count_pos_iff.2 ha
    unfold Trail.leave
    dsimp only
    rw [h.count_eq]
    split
    · next hmany =>
      have hleft : entries.count a - 1 ≠ 0 := by omega
      rw [lookup_map_counts (· - 1)]
      by_cases hb : b = a <;> simp [hb, h.lookup, Nat.ne_of_gt hpos, hleft]
    · next hone =>
      have hleft : entries.count a - 1 = 0 := by omega
      rw [lookup_filter_counts, if_pos hleft]
  rw [hlookup, h.lookup]
  by_cases hb : b = a
  · simp [hb]
  · simp [hb, List.count_erase_of_ne hb]

end Represents

section Matched

@[simp] theorem entered_concat_enter :
    entered b (ms ++ [.enter a]) = entered b ms + if a == b then 1 else 0 := by
  simp only [entered, List.countP_append, List.countP_singleton]

@[simp] theorem entered_concat_leave : entered b (ms ++ [.leave a]) = entered b ms := by
  simp [entered, List.countP_append]

@[simp] theorem left_concat_enter : left b (ms ++ [.enter a]) = left b ms := by
  simp [left, List.countP_append]

@[simp] theorem left_concat_leave :
    left b (ms ++ [.leave a]) = left b ms + if a == b then 1 else 0 := by
  simp only [left, List.countP_append, List.countP_singleton]

theorem Matched.of_append {ms ns : List (Move α)} (h : Matched (ms ++ ns)) : Matched ms :=
  fun before hbefore ↦ h before (hbefore.trans (List.prefix_append ms ns))

theorem matched_nil : Matched ([] : List (Move α)) := by
  intro before hbefore a
  rw [List.prefix_nil.1 hbefore]
  exact Nat.le_refl 0

theorem Matched.concat {m : Move α} (h : Matched ms)
    (hm : ∀ a, left a (ms ++ [m]) ≤ entered a (ms ++ [m])) : Matched (ms ++ [m]) := by
  intro before hbefore
  rcases List.prefix_concat_iff.1 hbefore with rfl | hbefore
  · exact hm
  · exact h before hbefore

theorem Matched.concat_enter (h : Matched ms) (a : α) : Matched (ms ++ [.enter a]) := by
  refine h.concat fun b ↦ ?_
  have hb := h ms (List.prefix_refl ms) b
  rw [left_concat_enter, entered_concat_enter]
  omega

variable [LawfulBEq α]

theorem Matched.concat_leave (h : Matched ms) (ha : left a ms < entered a ms) :
    Matched (ms ++ [.leave a]) := by
  refine h.concat fun b ↦ ?_
  have hb := h ms (List.prefix_refl ms) b
  rw [left_concat_leave, entered_concat_leave]
  by_cases hab : a = b
  · subst hab
    rw [beq_self_eq_true, if_pos rfl]
    omega
  · rw [beq_eq_false_iff_ne.2 hab, if_neg Bool.false_ne_true]
    omega

/-- Moves that match keep count of each type and of all entries. -/
theorem Matched.tracks (h : Matched ms) :
    Represents (afterMoves ms) (unmatched ms) ∧
      ∀ a, (unmatched ms).count a + left a ms = entered a ms := by
  induction ms using List.reverseRecOn with
  | nil => exact ⟨.empty, fun a ↦ rfl⟩
  | append_singleton ms m ih =>
    obtain ⟨hrep, hcount⟩ := ih h.of_append
    have hlast := h _ (List.prefix_refl _)
    have htrail : afterMoves (ms ++ [m]) = Move.run (afterMoves ms) m := by
      rw [afterMoves, List.foldl_append, List.foldl_cons, List.foldl_nil, afterMoves]
    have hentries : unmatched (ms ++ [m]) = Move.track (unmatched ms) m := by
      rw [unmatched, List.foldl_append, List.foldl_cons, List.foldl_nil, unmatched]
    rw [htrail, hentries]
    cases m with
    | enter a =>
      refine ⟨hrep.enter a, fun b ↦ ?_⟩
      have hb := hcount b
      rw [Move.track, List.count_cons, left_concat_enter, entered_concat_enter]
      omega
    | leave a =>
      have ha : a ∈ unmatched ms := by
        have hle := hlast a
        have hcount := hcount a
        rw [left_concat_leave, entered_concat_leave, beq_self_eq_true, if_pos rfl] at hle
        exact List.count_pos_iff.1 (by omega)
      refine ⟨hrep.leave ha, fun b ↦ ?_⟩
      have hb := hcount b
      rw [Move.track, left_concat_leave, entered_concat_leave]
      by_cases hab : a = b
      · subst hab
        have hpos := List.count_pos_iff.2 ha
        rw [List.count_erase_self, beq_self_eq_true, if_pos rfl]
        omega
      · rw [List.count_erase_of_ne (Ne.symm hab), beq_eq_false_iff_ne.2 hab,
          if_neg Bool.false_ne_true]
        omega

end Matched

section Scopes

variable {before : List (Move α)} {inner : List (Use α)}

theorem balanced_scope (h : Balanced (Use.movesAll inner)) (a : α) :
    Balanced (Use.scope a inner).moves := by
  intro b
  have hb := h b
  rw [Use.moves, ← List.cons_append, entered_concat_leave, left_concat_leave]
  unfold entered left at hb ⊢
  rw [List.countP_cons, List.countP_cons, hb, if_neg Bool.false_ne_true, Nat.add_zero]

variable [LawfulBEq α]

theorem Matched.alike_of_balanced {ms : List (Move α)} (h : Matched (before ++ ms))
    (hms : Balanced ms) :
    (∀ b, (afterMoves (before ++ ms)).contains b = (afterMoves before).contains b) ∧
      (afterMoves (before ++ ms)).depth = (afterMoves before).depth := by
  obtain ⟨hbefore, hcountBefore⟩ := h.of_append.tracks
  obtain ⟨hafter, hcountAfter⟩ := h.tracks
  have hcount (b : α) : (unmatched (before ++ ms)).count b = (unmatched before).count b := by
    have hb := hms b
    have h₁ := hcountBefore b
    have h₂ := hcountAfter b
    unfold entered left at hb h₁ h₂
    rw [List.countP_append, List.countP_append] at h₂
    omega
  constructor
  · intro b
    rw [Bool.eq_iff_iff, hafter.contains_iff, hbefore.contains_iff, hcount]
  · have hperm : (unmatched (before ++ ms)).Perm (unmatched before) := List.perm_iff_count.2 hcount
    rw [hafter.depth, hbefore.depth, hperm.length_eq]

/-- Whatever is done with a trail, if nothing is left that is not on it, the trail is the multiset
of the entries that are not left yet: it contains the types that were entered more often than left,
its depth is the number of all entries, no counter exceeds it, and no entry means no depth. And
wherever the inside of a scope is balanced, the trail is behind the scope as it was before it. -/
theorem uses_refine_multiset {uses : List (Use α)} (h : Matched (Use.movesAll uses)) :
    (∀ a, ((Use.runAll uses empty).contains a = true ↔
          left a (Use.movesAll uses) < entered a (Use.movesAll uses)) ∧
        (Use.runAll uses empty).count a = (unmatched (Use.movesAll uses)).count a ∧
        (Use.runAll uses empty).count a ≤ (Use.runAll uses empty).depth ∧
        (unmatched (Use.movesAll uses)).count a + left a (Use.movesAll uses) =
          entered a (Use.movesAll uses)) ∧
      (Use.runAll uses empty).depth = (unmatched (Use.movesAll uses)).length ∧
      ((Use.runAll uses empty).isEmpty = true ↔ (Use.runAll uses empty).depth = 0) ∧
      ∀ before a inner after,
        Use.movesAll uses = before ++ (Use.scope a inner).moves ++ after →
        Balanced (Use.movesAll inner) →
        (∀ b, ((Use.scope a inner).run (afterMoves before)).contains b =
            (afterMoves before).contains b) ∧
          ((Use.scope a inner).run (afterMoves before)).depth = (afterMoves before).depth ∧
          ((Use.scope a inner).run (afterMoves before)).level = (afterMoves before).level := by
  have hrun : Use.runAll uses empty = afterMoves (Use.movesAll uses) := runAll_eq_foldl uses empty
  obtain ⟨hrep, hcount⟩ := h.tracks
  rw [hrun]
  refine ⟨fun a ↦ ⟨?_, hrep.count_eq a, ?_, hcount a⟩, hrep.depth, hrep.isEmpty_iff,
    fun before a inner after hmoves hinner ↦ ?_⟩
  · have ha := hcount a
    rw [hrep.contains_iff]
    omega
  · rw [hrep.count_eq, hrep.depth]
    exact List.count_le_length
  · rw [hmoves] at h
    obtain ⟨hcontains, hdepth⟩ := h.of_append.alike_of_balanced (balanced_scope hinner a)
    have hscope : (Use.scope a inner).run (afterMoves before) =
        afterMoves (before ++ (Use.scope a inner).moves) := by
      rw [run_eq_foldl, afterMoves, afterMoves, List.foldl_append]
    rw [hscope]
    exact ⟨hcontains, hdepth, congrArg (· - 1) hdepth⟩

/-- A type entered, in its scope once more, with another type passing through. -/
def nestedUses : List (Use String) :=
  [.enter "A", .scope "A" [.enter "B", .leave "B"]]

theorem nestedUses_refine_multiset :
    Matched (Use.movesAll nestedUses) ∧ Balanced (Use.movesAll [.enter "B", .leave "B"]) ∧
      (Use.runAll nestedUses empty).contains "A" = true ∧
      ((Use.scope "A" [.enter "B", .leave "B"]).run (afterMoves [.enter "A"])).level = 0 := by
  have hmatched : Matched (Use.movesAll nestedUses) := by
    have hA := (matched_nil.concat_enter "A").concat_enter "A"
    have hB := (hA.concat_enter "B").concat_leave (a := "B") (by decide)
    exact hB.concat_leave (a := "A") (by decide)
  have hbalanced : Balanced (Use.movesAll [.enter "B", .leave "B"]) := fun a ↦ rfl
  obtain ⟨hcounts, -, -, hscopes⟩ := uses_refine_multiset hmatched
  obtain ⟨-, -, hlevel⟩ := hscopes [.enter "A"] "A" _ [] rfl hbalanced
  exact ⟨hmatched, hbalanced, (hcounts "A").1.2 (by decide), hlevel⟩

end Scopes

end TypeTag.Trail
