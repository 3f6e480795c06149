import TypeTag.Proofs.Steps.Ways
import TypeTag.Proofs.SymbolTable.Within

namespace TypeTag.SymbolTable

open Relation

def DeclaredAs (u : SymbolTable) (s t : SymbolId) : Prop :=
  u.kind s = .term ∧ ∃ q, (u.entry s).body = some (.single q t)

/-- The search that has met the symbols of `seen` and comes to `s` ends at `e`, after `n` turns each
of which meets another symbol. -/
inductive ResolvesIn (u : SymbolTable) : List SymbolId → SymbolId → Nat → SymbolId → Prop
  | met {seen : List SymbolId} {s : SymbolId} (h : s ∈ seen) : ResolvesIn u seen s 0 s
  | last {seen : List SymbolId} {s : SymbolId} (h : s ∉ seen) (hlast : ∀ t, ¬u.DeclaredAs s t) :
    ResolvesIn u seen s 1 s
  | next {seen : List SymbolId} {s t e : SymbolId} {n : Nat} (h : s ∉ seen)
    (hstep : u.DeclaredAs s t) (rest : ResolvesIn u (s :: seen) t n e) :
    ResolvesIn u seen s (n + 1) e

variable {u : SymbolTable} {s t e : SymbolId} {seen : List SymbolId} {n m : Nat}

theorem termAlias?_eq_some_iff : u.termAlias? s = some t ↔ u.DeclaredAs s t := by
  unfold termAlias? DeclaredAs kind
  dsimp only
  split
  · next q x hk hb => simp [hk, hb, eq_comm]
  · next hother =>
    constructor
    · rintro ⟨⟩
    · rintro ⟨hk, q, hb⟩
      exact absurd hb (hother q t hk)

theorem termAlias?_eq_none_iff : u.termAlias? s = none ↔ ∀ t, ¬u.DeclaredAs s t := by
  simp only [Option.eq_none_iff_forall_ne_some, ne_eq, termAlias?_eq_some_iff]

theorem DeclaredAs.lt_size (h : u.DeclaredAs s t) : s < u.size :=
  kind_lt_size (by simp [h.1])

theorem declaredAs_unique (u : SymbolTable) : Relator.RightUnique u.DeclaredAs := by
  intro s t t' h h'
  have heq := (termAlias?_eq_some_iff.2 h).symm.trans (termAlias?_eq_some_iff.2 h')
  exact Option.some.inj heq

namespace ResolvesIn

theorem go_eq (h : u.ResolvesIn seen s n e) (hm : n ≤ m) : resolveTerm.go u m seen s = e := by
  induction h generalizing m with
  | met h =>
    cases m with
    | zero => rfl
    | succ m => simp [resolveTerm.go, h]
  | last h hlast =>
    cases m with
    | zero => rfl
    | succ m => simp [resolveTerm.go, h, termAlias?_eq_none_iff.2 hlast]
  | next h hstep _ ih =>
    cases m with
    | zero => omega
    | succ m =>
      simp only [resolveTerm.go, List.contains_eq_mem, h, decide_false, Bool.false_eq_true, if_false,
        termAlias?_eq_some_iff.2 hstep]
      exact ih (by omega)

theorem way (h : u.ResolvesIn seen s n e) : ∃ way, Way u.DeclaredAs way s e ∧ way.Nodup ∧
    (∀ x ∈ way, x ∉ seen) ∧ ((∀ t, ¬u.DeclaredAs e t) ∨ e ∈ seen ∨ e ∈ way) := by
  induction h with
  | @met seen s h => exact ⟨[], .nil s, List.nodup_nil, by simp, .inr (.inl h)⟩
  | @last seen s h hlast => exact ⟨[], .nil s, List.nodup_nil, by simp, .inl hlast⟩
  | @next seen s t e n h hstep _ ih =>
    obtain ⟨way, hway, hnodup, hnew, hend⟩ := ih
    have hnew' (x : SymbolId) (hx : x ∈ way) : x ≠ s ∧ x ∉ seen := by
      simpa using hnew x hx
    refine ⟨s :: way, .cons hstep hway, ?_, ?_, ?_⟩
    · exact List.nodup_cons.2 ⟨fun hs ↦ (hnew' s hs).1 rfl, hnodup⟩
    · intro x hx
      rcases List.mem_cons.1 hx with rfl | hx
      · exact h
      · exact (hnew' x hx).2
    · simp only [List.mem_cons] at hend ⊢
      tauto

theorem length_le (h : u.ResolvesIn seen s n e) (hnodup : seen.Nodup)
    (hseen : ∀ x ∈ seen, x < u.size) : seen.length + n ≤ u.size + if e < u.size then 0 else 1 := by
  induction h with
  | met h => exact Nat.le_add_right_of_le (length_le_of_nodup hnodup hseen)
  | @last seen s h _ =>
    by_cases hs : s < u.size
    · rw [if_pos hs]
      exact length_le_of_nodup (List.nodup_cons.2 ⟨h, hnodup⟩) (List.forall_mem_cons.2 ⟨hs, hseen⟩)
    · rw [if_neg hs]
      exact Nat.succ_le_succ (length_le_of_nodup hnodup hseen)
  | next h hstep _ ih =>
    have hrest := ih (List.nodup_cons.2 ⟨h, hnodup⟩)
      (List.forall_mem_cons.2 ⟨hstep.lt_size, hseen⟩)
    rw [List.length_cons] at hrest
    omega

theorem le_size_add_one (h : u.ResolvesIn [] s n e) : n ≤ u.size + 1 := by
  have hle := h.length_le List.nodup_nil (by simp)
  rw [List.length_nil, Nat.zero_add] at hle
  split at hle <;> omega

end ResolvesIn

theorem WellFormed.lt_size_of_reflTransGen (hu : u.WellFormed) (hs : s < u.size)
    (h : ReflTransGen u.DeclaredAs s t) : t < u.size := by
  induction h with
  | refl => exact hs
  | @tail x t _ hstep _ =>
    obtain ⟨-, q, hb⟩ := hstep
    have hwithin := (hu.within x).types (.single q t) (by simp [SymbolEntry.types, hb])
    exact (Ty.within_single_iff.1 hwithin).1

theorem exists_resolvesIn (hnodup : seen.Nodup) (hseen : ∀ x ∈ seen, x < u.size) (s : SymbolId) :
    ∃ n e, u.ResolvesIn seen s n e := by
  -- A term with a declaration is in the table, so that each turn leaves one symbol fewer unseen.
  induction hk : u.size - seen.length using Nat.strong_induction_on generalizing seen s with
  | h k ih =>
    by_cases hs : s ∈ seen
    · exact ⟨0, s, .met hs⟩
    · by_cases hlast : ∀ t, ¬u.DeclaredAs s t
      · exact ⟨1, s, .last hs hlast⟩
      · obtain ⟨t, ht⟩ := not_forall_not.1 hlast
        have hnodup' : (s :: seen).Nodup := List.nodup_cons.2 ⟨hs, hnodup⟩
        have hseen' : ∀ x ∈ s :: seen, x < u.size := List.forall_mem_cons.2 ⟨ht.lt_size, hseen⟩
        have hlength : seen.length + 1 ≤ u.size := length_le_of_nodup hnodup' hseen'
        obtain ⟨n, e, hrest⟩ := ih _ (by rw [List.length_cons]; omega) hnodup' hseen' t rfl
        exact ⟨n + 1, e, .next hs ht hrest⟩

theorem resolveTerm_go_eq (hn : u.size < n) (s : SymbolId) :
    resolveTerm.go u n [] s = u.resolveTerm s := by
  obtain ⟨k, e, h⟩ := exists_resolvesIn (u := u) List.nodup_nil (by simp) s
  rw [h.go_eq (h.le_size_add_one.trans hn), resolveTerm, h.go_eq h.le_size_add_one]

theorem exists_resolvesIn_resolveTerm (u : SymbolTable) (s : SymbolId) :
    ∃ n, u.ResolvesIn [] s n (u.resolveTerm s) := by
  obtain ⟨n, e, h⟩ := exists_resolvesIn (u := u) List.nodup_nil (by simp) s
  have heq : u.resolveTerm s = e := h.go_eq h.le_size_add_one
  exact ⟨n, heq ▸ h⟩

/-- A term resolves to the first symbol that leads nowhere or lies on a circle. -/
theorem exists_way_resolveTerm (u : SymbolTable) (s : SymbolId) :
    ∃ way, Way u.DeclaredAs way s (u.resolveTerm s) ∧ (∀ x ∈ way, ¬TransGen u.DeclaredAs x x) ∧
      ((∀ t, ¬u.DeclaredAs (u.resolveTerm s) t) ∨
        TransGen u.DeclaredAs (u.resolveTerm s) (u.resolveTerm s)) := by
  obtain ⟨n, h⟩ := u.exists_resolvesIn_resolveTerm s
  obtain ⟨way, hway, hnodup, -, hend⟩ := h.way
  exact hway.exists_end u.declaredAs_unique hnodup (by simpa using hend)

theorem resolveTerm_resolveTerm (u : SymbolTable) (s : SymbolId) :
    u.resolveTerm (u.resolveTerm s) = u.resolveTerm s := by
  obtain ⟨-, -, -, hend⟩ := u.exists_way_resolveTerm s
  obtain ⟨way, hway, hfirst, -⟩ := u.exists_way_resolveTerm (u.resolveTerm s)
  exact (hway.eq_of_end hfirst hend).symm

theorem resolveTerm_last (h : ¬RunsIntoCircle u.DeclaredAs s) :
    ReflTransGen u.DeclaredAs s (u.resolveTerm s) ∧ ∀ t, ¬u.DeclaredAs (u.resolveTerm s) t := by
  obtain ⟨way, hway, -, hend⟩ := u.exists_way_resolveTerm s
  have hreach := hway.reflTransGen
  exact ⟨hreach, hend.resolve_right fun hcircle ↦ h ⟨_, hreach, hcircle⟩⟩

theorem resolveTerm_eq_of_reflTransGen (h : ¬RunsIntoCircle u.DeclaredAs s)
    (ht : ReflTransGen u.DeclaredAs s t) : u.resolveTerm t = u.resolveTerm s := by
  have ht' : ¬RunsIntoCircle u.DeclaredAs t := fun ⟨x, hx, hcircle⟩ ↦ h ⟨x, ht.trans hx, hcircle⟩
  obtain ⟨hs, hlast⟩ := resolveTerm_last h
  obtain ⟨hreach, hlast'⟩ := resolveTerm_last ht'
  exact eq_of_last u.declaredAs_unique (ht.trans hreach) hs hlast' hlast

/-- Resolving a term ends over every table, and after no more turns than there are symbols, save one
more where the chain leaves the table. A term whose chain runs into no circle resolves to the last
symbol of the chain, as does each symbol on it; any other resolves to the first symbol that lies on
the circle; and what a term resolves to resolves to itself. -/
theorem resolveTerm_resolves (u : SymbolTable) (s : SymbolId) :
    (∃ n ≤ u.size + 1, u.ResolvesIn [] s n (u.resolveTerm s) ∧
        ((∀ x, ReflTransGen u.DeclaredAs s x → x < u.size) → n ≤ u.size)) ∧
      (¬RunsIntoCircle u.DeclaredAs s →
        ReflTransGen u.DeclaredAs s (u.resolveTerm s) ∧ (∀ t, ¬u.DeclaredAs (u.resolveTerm s) t) ∧
          ∀ x, ReflTransGen u.DeclaredAs s x → u.resolveTerm x = u.resolveTerm s) ∧
      (RunsIntoCircle u.DeclaredAs s →
        TransGen u.DeclaredAs (u.resolveTerm s) (u.resolveTerm s) ∧ ∃ before,
          Way u.DeclaredAs before s (u.resolveTerm s) ∧ ∀ x ∈ before, ¬TransGen u.DeclaredAs x x) ∧
      u.resolveTerm (u.resolveTerm s) = u.resolveTerm s := by
  obtain ⟨n, hn⟩ := u.exists_resolvesIn_resolveTerm s
  obtain ⟨before, hbefore, hfirst, hend⟩ := u.exists_way_resolveTerm s
  have hreach := hbefore.reflTransGen
  refine ⟨⟨n, hn.le_size_add_one, hn, fun hchain ↦ ?_⟩, fun hacyclic ↦ ?_, fun hcircle ↦ ?_,
    u.resolveTerm_resolveTerm s⟩
  · have hle := hn.length_le List.nodup_nil (by simp)
    rwa [if_pos (hchain _ hreach), List.length_nil, Nat.zero_add] at hle
  · obtain ⟨-, hlast⟩ := resolveTerm_last hacyclic
    exact ⟨hreach, hlast, fun x hx ↦ resolveTerm_eq_of_reflTransGen hacyclic hx⟩
  · refine ⟨hend.resolve_left fun hlast ↦ ?_, before, hbefore, hfirst⟩
    exact not_runsIntoCircle_of_last u.declaredAs_unique hreach hlast hcircle

section Roundabout

/-- The object `Target` with the terms `first`, declared as it, and `second`, declared as `first`; and
a term `ramp` that leads to the terms `left` and `right`, which are declared as each other. -/
def roundabout : SymbolTable :=
  let (target, u) := initial.object 1 "Target"
  let (first, u) := u.term 1 "first" (some (u.single target))
  let (_, u) := u.term 1 "second" (some (u.single first))
  let (left, u) := u.term 1 "left" none
  let (right, u) := u.term 1 "right" (some (u.single left))
  let (_, u) := u.term 1 "ramp" (some (u.single right))
  u.setBody left (u.single right)

theorem Constructible.termAs (hu : u.Constructible) (owner : SymbolId) (name : String)
    (s : SymbolId) (ho : owner < u.size) (hs : s < u.size) :
    (u.term owner name (some (u.single s))).2.Constructible := by
  refine .step hu (.term owner name _ ho fun t ht ↦ ?_)
  exact Option.mem_some.1 ht ▸ hu.wellFormed.single hs

theorem constructible_roundabout : roundabout.Constructible := by
  have htarget := Constructible.step .initial (.object 1 "Target" (by decide))
  have hfirst := htarget.termAs 1 "first" 5 (by decide) (by decide)
  have hsecond := hfirst.termAs 1 "second" 6 (by decide) (by decide)
  have hleft := hsecond.step (.term 1 "left" none (by decide) (by simp))
  have hright := hleft.termAs 1 "right" 8 (by decide) (by decide)
  have hramp := hright.termAs 1 "ramp" 9 (by decide) (by decide)
  exact hramp.step (.setBody 8 _ (by decide) (hramp.wellFormed.single (by decide)))

theorem roundabout_resolves :
    let u := roundabout
    (∀ x, ReflTransGen u.DeclaredAs 10 x → x < u.size) ∧ (∃ n ≤ u.size, u.ResolvesIn [] 10 n 9) ∧
      RunsIntoCircle u.DeclaredAs 10 ∧ TransGen u.DeclaredAs 9 9 ∧
      (∃ before, Way u.DeclaredAs before 10 9 ∧ ∀ x ∈ before, ¬TransGen u.DeclaredAs x x) ∧
      ¬RunsIntoCircle u.DeclaredAs 7 ∧ ∀ x, ReflTransGen u.DeclaredAs 7 x → u.resolveTerm x = 5 := by
  intro u
  have hstep {s t : SymbolId} (h : roundabout.termAlias? s = some t) : u.DeclaredAs s t :=
    termAlias?_eq_some_iff.1 h
  have hchain : ∀ x, ReflTransGen u.DeclaredAs 10 x → x < u.size := fun x hx ↦
    constructible_roundabout.wellFormed.lt_size_of_reflTransGen (by decide) hx
  have hcircle : RunsIntoCircle u.DeclaredAs 10 :=
    ⟨9, .single (hstep (by decide)),
      .head (hstep (t := 8) (by decide)) (.single (hstep (by decide)))⟩
  have hacyclic : ¬RunsIntoCircle u.DeclaredAs 7 :=
    not_runsIntoCircle_of_last u.declaredAs_unique
      (.head (hstep (t := 6) (by decide)) (.single (hstep (t := 5) (by decide))))
      (termAlias?_eq_none_iff.1 (by decide))
  have hramp : u.resolveTerm 10 = 9 := by decide
  have hsecond : u.resolveTerm 7 = 5 := by decide
  obtain ⟨⟨n, -, hn, hle⟩, -, hend, -⟩ := resolveTerm_resolves u 10
  obtain ⟨-, hmembers, -, -⟩ := resolveTerm_resolves u 7
  rw [hramp] at hn hend
  rw [hsecond] at hmembers
  exact ⟨hchain, ⟨n, hle hchain, hn⟩, hcircle, (hend hcircle).1, (hend hcircle).2, hacyclic,
    (hmembers hacyclic).2.2⟩

end Roundabout

end TypeTag.SymbolTable
