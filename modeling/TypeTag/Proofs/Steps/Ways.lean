import Mathlib.Data.List.Nodup
import Mathlib.Logic.Relation

namespace TypeTag

open Relation

variable {α : Type} {R : α → α → Prop} {a b c x y : α} {way later : List α}

/-- Steps lead from `a` to `b` by way of the elements listed, of which `a` is the first. -/
inductive Way (R : α → α → Prop) : List α → α → α → Prop
  | nil (a : α) : Way R [] a a
  | cons {a b c : α} {way : List α} (h : R a b) (rest : Way R way b c) : Way R (a :: way) a c

def RunsIntoCircle (R : α → α → Prop) (a : α) : Prop :=
  ∃ b, ReflTransGen R a b ∧ TransGen R b b

namespace Way

theorem reflTransGen (h : Way R way a b) : ReflTransGen R a b := by
  induction h with
  | nil a => exact .refl
  | cons hstep _ ih => exact .head hstep ih

theorem cons_iff : Way R (x :: way) a c ↔ x = a ∧ ∃ b, R a b ∧ Way R way b c := by
  constructor
  · intro h
    cases h with
    | cons hstep rest => exact ⟨rfl, _, hstep, rest⟩
  · rintro ⟨rfl, b, hstep, rest⟩
    exact .cons hstep rest

theorem split (h : Way R (way ++ x :: later) a b) : Way R way a x ∧ Way R (x :: later) x b := by
  induction way generalizing a with
  | nil =>
    obtain ⟨rfl, -⟩ := cons_iff.1 h
    exact ⟨.nil x, h⟩
  | cons y way ih =>
    obtain ⟨rfl, c, hstep, rest⟩ := cons_iff.1 h
    obtain ⟨hway, hlater⟩ := ih rest
    exact ⟨.cons hstep hway, hlater⟩

theorem exists_step (h : Way R way a b) (hx : x ∈ way) : ∃ y, R x y := by
  obtain ⟨before, later, rfl⟩ := List.append_of_mem hx
  obtain ⟨-, y, hstep, -⟩ := cons_iff.1 h.split.2
  exact ⟨y, hstep⟩

end Way

section RightUnique

variable (hR : Relator.RightUnique R)

include hR

theorem returns_of_circle (ha : TransGen R a a) (h : ReflTransGen R a b) : ReflTransGen R b a := by
  induction h with
  | refl => exact .refl
  | @tail c b _ hstep ih =>
    rcases ih.cases_head with rfl | ⟨d, hd, hback⟩
    · obtain ⟨d, hd, hback⟩ := TransGen.head'_iff.1 ha
      exact hR hstep hd ▸ hback
    · exact hR hstep hd ▸ hback

theorem circle_of_reachable (ha : TransGen R a a) (h : ReflTransGen R a b) : TransGen R b b :=
  .trans_left (.trans_right (returns_of_circle hR ha h) ha) h

theorem eq_of_last (hb : ReflTransGen R a b) (hc : ReflTransGen R a c) (hlast : ∀ x, ¬R b x)
    (hlast' : ∀ x, ¬R c x) : b = c := by
  rcases ReflTransGen.total_of_right_unique hR hb hc with h | h
  · exact ((reflTransGen_iff_eq hlast).1 h).symm
  · exact (reflTransGen_iff_eq hlast').1 h

theorem not_runsIntoCircle_of_last (hb : ReflTransGen R a b) (hlast : ∀ x, ¬R b x) :
    ¬RunsIntoCircle R a := by
  rintro ⟨c, hc, hcircle⟩
  have hleaves : ∃ y, TransGen R b y := by
    rcases ReflTransGen.total_of_right_unique hR hb hc with h | h
    · exact ⟨c, .trans_right h hcircle⟩
    · exact ⟨b, circle_of_reachable hR hcircle h⟩
  obtain ⟨y, hy⟩ := hleaves
  obtain ⟨x, hx, -⟩ := TransGen.head'_iff.1 hy
  exact hlast x hx

namespace Way

theorem mem_of_step (h : Way R way a b) (hx : x ∈ way) (hstep : R x y) : y ∈ way ∨ y = b := by
  induction h with
  | nil a => cases hx
  | @cons a c b way ha rest ih =>
    rcases List.mem_cons.1 hx with rfl | hx
    · obtain rfl := hR hstep ha
      cases rest with
      | nil => exact .inr rfl
      | cons _ _ => exact .inl (List.mem_cons_of_mem _ List.mem_cons_self)
    · exact (ih hx).imp_left (List.mem_cons_of_mem a)

theorem mem_of_reachable (h : Way R way a b) (hend : (∀ x, ¬R b x) ∨ b ∈ way)
    (hx : ReflTransGen R a x) : x ∈ way ∨ x = b := by
  induction hx with
  | refl =>
    cases h with
    | nil => exact .inr rfl
    | cons _ _ => exact .inl List.mem_cons_self
  | @tail y x _ hstep ih =>
    have hmem : y ∈ way := by
      rcases ih with hy | rfl
      · exact hy
      · exact hend.resolve_left fun hlast ↦ hlast x hstep
    exact h.mem_of_step hR hmem hstep

/-- Where a way without repetition ends at an element that it has passed, this is the first on it
that lies on a circle. -/
theorem exists_first (h : Way R way a b) (hway : way.Nodup) (hb : b ∈ way) :
    TransGen R b b ∧ ∃ before, Way R before a b ∧ ∀ x ∈ before, ¬TransGen R x x := by
  obtain ⟨before, later, rfl⟩ := List.append_of_mem hb
  obtain ⟨hbefore, hcircle⟩ := h.split
  have hback : TransGen R b b := by
    obtain ⟨-, c, hstep, rest⟩ := cons_iff.1 hcircle
    exact .head' hstep rest.reflTransGen
  refine ⟨hback, before, hbefore, fun x hx hself ↦ ?_⟩
  -- what comes back to itself before `b` comes back by way of `b`, and so is passed twice
  obtain ⟨first, middle, rfl⟩ := List.append_of_mem hx
  have hbx := returns_of_circle hR hself hbefore.split.2.reflTransGen
  have hmem : x ∈ b :: later := by
    rcases hcircle.mem_of_reachable hR (.inr List.mem_cons_self) hbx with hmem | rfl
    · exact hmem
    · exact List.mem_cons_self
  exact (List.nodup_append.1 hway).2.2 x hx x hmem rfl

/-- Where a way without repetition ends at an element that leads nowhere or that it has passed, this
is the first of those that lead nowhere or lie on a circle. -/
theorem exists_end (h : Way R way a b) (hway : way.Nodup) (hend : (∀ x, ¬R b x) ∨ b ∈ way) :
    ∃ before, Way R before a b ∧ (∀ x ∈ before, ¬TransGen R x x) ∧
      ((∀ x, ¬R b x) ∨ TransGen R b b) := by
  rcases hend with hlast | hmem
  · refine ⟨way, h, fun x hx hcircle ↦ ?_, .inl hlast⟩
    obtain ⟨first, rest, rfl⟩ := List.append_of_mem hx
    exact not_runsIntoCircle_of_last hR h.split.2.reflTransGen hlast ⟨x, .refl, hcircle⟩
  · obtain ⟨hcircle, before, hbefore, hfirst⟩ := h.exists_first hR hway hmem
    exact ⟨before, hbefore, hfirst, .inr hcircle⟩

end Way

end RightUnique

theorem Way.eq_of_end (h : Way R way a b) (hway : ∀ x ∈ way, ¬TransGen R x x)
    (hend : (∀ x, ¬R a x) ∨ TransGen R a a) : a = b := by
  cases h with
  | nil => rfl
  | @cons _ c _ way hstep _ =>
    rcases hend with hlast | hcircle
    · exact absurd hstep (hlast c)
    · exact absurd hcircle (hway a List.mem_cons_self)

end TypeTag
