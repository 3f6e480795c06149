import Mathlib.Data.Set.Card
import Mathlib.Logic.Relation

namespace TypeTag

open Relation

variable {α : Type} {R : α → α → Prop} {S : Set α} {a : α}

theorem ncard_diff_lt (hS : S.Finite) {T U : Set α} (h : T ⊆ U) (ha : a ∈ S) (hT : a ∉ T)
    (hU : a ∈ U) : (S \ U).ncard < (S \ T).ncard := by
  refine Set.ncard_lt_ncard ?_ hS.sdiff
  refine (Set.ssubset_iff_of_subset (Set.sdiff_subset_sdiff_right h)).2 ⟨a, ⟨ha, hT⟩, fun hmem ↦ ?_⟩
  exact hmem.2 hU

/-- From an element that comes to finitely many, a relation goes on for ever only into a circle. -/
theorem acc_of_acyclic (hS : S.Finite) (hR : ∀ b c, ReflTransGen R a b → R b c → b ∈ S)
    (h : ∀ b, ReflTransGen R a b → ¬TransGen R b b) : Acc (fun b a ↦ R a b) a := by
  -- The measure is the elements of `S` that are still ahead: after the step to `b`, `b` is none.
  induction hk : (S \ {c | ¬TransGen R a c}).ncard using Nat.strong_induction_on generalizing a with
  | h k ih =>
    refine Acc.intro a fun b hb ↦ ?_
    by_cases hbS : b ∈ S
    · refine ih _ (hk ▸ ncard_diff_lt hS (fun c hc hbc ↦ hc (hbc.head hb)) hbS ?_ ?_)
        (fun c d hc ↦ hR c d (.head hb hc)) (fun c hc ↦ h c (.head hb hc)) rfl
      · exact not_not_intro (.single hb)
      · exact h b (.single hb)
    · exact Acc.intro b fun c hc ↦ absurd (hR b c (.single hb) hc) hbS

theorem not_transGen_self_of_acc (h : Acc (fun b a ↦ R a b) a) {b : α} (hb : ReflTransGen R a b) :
    ¬TransGen R b b := by
  induction h generalizing b with
  | intro a _ ih =>
    intro hcircle
    rcases hb.cases_head with rfl | ⟨c, hc, hb⟩
    · obtain ⟨c, hc, hback⟩ := TransGen.head'_iff.1 hcircle
      exact ih c hc .refl (.tail' hback hc)
    · exact ih c hc hb hcircle

end TypeTag
