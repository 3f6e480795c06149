import TypeTag.Proofs.Descriptor.Grammar
import TypeTag.Proofs.Descriptor.TotalOrder
import TypeTag.Proofs.Tags.Ordered

namespace TypeTag

namespace Descriptor

/-- An intersection has no intersection directly inside. -/
def Flat : Descriptor → Prop
  | intersection ps => ∀ p ∈ ps, p.isIntersection = false
  | _ => True

/-- The operands `ps` are made of `xs` by intersecting some neighbours first, in groups of any
length and at any depth. -/
inductive Regrouping : List Descriptor → List Descriptor → Prop
  | nil : Regrouping [] []
  | part {xs ps : List Descriptor} (x : Descriptor) (h : Regrouping xs ps) :
    Regrouping (x :: xs) (x :: ps)
  | group {xs ps ys qs : List Descriptor} (hgroup : Regrouping ys qs) (h : Regrouping xs ps) :
    Regrouping (ys ++ xs) (intersect qs :: ps)

variable {d : Descriptor} {xs ys ps : List Descriptor}

theorem opened_eq_singleton (h : d.isIntersection = false) : d.opened = [d] := by
  cases d with
  | intersection ps => cases h
  | _ => rfl

theorem flat_iff : d.Flat ↔ ∀ p ∈ d.opened, p.isIntersection = false := by
  cases d with
  | intersection ps => rfl
  | _ => simp [Flat, opened, isIntersection]

/-- What is intersected opens to the parts of its operands, in order. This is where nesting would
show: a lone part that is an intersection would be opened once more. -/
theorem opened_intersect (hxs : ∀ x ∈ xs, x.Flat) :
    (intersect xs).opened = SortedSet.ofList (xs.flatMap opened) := by
  rw [intersect_eq]
  split
  · next d heq =>
    have hd : d ∈ xs.flatMap opened :=
      SortedSet.mem_ofList_iff.1 (heq ▸ List.mem_singleton_self d)
    obtain ⟨x, hx, hd⟩ := List.mem_flatMap.1 hd
    rw [heq, opened_eq_singleton (flat_iff.1 (hxs x hx) d hd)]
  · rfl

theorem mem_opened_intersect_iff (hxs : ∀ x ∈ xs, x.Flat) :
    d ∈ (intersect xs).opened ↔ d ∈ xs.flatMap opened := by
  rw [opened_intersect hxs, SortedSet.mem_ofList_iff]

theorem flat_intersect (hxs : ∀ x ∈ xs, x.Flat) : (intersect xs).Flat := by
  refine flat_iff.2 fun p hp ↦ ?_
  obtain ⟨x, hx, hp⟩ := List.mem_flatMap.1 ((mem_opened_intersect_iff hxs).1 hp)
  exact flat_iff.1 (hxs x hx) p hp

theorem intersect_congr_opened (h : ∀ d, d ∈ xs.flatMap opened ↔ d ∈ ys.flatMap opened) :
    intersect xs = intersect ys := by
  rw [intersect_eq, intersect_eq, SortedSet.ofList_eq_iff.2 h]

theorem intersect_eq_intersection (hxs : ∀ x ∈ xs, x.Flat) (h : intersect xs = intersection ps) :
    ps.length ≠ 1 ∧ ∀ p ∈ ps, p.isIntersection = false := by
  have hflat := flat_intersect hxs
  rw [h] at hflat
  refine ⟨?_, hflat⟩
  obtain ⟨ds, hds, hlone | ⟨hlen, heq⟩⟩ := intersect_parts xs
  · obtain ⟨x, hx, hpart⟩ := (hds (intersect xs)).1 (hlone ▸ List.mem_singleton_self _)
    have hnot := flat_iff.1 (hxs x hx) _ hpart
    rw [h] at hnot
    cases hnot
  · rw [h] at heq
    cases heq
    exact hlen

theorem Regrouping.refl : ∀ xs, Regrouping xs xs
  | [] => .nil
  | x :: xs => .part x (refl xs)

theorem Regrouping.opened (h : Regrouping xs ps) (hxs : ∀ x ∈ xs, x.Flat) :
    (∀ p ∈ ps, p.Flat) ∧ ∀ d, d ∈ ps.flatMap opened ↔ d ∈ xs.flatMap opened := by
  induction h with
  | nil => exact ⟨hxs, fun d ↦ .rfl⟩
  | part x _ ih =>
    obtain ⟨hx, hxs⟩ := List.forall_mem_cons.1 hxs
    obtain ⟨hflat, hopened⟩ := ih hxs
    refine ⟨List.forall_mem_cons.2 ⟨hx, hflat⟩, fun d ↦ ?_⟩
    rw [List.flatMap_cons, List.flatMap_cons, List.mem_append, List.mem_append, hopened]
  | group _ _ ihgroup ih =>
    obtain ⟨hys, hxs⟩ := List.forall_mem_append.1 hxs
    obtain ⟨hgroup, hmembers⟩ := ihgroup hys
    obtain ⟨hflat, hopened⟩ := ih hxs
    refine ⟨List.forall_mem_cons.2 ⟨flat_intersect hgroup, hflat⟩, fun d ↦ ?_⟩
    rw [List.flatMap_cons, List.mem_append, mem_opened_intersect_iff hgroup, hmembers, hopened,
      List.flatMap_append, List.mem_append]

/-- For operands without nesting: intersecting some of them first makes no difference, nor do
permuting, repeating and regrouping them, and the parts of the result are the parts of the operands,
never one alone and never an intersection. -/
theorem intersect_flattens (hxs : ∀ x ∈ xs, x.Flat) (hys : ∀ y ∈ ys, y.Flat) :
    intersect (xs ++ [intersect ys]) = intersect (xs ++ ys) ∧
      (∀ zs ps, (∀ d, d ∈ zs ↔ d ∈ xs) → Regrouping zs ps → intersect ps = intersect xs) ∧
      (∀ d, d ∈ (intersect xs).opened ↔ ∃ x ∈ xs, d ∈ x.opened) ∧
      ∀ ps, intersect xs = intersection ps → ps.length ≠ 1 ∧ ∀ p ∈ ps, p.isIntersection = false := by
  refine ⟨intersect_congr_opened fun d ↦ ?_, fun zs ps hsame hregrouped ↦ ?_,
    fun d ↦ ?_, fun ps ↦ intersect_eq_intersection hxs⟩
  · rw [List.flatMap_append, List.flatMap_append, List.mem_append, List.mem_append,
      List.flatMap_singleton, mem_opened_intersect_iff hys]
  · have hzs : ∀ z ∈ zs, z.Flat := fun z hz ↦ hxs z ((hsame z).1 hz)
    refine intersect_congr_opened fun d ↦ ?_
    rw [(hregrouped.opened hzs).2]
    simp only [List.mem_flatMap, hsame]
  · rw [mem_opened_intersect_iff hxs, List.mem_flatMap]

theorem intersect_flattens_pair :
    (∀ x ∈ [intersection [typeName "A", typeName "B"], typeName "B"], x.Flat) ∧
      (∀ y ∈ [intersection [typeName "A"]], y.Flat) ∧
      intersect ([intersection [typeName "A", typeName "B"], typeName "B"] ++
        [intersect [intersection [typeName "A"]]]) =
      intersect ([intersection [typeName "A", typeName "B"], typeName "B"] ++
        [intersection [typeName "A"]]) ∧
      intersect [typeName "B", intersection [typeName "A", typeName "B"], typeName "B"] =
        intersect [intersection [typeName "A", typeName "B"], typeName "B"] := by
  have hxs : ∀ x ∈ [intersection [typeName "A", typeName "B"], typeName "B"], x.Flat := by
    simp [Flat, typeName, isIntersection]
  have hys : ∀ y ∈ [intersection [typeName "A"]], y.Flat := by
    simp [Flat, typeName, isIntersection]
  obtain ⟨hadded, hregrouped, -⟩ := intersect_flattens hxs hys
  refine ⟨hxs, hys, hadded, hregrouped _ _ (fun d ↦ ?_) (.refl _)⟩
  simp only [List.mem_cons, List.not_mem_nil, or_false]
  rw [or_left_comm, or_self]

end Descriptor

end TypeTag
