import TypeTag.Proofs.Builds.Trails
import TypeTag.Proofs.Steps.Descent
import TypeTag.Proofs.SymbolTable.Exploration

namespace TypeTag

open Relation
open Stepped (Keeps)

/-- Visits a type: unless it has been seen, it is added to what has, and then all that comes next
after it is visited. Visits nest at most `n` deep. -/
def visit (next : Ty → Option (List Ty)) (n : Nat) (seen : List Ty) (t : Ty) : Option (List Ty) :=
  if t ∈ seen then some seen
  else match n with
    | 0 => none
    | n + 1 => do (← next t).foldlM (visit next n) (seen ++ [t])

def visitAll (next : Ty → Option (List Ty)) (n : Nat) (seen ts : List Ty) : Option (List Ty) :=
  ts.foldlM (visit next n) seen

section Visit

variable {next : Ty → Option (List Ty)} {n m : Nat} {seen seen' known ts rest found : List Ty} {t : Ty}

theorem visit_of_mem (h : t ∈ seen) : visit next n seen t = some seen := by
  unfold visit
  rw [if_pos h]

theorem visit_succ (h : t ∉ seen) :
    visit next (n + 1) seen t = next t >>= visitAll next n (seen ++ [t]) := by
  rw [visit, if_neg h]
  rfl

theorem visitAll_cons :
    visitAll next n seen (t :: ts) = visit next n seen t >>= (visitAll next n · ts) :=
  List.foldlM_cons

theorem visitAll_append :
    visitAll next n seen (ts ++ rest) = visitAll next n seen ts >>= (visitAll next n · rest) :=
  List.foldlM_append

theorem visit_cases (h : visit next n seen t = some seen') : t ∈ seen ∧ seen' = seen ∨
    t ∉ seen ∧ ∃ m found, n = m + 1 ∧ next t = some found ∧
      visitAll next m (seen ++ [t]) found = some seen' := by
  by_cases ht : t ∈ seen
  · rw [visit_of_mem ht] at h
    exact .inl ⟨ht, (Option.some.inj h).symm⟩
  · cases n with
    | zero =>
      rw [visit, if_neg ht] at h
      cases h
    | succ n =>
      rw [visit_succ ht] at h
      obtain ⟨found, hfound, h⟩ := Option.bind_eq_some_iff.1 h
      exact .inr ⟨ht, n, found, rfl, hfound, h⟩

theorem visitAll_induction {P : List Ty → List Ty → Prop} (hrefl : ∀ s, P s s)
    (htrans : ∀ {a b c}, P a b → P b c → P a c)
    (hvisit : ∀ {s s' : List Ty} {t}, t ∈ ts → visit next n s t = some s' → P s s')
    (h : visitAll next n seen ts = some seen') : P seen seen' := by
  induction ts generalizing seen with
  | nil =>
    cases h
    exact hrefl _
  | cons t ts ih =>
    rw [visitAll_cons] at h
    obtain ⟨mid, hmid, h⟩ := Option.bind_eq_some_iff.1 h
    exact htrans (hvisit List.mem_cons_self hmid)
      (ih (fun ht ↦ hvisit (List.mem_cons_of_mem _ ht)) h)

theorem visit_induction {P : List Ty → List Ty → Prop} (hrefl : ∀ s, P s s)
    (htrans : ∀ {a b c}, P a b → P b c → P a c) (hadd : ∀ {s t}, t ∉ s → P s (s ++ [t]))
    (h : visit next n seen t = some seen') : P seen seen' := by
  induction n generalizing seen seen' t with
  | zero =>
    rcases visit_cases h with ⟨-, rfl⟩ | ⟨-, _, _, hn, -⟩
    · exact hrefl _
    · cases hn
  | succ n ih =>
    rcases visit_cases h with ⟨-, rfl⟩ | ⟨ht, _, found, hn, -, h⟩
    · exact hrefl _
    · cases hn
      exact htrans (hadd ht) (visitAll_induction hrefl htrans (fun _ h ↦ ih h) h)

theorem prefix_of_visit (h : visit next n seen t = some seen') : seen <+: seen' :=
  visit_induction (P := (· <+: ·)) List.prefix_refl List.IsPrefix.trans
    (fun _ ↦ List.prefix_append _ _) h

theorem prefix_of_visitAll (h : visitAll next n seen ts = some seen') : seen <+: seen' :=
  visitAll_induction (P := (· <+: ·)) List.prefix_refl List.IsPrefix.trans
    (fun _ h ↦ prefix_of_visit h) h

theorem nodup_of_visit (h : visit next n seen t = some seen') (hseen : seen.Nodup) : seen'.Nodup :=
  visit_induction (P := fun s s' ↦ s.Nodup → s'.Nodup) (fun _ ↦ id) (fun h h' ↦ h' ∘ h)
    (fun {s t} ht hs ↦ List.nodup_append.2 ⟨hs, by simp, by grind⟩) h hseen

theorem visitAll_filter (hknown : known ⊆ seen) :
    visitAll next n seen (ts.filter (· ∉ known)) = visitAll next n seen ts := by
  induction ts generalizing seen with
  | nil => rfl
  | cons t ts ih =>
    by_cases ht : t ∈ known
    · rw [List.filter_cons_of_neg (by simpa using ht), ih hknown, visitAll_cons,
        visit_of_mem (hknown ht)]
      rfl
    · rw [List.filter_cons_of_pos (by simpa using ht), visitAll_cons, visitAll_cons]
      cases hmid : visit next n seen t with
      | none => rfl
      | some mid => exact ih fun x hx ↦ (prefix_of_visit hmid).subset (hknown hx)

end Visit

section Keep

variable {next next' : Ty → Option (List Ty)} {n m : Nat}

theorem visitAll_keeps (h : ∀ seen t, Keeps (visit next n seen t) (visit next' m seen t))
    (seen ts : List Ty) : Keeps (visitAll next n seen ts) (visitAll next' m seen ts) := by
  induction ts generalizing seen with
  | nil => exact .refl _
  | cons t ts ih =>
    rw [visitAll_cons, visitAll_cons]
    exact (h seen t).bind ih

theorem visit_keeps (hnext : ∀ t, Keeps (next t) (next' t)) (h : n ≤ m) (seen : List Ty) (t : Ty) :
    Keeps (visit next n seen t) (visit next' m seen t) := by
  induction n generalizing m seen t with
  | zero =>
    by_cases ht : t ∈ seen
    · rw [visit_of_mem ht, visit_of_mem ht]
      exact .refl _
    · rw [visit, if_neg ht]
      exact .none _
  | succ n ih =>
    obtain ⟨m, rfl⟩ : ∃ k, m = k + 1 := ⟨m - 1, by omega⟩
    by_cases ht : t ∈ seen
    · rw [visit_of_mem ht, visit_of_mem ht]
      exact .refl _
    · rw [visit_succ ht, visit_succ ht]
      exact (hnext t).bind (visitAll_keeps (ih (by omega)) (seen ++ [t]))

end Keep

section Ends

variable {next : Ty → Option (List Ty)} {n : Nat} {seen ts : List Ty} {t : Ty} {S : Set Ty}

theorem exists_visitAll (hvisit : ∀ {seen' t}, t ∈ ts → seen <+: seen' →
    ∃ s, visit next n seen' t = some s) : ∃ s, visitAll next n seen ts = some s := by
  induction ts generalizing seen with
  | nil => exact ⟨seen, rfl⟩
  | cons t ts ih =>
    obtain ⟨mid, hmid⟩ := hvisit List.mem_cons_self List.prefix_rfl
    obtain ⟨s, hs⟩ := ih fun ht h ↦ hvisit (List.mem_cons_of_mem _ ht) ((prefix_of_visit hmid).trans h)
    exact ⟨s, by rw [visitAll_cons, hmid]; exact hs⟩

/-- A visit ends if all that comes next stays among finitely many types. -/
theorem exists_visit (hS : S.Finite)
    (hnext : ∀ t ∈ S, ∃ found, next t = some found ∧ ∀ x ∈ found, x ∈ S) (ht : t ∈ S)
    (hn : (S \ {x | x ∈ seen}).ncard ≤ n) : ∃ s, visit next n seen t = some s := by
  induction n generalizing seen t with
  | zero =>
    have hempty := (Set.ncard_eq_zero hS.sdiff).1 (Nat.le_zero.1 hn)
    exact ⟨seen, visit_of_mem (Set.sdiff_eq_empty.1 hempty ht)⟩
  | succ n ih =>
    by_cases hseen : t ∈ seen
    · exact ⟨seen, visit_of_mem hseen⟩
    · obtain ⟨found, hfound, hsub⟩ := hnext t ht
      rw [visit_succ hseen, hfound]
      refine exists_visitAll fun {seen' x} hx hmore ↦ ih (hsub x hx) ?_
      -- Siblings visited before `x` only add to what is seen, and `t` itself was not seen before.
      have hlt := ncard_diff_lt (T := {x | x ∈ seen}) (U := {x | x ∈ seen'}) hS
        (fun x hx ↦ hmore.subset (List.mem_append_left _ hx)) ht hseen (hmore.subset (by simp))
      omega

end Ends

section Explore

variable {next : Ty → Option (List Ty)} {n m : Nat} {seen mid ts stack rest found : List Ty} {t : Ty}

theorem explore_nil : explore next n [] (seen.map Ty.measured) = some seen := by
  have htypes : (seen.map Ty.measured).map (·.type) = seen := by
    rw [List.map_map]
    exact List.map_id seen
  rw [explore, htypes]

theorem explore_cons_of_mem (h : t ∈ seen) :
    explore next (n + 1) ((t :: stack).map Ty.measured) (seen.map Ty.measured) =
      explore next n (stack.map Ty.measured) (seen.map Ty.measured) := by
  rw [List.map_cons, explore, if_pos (by simpa using h)]

theorem explore_cons_of_not_mem (h : t ∉ seen) (hfound : next t = some found) :
    explore next (n + 1) ((t :: stack).map Ty.measured) (seen.map Ty.measured) =
      explore next n ((found.filter (· ∉ seen ++ [t]) ++ stack).map Ty.measured)
        ((seen ++ [t]).map Ty.measured) := by
  have hfilter : (found.map Ty.measured).filter
      (!((seen ++ [t]).map Ty.measured).contains ·) =
        (found.filter (· ∉ seen ++ [t])).map Ty.measured := by
    rw [List.filter_map]
    congr 2
    funext x
    simp
  rw [List.map_cons, explore, if_neg (by simpa using h)]
  change next t >>= _ = _
  rw [hfound, List.map_append, ← hfilter, List.map_append]
  rfl

theorem visitAll_of_explore
    (h : explore next n (stack.map Ty.measured) (seen.map Ty.measured) = some ts) :
    visitAll next n seen stack = some ts := by
  induction n generalizing stack seen with
  | zero =>
    cases stack with
    | nil => exact explore_nil.symm.trans h
    | cons t stack => cases h
  | succ n ih =>
    cases stack with
    | nil => exact explore_nil.symm.trans h
    | cons t stack =>
      have hsucc (seen t : _) := visit_keeps (fun t ↦ .refl (next t)) (Nat.le_succ n) seen t
      rw [visitAll_cons]
      by_cases ht : t ∈ seen
      · rw [explore_cons_of_mem ht] at h
        rw [visit_of_mem ht]
        exact visitAll_keeps hsucc _ _ _ (ih h)
      · cases hfound : next t with
        | none =>
          rw [List.map_cons, explore, if_neg (by simpa using ht)] at h
          change next t >>= _ = _ at h
          rw [hfound] at h
          cases h
        | some found =>
          rw [explore_cons_of_not_mem ht hfound] at h
          obtain ⟨mid, hmid, hrest⟩ := Option.bind_eq_some_iff.1 (visitAll_append.symm.trans (ih h))
          rw [visitAll_filter (List.Subset.refl _)] at hmid
          rw [visit_succ ht, hfound]
          exact Option.bind_eq_some_iff.2 ⟨mid, hmid, visitAll_keeps hsucc _ _ _ hrest⟩

/-- From the types seen after `ts` have been visited, the search of a stack comes to its end, and so
does the one that has `ts` on the stack still. -/
theorem exists_explore_append (hall : visitAll next m seen ts = some mid)
    (hcons : ∀ {n seen mid rest t}, visit next m seen t = some mid →
      explore next n (rest.map Ty.measured) (mid.map Ty.measured) = some found →
      ∃ k, explore next k ((t :: rest).map Ty.measured) (seen.map Ty.measured) = some found)
    (h : explore next n (rest.map Ty.measured) (mid.map Ty.measured) = some found) :
    ∃ k, explore next k ((ts ++ rest).map Ty.measured) (seen.map Ty.measured) = some found := by
  induction ts generalizing seen with
  | nil =>
    cases hall
    exact ⟨n, h⟩
  | cons t ts ih =>
    rw [visitAll_cons] at hall
    obtain ⟨mid', hmid', hall⟩ := Option.bind_eq_some_iff.1 hall
    obtain ⟨k, hk⟩ := ih hall
    exact hcons hmid' hk

theorem exists_explore_cons (hvisit : visit next m seen t = some mid)
    (h : explore next n (rest.map Ty.measured) (mid.map Ty.measured) = some ts) :
    ∃ k, explore next k ((t :: rest).map Ty.measured) (seen.map Ty.measured) = some ts := by
  induction m generalizing n seen mid t rest with
  | zero =>
    rcases visit_cases hvisit with ⟨ht, rfl⟩ | ⟨-, _, _, hm, -⟩
    · exact ⟨n + 1, (explore_cons_of_mem ht).trans h⟩
    · cases hm
  | succ m ih =>
    rcases visit_cases hvisit with ⟨ht, rfl⟩ | ⟨ht, _, found, hm, hfound, hall⟩
    · exact ⟨n + 1, (explore_cons_of_mem ht).trans h⟩
    · cases hm
      rw [← visitAll_filter (List.Subset.refl _)] at hall
      obtain ⟨k, hk⟩ := exists_explore_append hall ih h
      exact ⟨k + 1, (explore_cons_of_not_mem ht hfound).trans hk⟩

theorem visitAll_singleton {seen : List Ty} : visitAll next n seen [t] = visit next n seen t := by
  rw [visitAll_cons]
  exact bind_pure _

/-- A search ends if and only if the visits of what is on its stack do, with the same types. -/
theorem explore_iff_visitAll :
    (∃ n, explore next n (stack.map Ty.measured) (seen.map Ty.measured) = some ts) ↔
      ∃ n, visitAll next n seen stack = some ts := by
  refine ⟨fun ⟨n, h⟩ ↦ ⟨n, visitAll_of_explore h⟩, fun ⟨n, h⟩ ↦ ?_⟩
  have hend : explore next 0 (([] : List Ty).map Ty.measured) (ts.map Ty.measured) = some ts :=
    explore_nil
  simpa using exists_explore_append h exists_explore_cons hend

end Explore

namespace SymbolTable

variable (u : SymbolTable)

def Dealiased (t d : Ty) : Prop :=
  ∃ n, u.dealias n t = some d

def HasArg (t a : Ty) : Prop :=
  a ∈ t.args ∨ (∃ d, u.Dealiased t d ∧ a ∈ d.resultType.args) ∨
    u.typeParams t ≠ [] ∧ (∀ s ∈ a.symbol?, s ∉ u.typeParams t) ∧
      ∃ e, u.Dealiased (u.etaExpand t).resultType e ∧ a ∈ e.args

def HasBound (a x : Ty) : Prop :=
  ∃ d, u.Dealiased a d ∧ x ∈ u.boundTypes d.resultType

def ComesNext (t x : Ty) : Prop :=
  (∃ d, u.Dealiased t d ∧ (x = d.resultType ∨ x ∈ d.resultType.parents)) ∨
    ∃ a, u.HasArg t a ∧ (x = a ∨ u.HasBound a x)

variable {u} {n : Nat} {t a x d root : Ty} {found ts : List Ty}

theorem dealiased_iff (hd : u.dealias n t = some d) {e : Ty} : u.Dealiased t e ↔ e = d := by
  refine ⟨fun ⟨m, he⟩ ↦ dealias_unique he hd, ?_⟩
  rintro rfl
  exact ⟨n, hd⟩

theorem mem_expansionArgs_iff (h : u.expansionArgs n t = some found) : a ∈ found ↔
    u.typeParams t ≠ [] ∧ (∀ s ∈ a.symbol?, s ∉ u.typeParams t) ∧
      ∃ e, u.Dealiased (u.etaExpand t).resultType e ∧ a ∈ e.args := by
  unfold expansionArgs at h
  dsimp only at h
  split at h
  · next hempty =>
    cases h
    simp [List.isEmpty_iff.1 hempty]
  · next hempty =>
    obtain ⟨e, he, h⟩ := Option.bind_eq_some_iff.1 h
    cases h
    have hne : u.typeParams t ≠ [] := fun heq ↦ hempty (List.isEmpty_iff.2 heq)
    simp only [List.mem_filter, dealiased_iff he, exists_eq_left, ne_eq, hne, not_false_eq_true,
      true_and]
    cases a.symbol? <;> simp [and_comm]

theorem withBounds_eq (hd : u.dealias n a = some d) :
    u.withBounds n a = some (a :: u.boundTypes d.resultType) := by
  unfold withBounds boundTypes
  rw [hd]
  simp only [Option.bind_eq_bind, Option.bind_some]
  cases d.resultType.symbol?.map u.signature with
  | none => rfl
  | some s => cases s <;> rfl

theorem withBounds_eq_some (h : u.withBounds n a = some found) :
    ∃ d, u.dealias n a = some d ∧ found = a :: u.boundTypes d.resultType := by
  cases hd : u.dealias n a with
  | none =>
    unfold withBounds at h
    rw [hd] at h
    cases h
  | some d => exact ⟨d, rfl, Option.some.inj (h.symm.trans (withBounds_eq hd))⟩

theorem mem_successors_iff (h : u.successors n t = some found) : x ∈ found ↔ u.ComesNext t x := by
  obtain ⟨d, hd, h⟩ := Option.bind_eq_some_iff.1 h
  obtain ⟨own, hown, h⟩ := Option.bind_eq_some_iff.1 h
  obtain ⟨bounded, hbounded, h⟩ := Option.bind_eq_some_iff.1 h
  cases h
  have hargs {a : Ty} : a ∈ t.args ++ d.resultType.args ++ own ↔ u.HasArg t a := by
    simp only [HasArg, List.mem_append, dealiased_iff hd, exists_eq_left, mem_expansionArgs_iff hown,
      or_assoc]
  have hlists : x ∈ bounded.flatten ↔ ∃ a, u.HasArg t a ∧ (x = a ∨ u.HasBound a x) := by
    constructor
    · intro hx
      obtain ⟨l, hl, hx⟩ := List.mem_flatten.1 hx
      obtain ⟨a, ha, hl⟩ := mem_mapM hbounded hl
      obtain ⟨e, he, rfl⟩ := withBounds_eq_some hl
      exact ⟨a, hargs.1 ha, (List.mem_cons.1 hx).imp_right fun hx ↦ ⟨e, ⟨n, he⟩, hx⟩⟩
    · rintro ⟨a, ha, hx⟩
      obtain ⟨l, hl, hal⟩ := mapM_mem hbounded (hargs.2 ha)
      obtain ⟨e, he, rfl⟩ := withBounds_eq_some hal
      refine List.mem_flatten.2 ⟨_, hl, List.mem_cons.2 (hx.imp_right ?_)⟩
      rintro ⟨d, hd, hx⟩
      exact (dealiased_iff he).1 hd ▸ hx
  simp only [ComesNext, dealiased_iff hd, exists_eq_left, List.mem_cons, List.mem_append, ← hlists]
  exact or_right_comm

theorem mem_reachable_iff (h : u.reachable n root = some ts) :
    t ∈ ts ↔ ReflTransGen u.ComesNext root t := by
  obtain ⟨hroot, hclosed⟩ := reachable_closed h
  constructor
  · refine explore_forall (P := ReflTransGen u.ComesNext root) (fun t found ht hfound x hx ↦ ?_)
      (fun s hs ↦ ?_) (fun s hs ↦ (List.not_mem_nil hs).elim) h t
    · exact ht.tail ((mem_successors_iff hfound).1 hx)
    · rw [List.mem_singleton.1 hs]
      exact .refl
  · intro hpath
    induction hpath with
    | refl => exact hroot
    | tail _ hstep ih =>
      obtain ⟨found, hfound, hsub⟩ := hclosed _ ih
      exact hsub ((mem_successors_iff hfound).2 hstep)

theorem reachable_iff_visit : (∃ n, u.reachable n root = some ts) ↔
    ∃ n, visit (u.successors n) n [] root = some ts := by
  constructor
  · rintro ⟨n, h⟩
    have hall : visitAll (u.successors n) n [] [root] = some ts := visitAll_of_explore h
    exact ⟨n, visitAll_singleton.symm.trans hall⟩
  · rintro ⟨n, h⟩
    obtain ⟨k, hk⟩ := explore_iff_visitAll.2 ⟨n, visitAll_singleton.trans h⟩
    refine ⟨max n k, explore_keeps (u.successors_keeps (Nat.le_max_left n k)) (Nat.le_max_right n k)
      _ _ _ hk⟩

/-- The search from a root is the recursive visit of it: if one ends so does the other, with the same
types in the same order. These are the types that come after the root in any number of steps, each
once and the root first. -/
theorem reachable_preorder (root : Ty) (ts : List Ty) :
    ((∃ n, u.reachable n root = some ts) ↔ ∃ n, visit (u.successors n) n [] root = some ts) ∧
      ∀ n, u.reachable n root = some ts →
        ts.Nodup ∧ ts.head? = some root ∧ ∀ t, t ∈ ts ↔ ReflTransGen u.ComesNext root t := by
  refine ⟨reachable_iff_visit, fun n h ↦ ⟨?_, ?_, fun t ↦ mem_reachable_iff h⟩⟩
  · obtain ⟨m, hvisit⟩ := reachable_iff_visit.1 ⟨n, h⟩
    exact nodup_of_visit hvisit List.nodup_nil
  · obtain ⟨m, hvisit⟩ := reachable_iff_visit.1 ⟨n, h⟩
    rcases visit_cases hvisit with ⟨hroot, -⟩ | ⟨-, k, found, -, -, hall⟩
    · cases hroot
    · obtain ⟨rest, rfl⟩ := prefix_of_visitAll hall
      rfl

section Knot

/-- A class `Box[A <: Box[A]]`, the alias `L` of `Box[L]`, and two aliases of each other. -/
def knot : SymbolTable :=
  let (box, u) := initial.cls 1 "Box"
  let (a, u) := u.typeParam box "A" .invariant
  let (l, u) := u.typeAlias 1 "L"
  let (m, u) := u.typeAlias 1 "M"
  let (n, u) := u.typeAlias 1 "N"
  let u := u.setBounds a u.nothingType (u.applied box [u.typeRef a])
  let u := u.setBody l (u.applied box [u.typeRef l])
  let u := u.setBody m (u.typeRef n)
  u.setBody n (u.typeRef m)

theorem knot_preorder :
    let u := knot
    let boxOf (t : Ty) := u.applied 5 [t]
    let root := Ty.refined [u.typeRef 7, u.typeRef 8, boxOf (u.typeRef 6)] []
    let ts := [root, u.typeRef 7, boxOf (u.typeRef 7), u.typeRef 8, boxOf (u.typeRef 6), u.typeRef 6,
      u.nothingType]
    u.reachable 30 root = some ts ∧ ts.Nodup ∧ ts.head? = some root ∧
      ∀ t, t ∈ ts ↔ ReflTransGen u.ComesNext root t := by
  intro u boxOf root ts
  have hts : u.reachable 30 root = some ts := by decide +kernel
  exact ⟨hts, (reachable_preorder root ts).2 30 hts⟩

end Knot

end SymbolTable

end TypeTag
