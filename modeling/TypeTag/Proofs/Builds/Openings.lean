import TypeTag.Proofs.Builds.Flattening

namespace TypeTag

open Stepped (Keeps)

inductive Opening where
  | leaf (t : Ty)
  | refinement (members : List (Member Ty)) (parents : List Opening)

namespace Opening

mutual

def leaves : Opening → List Ty
  | leaf t => [t]
  | refinement _ os => leavesList os

def leavesList : List Opening → List Ty
  | [] => []
  | o :: os => leaves o ++ leavesList os

end

mutual

def members : Opening → List (Member Ty)
  | leaf _ => []
  | refinement ms os => ms ++ membersList os

def membersList : List Opening → List (Member Ty)
  | [] => []
  | o :: os => members o ++ membersList os

end

theorem leavesList_eq (os : List Opening) : leavesList os = os.flatMap leaves := by
  induction os with
  | nil => rfl
  | cons o os ih => rw [leavesList, ih, List.flatMap_cons]

theorem membersList_eq (os : List Opening) : membersList os = os.flatMap members := by
  induction os with
  | nil => rfl
  | cons o os ih => rw [membersList, ih, List.flatMap_cons]

end Opening

namespace Flattening

def parts : Flattening → List Ty
  | single t => [t]
  | compound ps _ => ps

def members : Flattening → List (Member Ty)
  | single _ => []
  | compound _ ms => ms

def isSingle : Flattening → Bool
  | single _ => true
  | compound .. => false

theorem ext {f g : Flattening} (hparts : f.parts = g.parts) (hmembers : f.members = g.members)
    (hsingle : f.isSingle ↔ g.isSingle) : f = g := by
  cases f <;> cases g <;> simp_all [parts, members, isSingle]

end Flattening

theorem existsUnique_mem_iff {α : Type} [BEq α] [LawfulBEq α] {l : List α} :
    (∃! x, x ∈ l) ↔ ∃ x, l.eraseDups = [x] := by
  cases l with
  | nil => simp
  | cons a l =>
    have hrest : (l.filter fun b ↦ !b == a).eraseDups = [] ↔ ∀ b ∈ l, b = a := by
      simp [List.eq_nil_iff_forall_not_mem, List.mem_eraseDups]
    simp only [List.eraseDups_cons, List.cons.injEq, exists_eq_left', hrest]
    constructor
    · rintro ⟨x, -, hx⟩ b hb
      exact (hx b (List.mem_cons_of_mem a hb)).trans (hx a List.mem_cons_self).symm
    · intro h
      exact ⟨a, List.mem_cons_self, fun b hb ↦ (List.mem_cons.1 hb).elim id (h b)⟩

theorem eraseDups_concat {α : Type} [BEq α] [LawfulBEq α] (l : List α) (a : α) :
    (l ++ [a]).eraseDups = if l.contains a then l.eraseDups else l.eraseDups ++ [a] := by
  rw [List.eraseDups_append]
  by_cases h : a ∈ l
  · simp [List.removeAll, h]
  · simp [List.removeAll, h, List.eraseDups_cons]

namespace SymbolTable

variable (u : SymbolTable)

/-- The tree to which a type opens, if it is no more than `n` types deep. -/
def opening (m : Nat) : Nat → Ty → Option Opening
  | 0, _ => none
  | n + 1, t => do
    match ← u.dealias m t with
    | .refined ps ms => return .refinement ms (← ps.mapM (opening m n))
    | _ => return .leaf t

variable {u} {k m n : Nat} {t d : Ty} {stack ps parts : List Ty} {ms members : List (Member Ty)}
  {o : Opening} {os : List Opening}

theorem opening_refined (hd : u.dealias m t = some (.refined ps ms))
    (hos : ps.mapM (u.opening m n) = some os) :
    u.opening m (n + 1) t = some (.refinement ms os) := by
  simp [opening, hd, hos]

theorem opening_leaf (hd : u.dealias m t = some d) (hrefined : d.isRefined = false) :
    u.opening m (n + 1) t = some (.leaf t) := by
  rw [opening, hd]
  cases d with
  | refined ps ms => cases hrefined
  | _ => rfl

theorem opening_cases (h : u.opening m n t = some o) : ∃ k d, n = k + 1 ∧ u.dealias m t = some d ∧
    (d.isRefined = false ∧ o = .leaf t ∨
      ∃ ps ms os, d = .refined ps ms ∧ ps.mapM (u.opening m k) = some os ∧
        o = .refinement ms os) := by
  cases n with
  | zero => cases h
  | succ n =>
    obtain ⟨d, hd, ho⟩ := Option.bind_eq_some_iff.1 h
    refine ⟨n, d, rfl, hd, ?_⟩
    cases hrefined : d.isRefined with
    | false =>
      exact .inl ⟨rfl, Option.some.inj (h.symm.trans (opening_leaf hd hrefined))⟩
    | true =>
      cases d with
      | refined ps ms =>
        obtain ⟨os, hos, ho⟩ := Option.bind_eq_some_iff.1 ho
        exact .inr ⟨ps, ms, os, rfl, hos, (Option.some.inj ho).symm⟩
      | _ => cases hrefined

theorem opening_keeps {m' n' : Nat} (hm : m ≤ m') (hn : n ≤ n') (t : Ty) :
    Keeps (u.opening m n t) (u.opening m' n' t) := by
  induction n generalizing n' t with
  | zero => exact .none _
  | succ n ih =>
    obtain ⟨n', rfl⟩ : ∃ k, n' = k + 1 := ⟨n' - 1, by omega⟩
    refine (u.dealias_keeps hm t).bind fun d ↦ ?_
    split
    · exact (Keeps.mapM (fun p ↦ ih (by omega) p) _).bind fun _ ↦ .refl _
    · exact .refl _

theorem opening_unique {o' : Opening} (h : u.opening n n t = some o)
    (h' : u.opening m m t = some o') : o = o' :=
  Stepped.unique_of_keeps (fun _ _ hle ↦ opening_keeps hle hle t) h h'

theorem isRefined_of_mem_leaves (h : u.opening m n t = some o) {x : Ty} (hx : x ∈ o.leaves) :
    ∃ d, u.Dealiased x d ∧ d.isRefined = false := by
  induction n generalizing t o with
  | zero => cases h
  | succ n ih =>
    obtain ⟨k, d, hk, hd, ⟨hrefined, rfl⟩ | ⟨ps, ms, os, -, hos, rfl⟩⟩ := opening_cases h
    · obtain rfl := List.mem_singleton.1 hx
      exact ⟨d, ⟨m, hd⟩, hrefined⟩
    · cases hk
      rw [Opening.leaves, Opening.leavesList_eq] at hx
      obtain ⟨p, hp, hx⟩ := List.mem_flatMap.1 hx
      obtain ⟨q, -, hq⟩ := mem_mapM hos hp
      exact ih hq hx

/-- What a flattening adds to the leaves and members collected is what the stack opens to. -/
theorem openings_of_flattenFrom {leaves : List Ty} {r : List Ty × List (Member Ty)}
    (h : u.flattenFrom m n stack leaves.eraseDups members = some r) :
    ∃ os, stack.mapM (u.opening m n) = some os ∧
      r = ((leaves ++ os.flatMap Opening.leaves).eraseDups,
        members ++ os.flatMap Opening.members) := by
  induction n generalizing stack leaves members with
  | zero =>
    cases stack with
    | nil =>
      cases h
      exact ⟨[], rfl, by simp⟩
    | cons t stack => cases h
  | succ n ih =>
    cases stack with
    | nil =>
      cases h
      exact ⟨[], rfl, by simp⟩
    | cons t stack =>
      obtain ⟨d, hd, -⟩ := Option.bind_eq_some_iff.1 h
      have hstack {os : List Opening} (hos : stack.mapM (u.opening m n) = some os) :
          stack.mapM (u.opening m (n + 1)) = some os :=
        Keeps.mapM (fun t ↦ opening_keeps (Nat.le_refl m) (Nat.le_succ n) t) stack os hos
      cases hrefined : d.isRefined with
      | true =>
        cases d with
        | refined ps ms =>
          rw [flattenFrom_refined hd] at h
          obtain ⟨os, hos, rfl⟩ := ih h
          obtain ⟨own, rest, hown, hrest, rfl⟩ := mapM_append_eq_some.1 hos
          -- The parts are put on the stack where the refinement was, which keeps the preorder.
          refine ⟨.refinement ms own :: rest, ?_, ?_⟩
          · simp [List.mapM_cons, opening_refined hd hown, hstack hrest]
          · simp [Opening.leaves, Opening.members, Opening.leavesList_eq, Opening.membersList_eq]
        | _ => cases hrefined
      | false =>
        rw [flattenFrom_leaf hd hrefined] at h
        have hleaves : (if leaves.eraseDups.contains t then leaves.eraseDups
            else leaves.eraseDups ++ [t]) = (leaves ++ [t]).eraseDups := by
          simp [eraseDups_concat, List.mem_eraseDups]
        obtain ⟨os, hos, rfl⟩ := ih (hleaves ▸ h)
        refine ⟨.leaf t :: os, ?_, ?_⟩
        · simp [List.mapM_cons, opening_leaf hd hrefined, hstack hos]
        · simp [Opening.leaves, Opening.members]

theorem flattens_of_opening {rest : List Ty} (h : u.opening m n t = some o)
    (hrest : u.Flattens m rest) : u.Flattens m (t :: rest) := by
  induction n generalizing t o rest with
  | zero => cases h
  | succ n ih =>
    obtain ⟨k, d, hk, hd, ⟨hrefined, -⟩ | ⟨ps, ms, os, rfl, hos, -⟩⟩ := opening_cases h
    · exact hrest.cons_of_leaf hd hrefined
    · cases hk
      refine .cons_of_refined hd (hrest.append fun p hp {_} hrest ↦ ?_)
      obtain ⟨q, -, hq⟩ := mapM_mem hos hp
      exact ih hq hrest

theorem exists_opening_of_flatten {f : Flattening} (hf : u.flatten n t = some f) :
    ∃ o, u.opening n n t = some o ∧ f.parts = o.leaves.eraseDups ∧ f.members = o.members ∧
      (f.isSingle ↔ o.members = [] ∧ ∃! x, x ∈ o.leaves) := by
  obtain ⟨r, hr, hf⟩ := Option.bind_eq_some_iff.1 hf
  have hr : u.flattenFrom n n [t] ([] : List Ty).eraseDups [] = some r := hr
  obtain ⟨os, hos, rfl⟩ := openings_of_flattenFrom hr
  rw [List.mapM_cons] at hos
  obtain ⟨o, ho, hos⟩ := Option.bind_eq_some_iff.1 hos
  cases hos
  refine ⟨o, ho, ?_⟩
  rw [existsUnique_mem_iff]
  split at hf
  next single heq =>
    cases hf
    simp_all [Flattening.parts, Flattening.members, Flattening.isSingle]
  next parts members hcompound heq =>
    cases hf
    have hsingle : ¬(members = [] ∧ ∃ x, parts = [x]) := by
      rintro ⟨hmembers, x, hparts⟩
      exact hcompound x hparts hmembers
    simp_all [Flattening.parts, Flattening.members, Flattening.isSingle]

theorem exists_flatten_of_opening (h : u.opening n n t = some o) : ∃ m f, u.flatten m t = some f :=
  exists_flatten_of_flattens (flattens_of_opening h fun parts members ↦ ⟨0, (parts, members), rfl⟩)

/-- Flattening is the recursion: one ends with the other, and then the parts are the leaves of the tree
from left to right, each where it comes first, and the members are those of its refinements from the
root down. One part alone without members is what is left of a single type. No leaf stands for a
refinement. -/
theorem flatten_eq_leaves (t : Ty) :
    (∀ f, (∃ n, u.flatten n t = some f) ↔ ∃ n o, u.opening n n t = some o ∧
      f.parts = o.leaves.eraseDups ∧ f.members = o.members ∧
        (f.isSingle ↔ o.members = [] ∧ ∃! x, x ∈ o.leaves)) ∧
      ∀ n o, u.opening n n t = some o → ∀ x ∈ o.leaves, ∃ d, u.Dealiased x d ∧ d.isRefined = false := by
  refine ⟨fun f ↦ ⟨?_, ?_⟩, fun n o h x hx ↦ isRefined_of_mem_leaves h hx⟩
  · rintro ⟨n, hf⟩
    exact ⟨n, exists_opening_of_flatten hf⟩
  · rintro ⟨n, o, ho, hparts, hmembers, hsingle⟩
    obtain ⟨m, g, hg⟩ := exists_flatten_of_opening ho
    obtain ⟨o', ho', hparts', hmembers', hsingle'⟩ := exists_opening_of_flatten hg
    obtain rfl := opening_unique ho ho'
    obtain rfl := Flattening.ext (hparts.trans hparts'.symm) (hmembers.trans hmembers'.symm)
      (hsingle.trans hsingle'.symm)
    exact ⟨m, hg⟩

section NestedRefinement

/-- Two classes, and the alias `L` of `B with A { type F }`. -/
def nestedRefinement : SymbolTable :=
  let (a, u) := initial.cls 1 "A"
  let (b, u) := u.cls 1 "B"
  let (l, u) := u.typeAlias 1 "L"
  u.setBody l (.refined [u.typeRef b, u.typeRef a] [.type "F" u.anyType])

theorem nestedRefinement_flatten :
    let u := nestedRefinement
    let a := u.typeRef 5
    let b := u.typeRef 6
    let f := Member.type "F" u.anyType
    let g := Member.type "G" u.anyType
    let t := Ty.refined [a, .refined [u.typeRef 7, b] [g]] []
    let o := Opening.refinement []
      [.leaf a, .refinement [g] [.refinement [f] [.leaf b, .leaf a], .leaf b]]
    u.opening 4 4 t = some o ∧ o.leaves = [a, b, a, b] ∧ o.members = [g, f] ∧
      (∀ x ∈ o.leaves, ∃ d, u.Dealiased x d ∧ d.isRefined = false) ∧
      ∃ n, u.flatten n t = some (.compound [a, b] [g, f]) := by
  intro u a b f g t o
  have ha (n : Nat) : u.opening 4 (n + 1) a = some (.leaf a) :=
    opening_leaf (dealias_of_aliasRedex?_eq_none rfl 4) rfl
  have hb (n : Nat) : u.opening 4 (n + 1) b = some (.leaf b) :=
    opening_leaf (dealias_of_aliasRedex?_eq_none rfl 4) rfl
  have hl (n : Nat) : u.opening 4 (n + 2) (u.typeRef 7) =
      some (.refinement [f] [.leaf b, .leaf a]) := by
    have hd : u.dealias 4 (u.typeRef 7) = some (.refined [b, a] [f]) := by decide +kernel
    exact opening_refined hd (by simp [List.mapM_cons, ha, hb])
  have hinner : u.opening 4 3 (.refined [u.typeRef 7, b] [g]) =
      some (.refinement [g] [.refinement [f] [.leaf b, .leaf a], .leaf b]) :=
    opening_refined (dealias_of_aliasRedex?_eq_none rfl 4) (by simp [List.mapM_cons, hl 0, hb])
  have ho : u.opening 4 4 t = some o :=
    opening_refined (dealias_of_aliasRedex?_eq_none rfl 4) (by simp [List.mapM_cons, ha, hinner])
  have hparts : [a, b] = o.leaves.eraseDups := by decide +kernel
  have hsingle : (Flattening.compound [a, b] [g, f]).isSingle ↔
      o.members = [] ∧ ∃! x, x ∈ o.leaves := by
    simp [Flattening.isSingle, o, Opening.members, Opening.membersList]
  exact ⟨ho, rfl, rfl, (flatten_eq_leaves t).2 4 o ho,
    ((flatten_eq_leaves t).1 _).2 ⟨4, o, ho, hparts, rfl, hsingle⟩⟩

end NestedRefinement

end SymbolTable

end TypeTag
