import TypeTag.Proofs.SymbolTable.Calls

namespace TypeTag.SymbolTable

def memberName (u : SymbolTable) (owner : Option SymbolId) (name : String) : String :=
  if (u.fullName (owner.getD u.root)).isEmpty then name
  else u.fullName (owner.getD u.root) ++ "." ++ name

/-- No package but the root has an empty full name. -/
def RootNameless (u : SymbolTable) : Prop :=
  ∀ s : Nat, s < u.size → u.kind s = .package → u.fullName s = "" → s = u.root

theorem package_eq (u : SymbolTable) (owner : Option SymbolId) (name : String) :
    u.package owner name = match u.lookup (u.memberName owner name) with
      | some s => (s, u)
      | none => u.define { name, owner := owner.getD u.root, kind := .package } :=
  rfl

namespace Consistent

variable {u : SymbolTable} {params : SymbolId → List SymbolId} (h : u.Consistent params)

include h

theorem fullName_root : u.fullName u.root = "" := by
  rw [OwnerPath.fullName h.ownersPrecede h.kind_of_owner_eq_none (.top h.top.1)]
  rfl

theorem fullName_of_owner {s o : SymbolId} (ho : (u.entry s).owner = some o) (hlt : o < u.size) :
    u.fullName s =
      if o = u.root then (u.entry s).name else u.fullName o ++ "." ++ (u.entry s).name := by
  obtain ⟨path, hpath⟩ := h.ownersPrecede.exists_ownerPath o
  have hname {s : SymbolId} {path : List SymbolId} (hp : u.OwnerPath s path) :=
    hp.fullName h.ownersPrecede h.kind_of_owner_eq_none
  rw [hname (.owned ho hpath), hname hpath, List.map_cons, List.reverse_cons]
  cases hpath with
  | top htop =>
    rw [if_pos (h.eq_root hlt htop)]
    rfl
  | owned howned _ =>
    have hne : o ≠ u.root := by
      rintro rfl
      cases h.top.1.symm.trans howned
    rw [if_neg hne, String.intercalate_append_of_ne_nil (by simp) (by simp),
      String.intercalate_singleton]

theorem rootNameless_add {i : SymbolEntry} (hu : u.RootNameless)
    (hnew : i.kind = .package → (u.add i).fullName u.size ≠ "") : (u.add i).RootNameless := by
  intro s hs hk hn
  rw [(root_add u i).1]
  rw [size_add] at hs
  rcases Nat.lt_succ_iff_lt_or_eq.1 hs with hs | rfl
  · rw [kind_add hs] at hk
    rw [fullName_add h.ownersPrecede hs] at hn
    exact hu s hs hk hn
  · rw [kind, entry_add_size] at hk
    exact absurd hn (hnew hk)

theorem rootNameless_update {s : SymbolId} {f : SymbolEntry → SymbolEntry} (hu : u.RootNameless)
    (hs : s < u.size) (hname : ∀ i, (f i).name = i.name) (howner : ∀ i, (f i).owner = i.owner)
    (hkind : ∀ i, (f i).kind = i.kind) : (u.update s f).RootNameless := by
  have hsame := identity_update hs hname howner hkind
  intro t ht hk hn
  rw [size_update] at ht
  rw [(hsame t).2.2] at hk
  rw [fullName_congr h.ownersPrecede fun x _ ↦ hsame x] at hn
  exact hu t ht hk hn

/-- Either the name is taken and nothing happens, or a package is added in the owner. -/
theorem package_cases {owner : Option SymbolId} (howner : ∀ o ∈ owner, o < u.size) (name : String) :
    (∃ s, u.package owner name = (s, u) ∧ IsLeast (u.named (u.memberName owner name)) s) ∨
      ∃ i, u.package owner name = (u.size, u.add i) ∧ i.kind = .package ∧
        u.named (u.memberName owner name) = ∅ ∧ (u.add i).Consistent params ∧
        (u.add i).fullName u.size = if owner.getD u.root = u.root then name
          else u.fullName (owner.getD u.root) ++ "." ++ name := by
  rw [package_eq]
  cases hfound : u.lookup (u.memberName owner name) with
  | some s => exact .inl ⟨s, rfl, (h.names _ s).1 hfound⟩
  | none =>
    have hlt := h.owner_lt_size howner
    let i : SymbolEntry := { name, owner := owner.getD u.root, kind := .package }
    have hadd : (u.add i).Consistent params := h.define hlt name .package .invariant none
    have hname := hadd.fullName_of_owner (congrArg SymbolEntry.owner (entry_add_size u i))
      (by rw [size_add]; exact Nat.lt_succ_of_lt hlt)
    rw [(root_add u i).1, fullName_add h.ownersPrecede hlt, entry_add_size] at hname
    exact .inr ⟨i, rfl, rfl, h.lookup_eq_none_iff.1 hfound, hadd, hname⟩

theorem rootNameless_call (hu : u.RootNameless) {c : Call} (hc : c.Valid u) :
    (c.run u).2.RootNameless := by
  have hdefine (o : SymbolId) (name : String) (k : SymbolKind) (v : Variance) (body : Option Ty)
      (hk : k ≠ .package) :
      (u.define { name, owner := some o, kind := k, variance := v, body }).2.RootNameless :=
    h.rootNameless_add hu fun hpackage ↦ absurd hpackage hk
  cases c with
  | package owner name =>
    rw [show (Call.package owner name).run u = (u.package owner name).map some id from rfl]
    rcases h.package_cases hc name with ⟨s, heq, -⟩ | ⟨i, heq, -, hfree, -, hname⟩
    · rw [heq]
      exact hu
    · rw [heq]
      refine h.rootNameless_add hu fun _ hempty ↦ ?_
      rw [hname] at hempty
      split at hempty
      · -- The root has the empty name already, so that it would have been found.
        next hroot =>
        have hmember : u.memberName owner name = "" := by
          rw [memberName, hroot, h.fullName_root]
          exact hempty
        rw [hmember] at hfree
        exact Set.notMem_empty u.root (hfree ▸ ⟨h.root, by rw [h.top.2]; nofun, h.fullName_root⟩)
      · simp at hempty
  | cls o name => exact hdefine o name .cls .invariant none nofun
  | object o name => exact hdefine o name .object .invariant none nofun
  | term o name declared => exact hdefine o name .term .invariant declared nofun
  | freeTypeParam o name v => exact hdefine o name .typeParam v none nofun
  | abstractType o name => exact hdefine o name .abstractType .invariant none nofun
  | typeAlias o name => exact hdefine o name .typeAlias .invariant none nofun
  | refinement o type => exact hdefine o "<refinement>" .refinement .invariant type nofun
  | typeParam o name v =>
    have hadd : (u.freeTypeParam o name v).2.Consistent params := h.define hc name .typeParam v none
    refine hadd.rootNameless_update (hdefine o name .typeParam v none nofun) ?_ (fun _ ↦ rfl)
      (fun _ ↦ rfl) fun _ ↦ rfl
    rw [freeTypeParam, define_table, size_add]
    exact Nat.lt_succ_of_lt hc
  | setParents s parents | setBounds s lower upper | setBody s body =>
    exact h.rootNameless_update hu hc (fun _ ↦ rfl) (fun _ ↦ rfl) fun _ ↦ rfl

theorem memberName_eq (hu : u.RootNameless) {owner : Option SymbolId}
    (howner : ∀ o ∈ owner, o < u.size ∧ u.kind o = .package) (name : String) :
    u.memberName owner name = if owner.getD u.root = u.root then name
      else u.fullName (owner.getD u.root) ++ "." ++ name := by
  rw [memberName]
  by_cases hroot : owner.getD u.root = u.root
  · rw [if_pos hroot, hroot, h.fullName_root]
    rfl
  · have hne : u.fullName (owner.getD u.root) ≠ "" := by
      cases owner with
      | none => exact absurd rfl hroot
      | some o => exact fun hempty ↦ hroot (hu o (howner o rfl).1 (howner o rfl).2 hempty)
    rw [if_neg hroot, if_neg (mt String.isEmpty_iff.1 hne)]

theorem package_package (hu : u.RootNameless) {owner : Option SymbolId}
    (howner : ∀ o ∈ owner, o < u.size ∧ u.kind o = .package) (name : String) :
    (u.package owner name).2.package owner name = u.package owner name := by
  rcases h.package_cases (fun o ho ↦ (howner o ho).1) name with
    ⟨s, heq, -⟩ | ⟨i, heq, hk, hfree, -, hname⟩
  · rw [heq, heq]
  · have hlt := h.owner_lt_size fun o ho ↦ (howner o ho).1
    have hmember : (u.add i).memberName owner name = u.memberName owner name := by
      rw [memberName, (root_add u i).1, fullName_add h.ownersPrecede hlt, memberName]
    have hfound : (u.add i).lookup (u.memberName owner name) = some u.size := by
      rw [lookup_add, h.lookup_eq_none_iff.2 hfree, hname, h.memberName_eq hu howner, hk]
      simp
    rw [heq, package_eq, hmember, hfound]

theorem package_answer (hu : u.RootNameless) {owner : Option SymbolId}
    (howner : ∀ o ∈ owner, o < u.size ∧ u.kind o = .package) {name : String} {s : SymbolId}
    {v : SymbolTable} (heq : u.package owner name = (s, v)) :
    s < v.size ∧ v.fullName s = u.memberName owner name ∧
      (v.kind s = .package ↔
        ∀ t, IsLeast (u.named (u.memberName owner name)) t → u.kind t = .package) ∧
      (∀ t : Nat, t < u.size → v.entry t = u.entry t ∧ v.fullName t = u.fullName t) ∧
      (∀ n t, u.lookup n = some t → v.lookup n = some t) ∧ v.package owner name = (s, v) := by
  have hagain : v.package owner name = (s, v) := by
    have hrepeated := h.package_package hu howner name
    rwa [heq] at hrepeated
  rcases h.package_cases (fun o ho ↦ (howner o ho).1) name with
    ⟨t, hfound, hleast⟩ | ⟨i, hadded, hk, hfree, -, hname⟩
  · obtain ⟨rfl, rfl⟩ := Prod.mk.inj (heq.symm.trans hfound)
    refine ⟨hleast.1.1, hleast.1.2.2, ?_, fun _ _ ↦ ⟨rfl, rfl⟩, fun _ _ ↦ id, hagain⟩
    exact ⟨fun hk x hx ↦ hleast.unique hx ▸ hk, fun hall ↦ hall _ hleast⟩
  · obtain ⟨rfl, rfl⟩ := Prod.mk.inj (heq.symm.trans hadded)
    refine ⟨by rw [size_add]; exact Nat.lt_succ_self _, by rw [hname, h.memberName_eq hu howner], ?_,
      fun t ht ↦ ⟨entry_add_of_ne u (Nat.ne_of_lt ht), fullName_add h.ownersPrecede ht⟩,
      fun n t ht ↦ by rw [lookup_add, ht, Option.some_or], hagain⟩
    rw [kind, entry_add_size, hfree]
    exact ⟨fun _ x hx ↦ absurd hx.1 (Set.notMem_empty x), fun _ ↦ hk⟩

theorem rootNameless_afterCalls (hu : u.RootNameless) {calls : List Call}
    (hcalls : ValidCalls u calls) : (u.afterCalls calls).RootNameless := by
  induction calls generalizing u params with
  | nil => exact hu
  | cons c calls ih => exact ih (h.call hcalls.1) (h.rootNameless_call hu hcalls.1) hcalls.2

end Consistent

theorem initial_rootNameless : initial.RootNameless := by
  unfold RootNameless
  decide

/-- After any calls, a member of a package that is asked for as a package is found or created: it
has the name that was asked for, nothing that was there changes, and asking again finds it. It is a
package unless a symbol of another kind had the name first. -/
theorem package_gets_or_creates {calls : List Call} (hcalls : ValidCalls initial calls)
    {owner : Option SymbolId} (howner : ∀ o ∈ owner, o < (initial.afterCalls calls).size ∧
      (initial.afterCalls calls).kind o = .package) (name : String) :
    let u := initial.afterCalls calls
    let s := (u.package owner name).1
    let v := (u.package owner name).2
    s < v.size ∧ v.fullName s = u.memberName owner name ∧
      (v.kind s = .package ↔
        ∀ t, IsLeast (u.named (u.memberName owner name)) t → u.kind t = .package) ∧
      (∀ t : Nat, t < u.size → v.entry t = u.entry t ∧ v.fullName t = u.fullName t) ∧
      (∀ n t, u.lookup n = some t → v.lookup n = some t) ∧ v.package owner name = (s, v) := by
  intro u s v
  have h := initial_consistent.afterCalls hcalls
  have hu := initial_consistent.rootNameless_afterCalls initial_rootNameless hcalls
  exact h.package_answer hu howner rfl

def classAndPackageCalls : List Call :=
  [.cls 0 "C", .package none "app", .package (some 6) "lib"]

theorem classAndPackage_gets_or_creates :
    let u := initial.afterCalls classAndPackageCalls
    ValidCalls initial classAndPackageCalls ∧ (∀ o ∈ some 6, o < u.size ∧ u.kind o = .package) ∧
      (u.package (some 6) "C").2.kind (u.package (some 6) "C").1 = .package ∧
      (u.package (some 6) "C").2.fullName (u.package (some 6) "C").1 = "app.C" := by
  intro u
  have hcalls : ValidCalls initial classAndPackageCalls := by decide
  have howner : ∀ o ∈ some 6, o < u.size ∧ u.kind o = .package := by decide
  obtain ⟨-, hname, hkind, -⟩ := package_gets_or_creates hcalls howner "C"
  have hmember : u.memberName (some 6) "C" = "app.C" := by decide
  have hfree : u.named "app.C" = ∅ :=
    (initial_consistent.afterCalls hcalls).lookup_eq_none_iff.1 (by decide)
  refine ⟨hcalls, howner, hkind.2 fun t ht ↦ ?_, hname.trans hmember⟩
  rw [hmember, hfree] at ht
  exact absurd ht.1 (Set.notMem_empty t)

/-- Asked for the package `C`, the table answers with the class of that name. -/
theorem package_answers_class :
    let u := initial.afterCalls [.cls 0 "C"]
    ValidCalls initial [.cls 0 "C"] ∧ (u.package none "C").1 = 5 ∧
      (u.package none "C").2.kind (u.package none "C").1 = .cls := by
  decide

end TypeTag.SymbolTable
