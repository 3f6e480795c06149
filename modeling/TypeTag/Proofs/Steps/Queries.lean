import TypeTag.Build.Exploration
import TypeTag.Build.Flattening
import TypeTag.Proofs.Steps.Keeps

namespace TypeTag

open Stepped

namespace Ty

section Instantiate

set_option linter.unusedSectionVars false

variable {f g : Ty → List Ty → Option Ty} (h : ∀ c as, Keeps (f c as) (g c as))
  (params : List SymbolId) (args : List Ty)

include h

mutual

theorem instantiate_keeps : ∀ t, Keeps (instantiate f params args t) (instantiate g params args t)
  | ref q s as => by
    refine (instantiateList_keeps as).bind fun bs ↦ ?_
    split
    · split
      · split
        · exact .refl _
        · exact h _ _
      · exact .refl _
    · exact (instantiateQualifier_keeps q).bind fun _ ↦ .refl _
  | single q _ => (instantiateQualifier_keeps q).bind fun _ ↦ .refl _
  | self _ => .refl _
  | constant _ => .refl _
  | refined ps ms =>
    (instantiateList_keeps ps).bind fun _ ↦ (instantiateMembers_keeps ms).bind fun _ ↦ .refl _
  | poly _ r => (instantiate_keeps r).bind fun _ ↦ .refl _
  | bounds l u => (instantiate_keeps l).bind fun _ ↦ (instantiate_keeps u).bind fun _ ↦ .refl _

theorem instantiateQualifier_keeps : ∀ q,
    Keeps (instantiateQualifier f params args q) (instantiateQualifier g params args q)
  | none => .refl _
  | some q => (instantiate_keeps q).bind fun _ ↦ .refl _

theorem instantiateList_keeps : ∀ ts,
    Keeps (instantiateList f params args ts) (instantiateList g params args ts)
  | [] => .refl _
  | t :: ts => (instantiate_keeps t).bind fun _ ↦ (instantiateList_keeps ts).bind fun _ ↦ .refl _

theorem instantiateLists_keeps : ∀ tss,
    Keeps (instantiateLists f params args tss) (instantiateLists g params args tss)
  | [] => .refl _
  | ts :: tss =>
    (instantiateList_keeps ts).bind fun _ ↦ (instantiateLists_keeps tss).bind fun _ ↦ .refl _

theorem instantiateMember_keeps : ∀ m,
    Keeps (instantiateMember f params args m) (instantiateMember g params args m)
  | .method _ pss r =>
    (instantiateLists_keeps pss).bind fun _ ↦ (instantiate_keeps r).bind fun _ ↦ .refl _
  | .type _ t => (instantiate_keeps t).bind fun _ ↦ .refl _

theorem instantiateMembers_keeps : ∀ ms,
    Keeps (instantiateMembers f params args ms) (instantiateMembers g params args ms)
  | [] => .refl _
  | m :: ms =>
    (instantiateMember_keeps m).bind fun _ ↦ (instantiateMembers_keeps ms).bind fun _ ↦ .refl _

end

end Instantiate

theorem applyConstructor_keeps {beta gamma : List SymbolId → List Ty → Ty → Option Ty}
    (h : ∀ ps as t, Keeps (beta ps as t) (gamma ps as t)) (c : Ty) (args : List Ty) :
    Keeps (applyConstructor beta c args) (applyConstructor gamma c args) := by
  unfold applyConstructor
  split
  · exact .refl _
  · exact h _ _ _
  · exact .refl _

theorem substitute_keeps {n m : Nat} (h : n ≤ m) (params : List SymbolId) (args : List Ty) (t : Ty) :
    Keeps (substitute n params args t) (substitute m params args t) := by
  induction n generalizing m params args t with
  | zero =>
    unfold substitute
    split
    · exact .refl _
    · cases m with
      | zero => exact .refl _
      | succ m => exact instantiate_keeps (applyConstructor_keeps fun _ _ _ ↦ .none _) _ _ _
  | succ n ih =>
    obtain ⟨m, rfl⟩ : ∃ k, m = k + 1 := ⟨m - 1, by omega⟩
    unfold substitute
    split
    · exact .refl _
    · exact instantiate_keeps (applyConstructor_keeps fun ps as t ↦ ih (by omega) ps as t) _ _ _

end Ty

theorem explore_keeps {next next' : Ty → Option (List Ty)} (hn : ∀ t, Keeps (next t) (next' t))
    {n m : Nat} (h : n ≤ m) (stack seen : List Measured) :
    Keeps (explore next n stack seen) (explore next' m stack seen) := by
  induction n generalizing m stack seen with
  | zero =>
    cases stack with
    | nil => simpa only [explore] using .refl _
    | cons t stack => exact .none _
  | succ n ih =>
    obtain ⟨m, rfl⟩ : ∃ k, m = k + 1 := ⟨m - 1, by omega⟩
    cases stack with
    | nil => simpa only [explore] using .refl _
    | cons t stack =>
      unfold explore
      split
      · exact ih (by omega) _ _
      · exact (hn t.type).bind fun _ ↦ ih (by omega) _ _

open Ty

namespace SymbolTable

variable (u : SymbolTable) {n m : Nat} (h : n ≤ m)

include h

theorem dealiasFrom_keeps (seen : List Measured) (t : Ty) :
    Keeps (u.dealiasFrom n seen t) (u.dealiasFrom m seen t) := by
  induction n generalizing m seen t with
  | zero =>
    unfold dealiasFrom
    split
    · exact .refl _
    · split
      · exact .refl _
      · exact .none _
  | succ n ih =>
    obtain ⟨m, rfl⟩ : ∃ k, m = k + 1 := ⟨m - 1, by omega⟩
    unfold dealiasFrom
    split
    · exact .refl _
    · split
      · exact .refl _
      · exact (substitute_keeps (by omega) _ _ _).bind fun b ↦ ih (by omega) _ b

theorem dealias_keeps (t : Ty) : Keeps (u.dealias n t) (u.dealias m t) :=
  u.dealiasFrom_keeps h [] t

theorem dealiasResult_keeps (t : Ty) : Keeps (u.dealiasResult n t) (u.dealiasResult m t) :=
  (u.dealias_keeps h t).bind fun _ ↦ u.dealias_keeps h _

theorem headParams_keeps (t : Ty) : Keeps (u.headParams n t) (u.headParams m t) :=
  (u.dealias_keeps h t).bind fun _ ↦ .refl _

omit h in
theorem linearize_keeps {visit visit' : List SymbolId → Ty → Option (List SymbolId)}
    (hv : ∀ visiting t, Keeps (visit visiting t) (visit' visiting t))
    (visiting : List SymbolId) (s : SymbolId) :
    Keeps (u.linearize visit visiting s) (u.linearize visit' visiting s) := by
  unfold linearize
  split
  · exact .refl _
  · dsimp only
    split
    · exact hv _ _
    · exact hv _ _
    · split
      · exact hv _ _
      · exact .refl _
    all_goals first
      | exact (Keeps.mapM (fun p ↦ hv _ p) _).bind fun _ ↦ .refl _
      | exact .refl _

theorem lineage_keeps (visiting : List SymbolId) (t : Ty) :
    Keeps (u.lineage n visiting t) (u.lineage m visiting t) := by
  induction n generalizing m visiting t with
  | zero => exact .none _
  | succ n ih =>
    obtain ⟨m, rfl⟩ : ∃ k, m = k + 1 := ⟨m - 1, by omega⟩
    have hl : ∀ V t, Keeps (u.lineage n V t) (u.lineage m V t) := fun V t ↦ ih (by omega) V t
    refine (u.dealias_keeps (by omega) t).bind fun d ↦ ?_
    cases d with
    | ref q s as => exact u.linearize_keeps hl visiting s
    | single q s =>
      dsimp only
      split
      · exact u.linearize_keeps hl visiting s
      · split
        · exact .refl _
        · exact hl _ _
    | self s => exact u.linearize_keeps hl visiting s
    | refined ps ms => exact (Keeps.mapM (fun p ↦ hl _ p) _).bind fun _ ↦ .refl _
    | poly ps r => exact hl _ _
    | constant v => exact .refl _
    | bounds l h => exact .refl _

theorem baseClasses_keeps (t : Ty) : Keeps (u.baseClasses n t) (u.baseClasses m t) :=
  (u.lineage_keeps h [] t).bind fun _ ↦ .refl _

omit h in
theorem findInParents_keeps {find find' : List SymbolId → Ty → Option (Option Ty)}
    (hf : ∀ visiting t, Keeps (find visiting t) (find' visiting t))
    {specialise specialise' : Ty → Option Ty} (hs : ∀ t, Keeps (specialise t) (specialise' t))
    (visiting : List SymbolId) (s : SymbolId) :
    Keeps (u.findInParents find visiting s specialise)
      (u.findInParents find' visiting s specialise') := by
  unfold findInParents
  split
  · exact .refl _
  · exact Keeps.findSomeM? (fun p ↦ (hs p).bind fun _ ↦ hf _ _) _

theorem specialise_keeps (s : SymbolId) (args : List Ty) (p : Ty) :
    Keeps (u.specialise n s args p) (u.specialise m s args p) := by
  unfold specialise
  dsimp only
  split
  · exact substitute_keeps h _ _ _
  · exact .refl _

theorem findAboveRef_keeps {find find' : List SymbolId → Ty → Option (Option Ty)}
    (hf : ∀ visiting t, Keeps (find visiting t) (find' visiting t)) (visiting : List SymbolId)
    (s : SymbolId) (args : List Ty) :
    Keeps (u.findAboveRef find n visiting s args) (u.findAboveRef find' m visiting s args) := by
  unfold findAboveRef
  split
  · exact hf _ _
  · exact hf _ _
  · exact u.findInParents_keeps hf (u.specialise_keeps h s args) _ _
  · exact u.findInParents_keeps hf (u.specialise_keeps h s args) _ _
  · exact .refl _

omit h in
theorem findAboveSingle_keeps {find find' : List SymbolId → Ty → Option (Option Ty)}
    (hf : ∀ visiting t, Keeps (find visiting t) (find' visiting t)) (visiting : List SymbolId)
    (s : SymbolId) :
    Keeps (u.findAboveSingle find visiting s) (u.findAboveSingle find' visiting s) := by
  unfold findAboveSingle
  dsimp only
  split
  · split
    · exact .refl _
    · exact hf _ _
  · exact u.findInParents_keeps hf (fun p ↦ .refl _) _ _

theorem findBase_keeps (c : SymbolId) (visiting : List SymbolId) (t : Ty) :
    Keeps (u.findBase c n visiting t) (u.findBase c m visiting t) := by
  induction n generalizing m visiting t with
  | zero => exact .none _
  | succ n ih =>
    obtain ⟨m, rfl⟩ : ∃ k, m = k + 1 := ⟨m - 1, by omega⟩
    have hnm : n ≤ m := by omega
    have hf : ∀ V t, Keeps (u.findBase c n V t) (u.findBase c m V t) := fun V t ↦ ih hnm V t
    refine (u.dealias_keeps hnm t).bind fun d ↦ ?_
    cases d with
    | ref q s as =>
      dsimp only
      split
      · exact .refl _
      · exact u.findAboveRef_keeps hnm hf _ _ _
    | single q s =>
      dsimp only
      split
      · exact .refl _
      · exact u.findAboveSingle_keeps hf _ _
    | self s =>
      dsimp only
      split
      · exact .refl _
      · exact hf _ _
    | refined ps ms => exact Keeps.findSomeM? (fun p ↦ hf _ p) _
    | poly ps r => exact hf _ _
    | constant v => exact .refl _
    | bounds l h => exact .refl _

theorem baseType_keeps (t : Ty) (c : SymbolId) : Keeps (u.baseType n t c) (u.baseType m t c) :=
  (u.findBase_keeps h c [] t).bind fun _ ↦ .refl _

theorem expansionArgs_keeps (t : Ty) : Keeps (u.expansionArgs n t) (u.expansionArgs m t) := by
  unfold expansionArgs
  dsimp only
  split
  · exact .refl _
  · exact (u.dealias_keeps h _).bind fun _ ↦ .refl _

theorem withBounds_keeps (t : Ty) : Keeps (u.withBounds n t) (u.withBounds m t) :=
  (u.dealias_keeps h t).bind fun _ ↦ .refl _

theorem successors_keeps (t : Ty) : Keeps (u.successors n t) (u.successors m t) :=
  (u.dealias_keeps h t).bind fun _ ↦ (u.expansionArgs_keeps h t).bind fun _ ↦
    (Keeps.mapM (fun a ↦ u.withBounds_keeps h a) _).bind fun _ ↦ .refl _

theorem reachable_keeps (t : Ty) : Keeps (u.reachable n t) (u.reachable m t) :=
  explore_keeps (fun t ↦ u.successors_keeps h t) h _ _

theorem ancestors_keeps (t : Ty) : Keeps (u.ancestors n t) (u.ancestors m t) :=
  (u.dealiasResult_keeps h _).bind fun _ ↦ (u.baseClasses_keeps h _).bind fun _ ↦
    (Keeps.mapM (fun c ↦ u.baseType_keeps h _ c) _).bind fun _ ↦ .refl _

theorem closeOverAncestors_keeps (ts : List Ty) :
    Keeps (u.closeOverAncestors n ts) (u.closeOverAncestors m ts) :=
  explore_keeps (fun t ↦ u.ancestors_keeps h t) h _ _

theorem flattenFrom_keeps {k l : Nat} (hk : k ≤ l) (stack parts : List Ty)
    (members : List (Member Ty)) :
    Keeps (u.flattenFrom n k stack parts members) (u.flattenFrom m l stack parts members) := by
  induction k generalizing l stack parts members with
  | zero =>
    cases stack with
    | nil => simpa only [flattenFrom] using .refl _
    | cons t stack => exact .none _
  | succ k ih =>
    obtain ⟨l, rfl⟩ : ∃ j, l = j + 1 := ⟨l - 1, by omega⟩
    cases stack with
    | nil => simpa only [flattenFrom] using .refl _
    | cons t stack =>
      refine (u.dealias_keeps h t).bind fun d ↦ ?_
      split <;> exact ih (by omega) _ _ _

theorem flatten_keeps (t : Ty) : Keeps (u.flatten n t) (u.flatten m t) :=
  (u.flattenFrom_keeps h h _ _ _).bind fun _ ↦ .refl _

section Dealias

omit h

variable {u} {t : Ty}

theorem aliasRedex?_ref {q : Option Ty} {s : SymbolId} {as : List Ty}
    (h : u.kind s ≠ .typeAlias ∨ (u.entry s).body = none) :
    u.aliasRedex? (.ref q s as) = none := by
  unfold aliasRedex?
  dsimp only
  split
  · next hk hb => exact absurd hb (by rcases h with h | h <;> simp_all [kind])
  · rfl

theorem dealias_of_aliasRedex?_eq_none (h : u.aliasRedex? t = none) (n : Nat) :
    u.dealias n t = some t := by
  rw [dealias, dealiasFrom.eq_def, h]

theorem dealias_of_kind_ne {q : Option Ty} {s : SymbolId} {as : List Ty}
    (hs : u.kind s ≠ .typeAlias) (n : Nat) : u.dealias n (.ref q s as) = some (.ref q s as) :=
  dealias_of_aliasRedex?_eq_none (aliasRedex?_ref (.inl hs)) n

theorem dealias_single (q : Option Ty) (s : SymbolId) (n : Nat) :
    u.dealias n (.single q s) = some (.single q s) :=
  dealias_of_aliasRedex?_eq_none rfl n

theorem substitute_unique {ps : List SymbolId} {as : List Ty} {b d e : Ty}
    (hd : b.substitute n ps as = some d) (he : b.substitute m ps as = some e) : d = e :=
  unique_of_keeps (q := fun n ↦ b.substitute n ps as) (fun _ _ h ↦ substitute_keeps h _ _ _) hd he

theorem dealias_unique {d e : Ty} (hd : u.dealias n t = some d) (he : u.dealias m t = some e) :
    d = e :=
  unique_of_keeps (fun _ _ h ↦ u.dealias_keeps h t) hd he

theorem flatten_unique {f g : Flattening} (hf : u.flatten n t = some f)
    (hg : u.flatten m t = some g) : f = g :=
  unique_of_keeps (fun _ _ h ↦ u.flatten_keeps h t) hf hg

theorem ancestors_unique {bs cs : List Ty} (hb : u.ancestors n t = some bs)
    (hc : u.ancestors m t = some cs) : bs = cs :=
  unique_of_keeps (fun _ _ h ↦ u.ancestors_keeps h t) hb hc

end Dealias

end SymbolTable

end TypeTag
