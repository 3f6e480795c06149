import TypeTag.Build.Exploration
import TypeTag.Build.Flattening
import TypeTag.Proofs.Renaming.Table

namespace TypeTag

section Option

variable {α β γ δ : Type} {ρ : α → β} {σ : γ → δ}

theorem bind_renamed {x : Option α} {y : Option β} {k : α → Option γ} {g : β → Option δ}
    (hx : y = x.map ρ) (h : ∀ a, g (ρ a) = (k a).map σ) : y >>= g = (x >>= k).map σ := by
  subst hx
  cases x with
  | none => rfl
  | some a => exact h a

theorem mapM_renamed {k : α → Option γ} {g : β → Option δ} (h : ∀ a, g (ρ a) = (k a).map σ)
    (l : List α) : (l.map ρ).mapM g = (l.mapM k).map (List.map σ) := by
  induction l with
  | nil => rfl
  | cons a l ih =>
    rw [List.map_cons, List.mapM_cons, List.mapM_cons]
    exact bind_renamed (h a) fun b ↦ bind_renamed ih fun bs ↦ rfl

theorem findSomeM?_renamed {k : α → Option (Option γ)} {g : β → Option (Option δ)}
    (h : ∀ a, g (ρ a) = (k a).map (Option.map σ)) (l : List α) :
    (l.map ρ).findSomeM? g = (l.findSomeM? k).map (Option.map σ) := by
  induction l with
  | nil => rfl
  | cons a l ih =>
    refine bind_renamed (h a) fun b ↦ ?_
    cases b with
    | none => exact ih
    | some b => rfl

end Option

section List

variable {α β : Type} [BEq α] [LawfulBEq α] [BEq β] [LawfulBEq β] {f : α → β}
  (hf : Function.Injective f)

include hf

theorem eraseDups_map (l : List α) : (l.map f).eraseDups = l.eraseDups.map f := by
  induction h : l.length using Nat.strong_induction_on generalizing l with
  | _ n ih =>
    cases l with
    | nil => rfl
    | cons a l =>
      rw [List.map_cons, List.eraseDups_cons, List.eraseDups_cons, List.map_cons, List.filter_map]
      have hp : ((fun b ↦ !b == f a) ∘ f) = fun b ↦ !b == a := by
        funext b
        simp [hf.eq_iff]
      rw [hp, ih _ _ _ rfl]
      rw [← h, List.length_cons]
      exact Nat.lt_succ_of_le (List.length_filter_le _ _)

end List

namespace SymbolTable.Renaming

open Ty

variable {u v : SymbolTable} {f : SymbolId → SymbolId} (hf : Renaming u v f) (n : Nat)

include hf

theorem aliasRedex? (t : Ty) :
    v.aliasRedex? (t.rename f) =
      (u.aliasRedex? t).map fun p ↦ (p.1.map f, p.2.1.map (rename f), p.2.2.rename f) := by
  cases t with
  | ref q s as =>
    simp only [rename_ref, SymbolTable.aliasRedex?, hf.entry, SymbolEntry.rename, List.length_map]
    cases (u.entry s).kind with
    | typeAlias =>
      cases (u.entry s).body with
      | none => rfl
      | some b =>
        simp only [Option.map_some]
        split <;> rfl
    | _ => rfl
  | _ => simp [SymbolTable.aliasRedex?]

theorem dealiasFrom (seen : List Measured) (t : Ty) :
    v.dealiasFrom n (seen.map (Measured.rename f)) (t.rename f) =
      (u.dealiasFrom n seen t).map (rename f) := by
  induction n generalizing seen t with
  | zero =>
    unfold SymbolTable.dealiasFrom
    rw [hf.aliasRedex?, Measured.measured_rename, Measured.contains_rename hf.injective]
    cases u.aliasRedex? t with
    | none => rfl
    | some p =>
      dsimp only [Option.map_some]
      split <;> rfl
  | succ n ih =>
    unfold SymbolTable.dealiasFrom
    rw [hf.aliasRedex?, Measured.measured_rename, Measured.contains_rename hf.injective]
    cases u.aliasRedex? t with
    | none => rfl
    | some p =>
      dsimp only [Option.map_some]
      split
      · rfl
      · exact bind_renamed (substitute_rename hf.injective n _ _ _) fun b ↦
          ih (t.measured :: seen) b

theorem dealias (t : Ty) : v.dealias n (t.rename f) = (u.dealias n t).map (rename f) :=
  hf.dealiasFrom n [] t

theorem dealiasResult (t : Ty) :
    v.dealiasResult n (t.rename f) = (u.dealiasResult n t).map (rename f) :=
  bind_renamed (hf.dealias n t) fun d ↦ by rw [resultType_rename, hf.dealias]

theorem headParams (t : Ty) : v.headParams n (t.rename f) = (u.headParams n t).map (List.map f) :=
  bind_renamed (hf.dealias n t) fun d ↦ by cases d <;> simp [hf.typeParams_entry]

theorem linearize {visit visit' : List SymbolId → Ty → Option (List SymbolId)}
    (hv : ∀ V t, visit' (V.map f) (t.rename f) = (visit V t).map (List.map f))
    (visiting : List SymbolId) (s : SymbolId) :
    v.linearize visit' (visiting.map f) (f s) =
      (u.linearize visit visiting s).map (List.map f) := by
  unfold SymbolTable.linearize
  rw [hf.contains]
  split
  · rfl
  · have hc : f s :: visiting.map f = (s :: visiting).map f := rfl
    have hps : ((u.entry s).parents.map (rename f)).mapM (visit' ((s :: visiting).map f)) =
        ((u.entry s).parents.mapM (visit (s :: visiting))).map (List.map (List.map f)) :=
      mapM_renamed (hv (s :: visiting)) _
    simp only [hf.entry, SymbolEntry.rename, hf.boundsOf, hc, hv]
    cases (u.entry s).kind with
    | typeAlias =>
      cases (u.entry s).body with
      | none => rfl
      | some b => exact hv (s :: visiting) b
    | cls | object | refinement =>
      exact bind_renamed hps fun ls ↦ by simp [List.map_flatten]
    | _ => rfl

theorem lineage (visiting : List SymbolId) (t : Ty) :
    v.lineage n (visiting.map f) (t.rename f) = (u.lineage n visiting t).map (List.map f) := by
  induction n generalizing visiting t with
  | zero => rfl
  | succ n ih =>
    refine bind_renamed (hf.dealias n t) fun d ↦ ?_
    cases d with
    | ref q s as => simpa using hf.linearize ih visiting s
    | single q s =>
      simp only [rename_single, hf.kind, hf.termType, isSingle_rename]
      split
      · exact hf.linearize ih visiting s
      · split
        · rfl
        · exact ih visiting _
    | self s => simpa using hf.linearize ih visiting s
    | refined ps ms =>
      simp only [rename_refined]
      exact bind_renamed (mapM_renamed (ih visiting) ps) fun ls ↦ by simp [List.map_flatten]
    | poly ps r => exact ih visiting r
    | constant w => rfl
    | bounds l h => rfl

omit n in
theorem moveLast (s : SymbolId) (l : List SymbolId) :
    (l.map f).filter (· != f s) ++ [f s] = (l.filter (· != s) ++ [s]).map f := by
  have hp : ((· != f s) ∘ f) = (· != s) := by
    funext x
    simp [bne, hf.beq]
  rw [List.filter_map, hp, List.map_append, List.map_singleton]

omit n in
theorem closeBases (bases : List SymbolId) :
    v.closeBases (bases.map f) = (u.closeBases bases).map f := by
  have hend (l : List SymbolId) :
      (if (l.map f).isEmpty then [] else (l.map f).filter (· != f u.any) ++ [f u.any]) =
        (if l.isEmpty then [] else l.filter (· != u.any) ++ [u.any]).map f := by
    rw [List.isEmpty_map]
    split
    · rfl
    · exact hf.moveLast _ _
  unfold SymbolTable.closeBases
  simp only [hf.any, hf.anyRef, List.any_map, Function.comp_def, hf.isUniversal]
  split
  · rw [hf.moveLast, hend]
  · exact hend bases

theorem baseClasses (t : Ty) :
    v.baseClasses n (t.rename f) = (u.baseClasses n t).map (List.map f) :=
  bind_renamed (hf.lineage n [] t) fun bases ↦ by
    rw [eraseDups_map hf.injective, hf.closeBases]
    rfl

theorem findInParents {find find' : List SymbolId → Ty → Option (Option Ty)}
    (hfind : ∀ V t, find' (V.map f) (t.rename f) = (find V t).map (Option.map (rename f)))
    {specialise specialise' : Ty → Option Ty}
    (hs : ∀ t, specialise' (t.rename f) = (specialise t).map (rename f))
    (visiting : List SymbolId) (s : SymbolId) :
    v.findInParents find' (visiting.map f) (f s) specialise' =
      (u.findInParents find visiting s specialise).map (Option.map (rename f)) := by
  unfold SymbolTable.findInParents
  rw [hf.contains, hf.entry]
  split
  · rfl
  · refine findSomeM?_renamed (fun p ↦ ?_) _
    exact bind_renamed (hs p) fun q ↦ hfind (s :: visiting) q

theorem specialise (s : SymbolId) (args : List Ty) (p : Ty) :
    v.specialise n (f s) (args.map (rename f)) (p.rename f) =
      (u.specialise n s args p).map (rename f) := by
  unfold SymbolTable.specialise
  simp only [List.length_map, hf.typeParams_entry]
  split
  · exact substitute_rename hf.injective n _ _ _
  · rfl

theorem findAboveRef {find find' : List SymbolId → Ty → Option (Option Ty)}
    (hfind : ∀ V t, find' (V.map f) (t.rename f) = (find V t).map (Option.map (rename f)))
    (visiting : List SymbolId) (s : SymbolId) (args : List Ty) :
    v.findAboveRef find' n (visiting.map f) (f s) (args.map (rename f)) =
      (u.findAboveRef find n visiting s args).map (Option.map (rename f)) := by
  unfold SymbolTable.findAboveRef
  simp only [hf.kind, hf.boundsOf, hfind]
  cases u.kind s with
  | cls | refinement =>
    exact hf.findInParents hfind (hf.specialise n s args) visiting s
  | _ => rfl

theorem findAboveSingle {find find' : List SymbolId → Ty → Option (Option Ty)}
    (hfind : ∀ V t, find' (V.map f) (t.rename f) = (find V t).map (Option.map (rename f)))
    (visiting : List SymbolId) (s : SymbolId) :
    v.findAboveSingle find' (visiting.map f) (f s) =
      (u.findAboveSingle find visiting s).map (Option.map (rename f)) := by
  unfold SymbolTable.findAboveSingle
  simp only [hf.kind, hf.termType, isSingle_rename]
  split
  · split
    · rfl
    · exact hfind visiting _
  · exact hf.findInParents hfind (fun p ↦ rfl) visiting s

theorem findBase (c : SymbolId) (visiting : List SymbolId) (t : Ty) :
    v.findBase (f c) n (visiting.map f) (t.rename f) =
      (u.findBase c n visiting t).map (Option.map (rename f)) := by
  induction n generalizing visiting t with
  | zero => rfl
  | succ n ih =>
    refine bind_renamed (hf.dealias n t) fun d ↦ ?_
    cases d with
    | ref q s as =>
      simp only [rename_ref, hf.injective.eq_iff]
      split
      · simp
      · exact hf.findAboveRef n ih visiting s as
    | single q s =>
      simp only [rename_single, hf.injective.eq_iff]
      split
      · simp
      · exact hf.findAboveSingle ih visiting s
    | self s =>
      simp only [rename_self, hf.injective.eq_iff, hf.symbolType]
      split
      · rfl
      · exact ih visiting _
    | refined ps ms =>
      simp only [rename_refined]
      exact findSomeM?_renamed (ih visiting) ps
    | poly ps r => exact ih visiting r
    | constant w => rfl
    | bounds l h => rfl

theorem baseType (t : Ty) (c : SymbolId) :
    v.baseType n (t.rename f) (f c) = (u.baseType n t c).map (Option.map (rename f)) :=
  bind_renamed (hf.findBase n c [] t) fun b ↦ by
    cases b with
    | some b => rfl
    | none =>
      simp only [Option.map_none, hf.isUniversal, hf.typeRef]
      split <;> rfl

omit hf in
theorem explore_renamed (hf : Function.Injective f) {next next' : Ty → Option (List Ty)}
    (hn : ∀ t, next' (t.rename f) = (next t).map (List.map (rename f)))
    (stack seen : List Measured) :
    explore next' n (stack.map (Measured.rename f)) (seen.map (Measured.rename f)) =
      (explore next n stack seen).map (List.map (rename f)) := by
  induction n generalizing stack seen with
  | zero => cases stack <;> simp [explore, Measured.rename]
  | succ n ih =>
    cases stack with
    | nil => simp [explore, Measured.rename]
    | cons t stack =>
      rw [List.map_cons, explore, explore, Measured.contains_rename hf]
      split
      · exact ih stack seen
      · refine bind_renamed (hn t.type) fun ts ↦ ?_
        have hp : ((fun m ↦ !((seen ++ [t]).map (Measured.rename f)).contains m) ∘
            Measured.rename f) = fun m ↦ !(seen ++ [t]).contains m :=
          funext fun m ↦ congrArg not (Measured.contains_rename hf (seen ++ [t]) m)
        have hfound : (ts.map (rename f)).map Ty.measured =
            (ts.map Ty.measured).map (Measured.rename f) := by
          simp [Function.comp_def]
        have hseen : seen.map (Measured.rename f) ++ [t.rename f] =
            (seen ++ [t]).map (Measured.rename f) := by simp
        dsimp only
        rw [hfound, hseen, List.filter_map, hp, ← List.map_append, ih]

theorem expansionArgs (t : Ty) :
    v.expansionArgs n (t.rename f) = (u.expansionArgs n t).map (List.map (rename f)) := by
  unfold SymbolTable.expansionArgs
  simp only [hf.typeParams, List.isEmpty_map, hf.etaExpand, resultType_rename]
  split
  · rfl
  · refine bind_renamed (hf.dealias n _) fun d ↦ ?_
    have hp : ((fun a : Ty ↦ !a.symbol?.any ((u.typeParams t).map f).contains) ∘ rename f) =
        fun a ↦ !a.symbol?.any (u.typeParams t).contains := by
      funext a
      rw [Function.comp_apply, symbol?_rename]
      cases a.symbol? with
      | none => rfl
      | some s => exact congrArg not (hf.contains (u.typeParams t) s)
    rw [args_rename, List.filter_map, hp]
    rfl

theorem withBounds (t : Ty) :
    v.withBounds n (t.rename f) = (u.withBounds n t).map (List.map (rename f)) := by
  refine bind_renamed (hf.dealias n t) fun d ↦ ?_
  dsimp only
  rw [resultType_rename, symbol?_rename]
  cases d.resultType.symbol? with
  | none => rfl
  | some s =>
    simp only [Option.map_some, hf.signature]
    cases u.signature s <;> rfl

theorem successors (t : Ty) :
    v.successors n (t.rename f) = (u.successors n t).map (List.map (rename f)) := by
  refine bind_renamed (hf.dealias n t) fun d ↦ ?_
  refine bind_renamed (hf.expansionArgs n t) fun as ↦ ?_
  have hargs : (t.rename f).args ++ (d.rename f).resultType.args ++ as.map (rename f) =
      (t.args ++ d.resultType.args ++ as).map (rename f) := by simp
  have hm := mapM_renamed (hf.withBounds n) (t.args ++ d.resultType.args ++ as)
  dsimp only
  rw [hargs]
  exact bind_renamed hm fun ls ↦ by simp [List.map_flatten]

theorem reachable (t : Ty) :
    v.reachable n (t.rename f) = (u.reachable n t).map (List.map (rename f)) := by
  unfold SymbolTable.reachable
  rw [Measured.measured_rename]
  exact explore_renamed n hf.injective (hf.successors n) [t.measured] []

theorem ancestors (t : Ty) :
    v.ancestors n (t.rename f) = (u.ancestors n t).map (List.map (rename f)) := by
  unfold SymbolTable.ancestors
  rw [hf.etaExpand]
  refine bind_renamed (hf.dealiasResult n _) fun d ↦ ?_
  refine bind_renamed (hf.baseClasses n d) fun bases ↦ ?_
  have hp : ((fun b ↦ !v.isUniversal b && (d.rename f).symbol? != some b) ∘ f) =
      fun b ↦ !u.isUniversal b && d.symbol? != some b := by
    funext b
    rw [Function.comp_apply, hf.isUniversal, symbol?_rename]
    cases d.symbol? <;> simp [bne, hf.beq]
  dsimp only
  rw [List.filter_map, hp]
  refine bind_renamed (mapM_renamed (hf.baseType n d) _) fun forms ↦ ?_
  have hid : ((forms.map (Option.map (rename f))).filterMap id) =
      (forms.filterMap id).map (rename f) := by
    rw [List.filterMap_map, List.map_filterMap]
    rfl
  have hne : ((fun b : Ty ↦ decide (b ≠ d.rename f)) ∘ rename f) = fun b ↦ decide (b ≠ d) := by
    funext b
    simp [(rename_injective hf.injective).eq_iff]
  rw [hid, List.filter_map, hne]
  rfl

theorem closeOverAncestors (ts : List Ty) :
    v.closeOverAncestors n (ts.map (rename f)) =
      (u.closeOverAncestors n ts).map (List.map (rename f)) := by
  have hts : (ts.map (rename f)).map Ty.measured = (ts.map Ty.measured).map (Measured.rename f) := by
    simp [Function.comp_def]
  unfold SymbolTable.closeOverAncestors
  rw [hts]
  exact explore_renamed n hf.injective (hf.ancestors n) _ []

theorem flattenFrom (m : Nat) (stack parts : List Ty) (members : List (Member Ty)) :
    v.flattenFrom n m (stack.map (rename f)) (parts.map (rename f))
        (members.map (Member.map (rename f))) =
      (u.flattenFrom n m stack parts members).map fun p ↦
        (p.1.map (rename f), p.2.map (Member.map (rename f))) := by
  induction m generalizing stack parts members with
  | zero => cases stack <;> simp [SymbolTable.flattenFrom]
  | succ m ih =>
    cases stack with
    | nil => simp [SymbolTable.flattenFrom]
    | cons t stack =>
      have hc : (parts.map (rename f)).contains (t.rename f) = parts.contains t := by
        simp [(rename_injective hf.injective).eq_iff]
      have hparts : (if (parts.map (rename f)).contains (t.rename f) then parts.map (rename f)
          else parts.map (rename f) ++ [t.rename f]) =
          (if parts.contains t then parts else parts ++ [t]).map (rename f) := by
        rw [hc]
        split <;> simp
      refine bind_renamed (hf.dealias n t) fun d ↦ ?_
      cases d with
      | refined ps ms =>
        simp only [rename_refined, ← List.map_append]
        exact ih _ _ _
      | ref | single | self | constant | poly | bounds =>
        simp only [rename_ref, rename_single, rename_self, rename_constant, rename_poly,
          rename_bounds, hparts]
        exact ih _ _ _

end SymbolTable.Renaming

def Flattening.rename (f : SymbolId → SymbolId) : Flattening → Flattening
  | single t => single (t.rename f)
  | compound parts members => compound (parts.map (Ty.rename f)) (members.map (Member.map (Ty.rename f)))

theorem SymbolTable.Renaming.flatten {u v : SymbolTable} {f : SymbolId → SymbolId}
    (hf : Renaming u v f) (n : Nat) (t : Ty) :
    v.flatten n (t.rename f) = (u.flatten n t).map (Flattening.rename f) := by
  refine bind_renamed (hf.flattenFrom n n [t] [] []) fun p ↦ ?_
  obtain ⟨parts, members⟩ := p
  rcases parts with _ | ⟨t, _ | ⟨t', parts⟩⟩ <;> cases members <;> rfl

end TypeTag
