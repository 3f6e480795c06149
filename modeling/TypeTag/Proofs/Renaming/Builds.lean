import TypeTag.Build.Reference
import TypeTag.Proofs.Renaming.Queries
import TypeTag.Proofs.Steps.Ends

namespace TypeTag

section Outcome

variable (f : SymbolId → SymbolId)

def BuildError.rename : BuildError → BuildError
  | nameless t => nameless (t.rename f)
  | improperQualifier t d => improperQualifier (t.rename f) d
  | improperMember t m d => improperMember (t.rename f) m d

def Event.rename : Event → Event
  | describing t l force => describing (t.rename f) l force
  | cut t => cut (t.rename f)
  | unusedParams t l => unusedParams (t.rename f) l
  | boundsSuppressed l u => boundsSuppressed (l.rename f) (u.rename f)
  | collapsed b => collapsed b
  | stableBase c p => stableBase c p
  | cacheHit k => cacheHit (k.rename f)
  | cacheMiss k => cacheMiss (k.rename f)
  | tagBuilt r c s n => tagBuilt r c s n

namespace Build

variable {α β γ δ : Type}

def rename (ρ : α → β) : Build α → Build β
  | exhausted => exhausted
  | done log (.error e) => done (log.map (Event.rename f)) (.error (e.rename f))
  | done log (.ok a) => done (log.map (Event.rename f)) (.ok (ρ a))

variable {f}

@[simp]
theorem outcome_rename (b : Build α) : (b.rename f id).outcome = b.outcome := by
  rcases b with _ | ⟨log, _ | a⟩ <;> rfl

@[simp]
theorem rename_pure (ρ : α → β) (a : α) : (Pure.pure a : Build α).rename f ρ = Pure.pure (ρ a) := rfl

theorem emit_renamed {e e' : Event} (h : e' = e.rename f) :
    emit e' = (emit e).rename f id := by
  rw [h]
  rfl

theorem bind_renamed {ρ : α → β} {σ : γ → δ} {x : Build α} {y : Build β} {k : α → Build γ}
    {g : β → Build δ} (hx : y = x.rename f ρ) (h : ∀ a, g (ρ a) = (k a).rename f σ) :
    y >>= g = (x >>= k).rename f σ := by
  subst hx
  change Build.bind _ _ = (Build.bind _ _).rename f σ
  rcases x with _ | ⟨log, e | a⟩
  · rfl
  · rfl
  · rw [rename]
    simp only [Build.bind, h]
    rcases k a with _ | ⟨log', e | c⟩ <;> simp [rename]

theorem lift_renamed {ρ : α → β} {x : Option α} {y : Option β} (h : y = x.map ρ) :
    (liftM y : Build β) = (liftM x : Build α).rename f ρ := by
  subst h
  cases x <;> rfl

theorem mapM_renamed {ρ : α → β} {σ : γ → δ} {k : α → Build γ} {g : β → Build δ}
    (h : ∀ a, g (ρ a) = (k a).rename f σ) (l : List α) :
    (l.map ρ).mapM g = (l.mapM k).rename f (List.map σ) := by
  induction l with
  | nil => rfl
  | cons a l ih =>
    rw [List.map_cons, List.mapM_cons, List.mapM_cons]
    exact bind_renamed (h a) fun b ↦ bind_renamed ih fun bs ↦ rfl

theorem mapM_same {ρ : α → β} {k : α → Build γ} {g : β → Build γ}
    (h : ∀ a, g (ρ a) = (k a).rename f id) (l : List α) :
    (l.map ρ).mapM g = (l.mapM k).rename f id := by
  have hm := mapM_renamed h l
  rwa [List.map_id_fun] at hm

end Build

def Trail.rename (p : Trail Measured) : Trail Measured where
  counts := p.counts.map fun e ↦ (e.1.rename f, e.2)
  depth := p.depth

end Outcome

namespace Trail

variable {f : SymbolId → SymbolId} (hf : Function.Injective f) (p : Trail Measured) (m : Measured)

include hf

theorem lookup_rename (l : List (Measured × Nat)) :
    (l.map fun e ↦ (e.1.rename f, e.2)).lookup (m.rename f) = l.lookup m := by
  induction l with
  | nil => rfl
  | cons e l ih =>
    have he : (m.rename f == e.1.rename f) = (m == e.1) := by
      simp [(Measured.rename_injective hf).eq_iff]
    rw [List.map_cons, List.lookup_cons, List.lookup_cons, he, ih]

theorem contains_rename : (p.rename f).contains (m.rename f) = p.contains m := by
  rw [contains, contains, rename, lookup_rename hf]

theorem enter_rename : (p.rename f).enter (m.rename f) = (p.enter m).rename f := by
  have he (e : Measured) : (e.rename f == m.rename f) = (e == m) := by
    simp [(Measured.rename_injective hf).eq_iff]
  unfold enter
  rw [contains_rename hf]
  simp only [rename, mk.injEq, and_true]
  split
  · simp only [List.map_map, Function.comp_def, he]
    refine List.map_congr_left fun e _ ↦ ?_
    split <;> rfl
  · rfl

end Trail

/-- What is inside a type is described alike before and after the symbols are renumbered. -/
structure Recursion.Renamed (f : SymbolId → SymbolId) (r r' : Recursion) : Prop where
  nested : ∀ trail ρ t,
    r'.nested (trail.rename f) ρ (t.rename f) = (r.nested trail ρ t).rename f id
  termQualifier : ∀ s, r'.termQualifier (f s) = (r.termQualifier s).rename f id

namespace SymbolTable.Renaming

open Ty

variable {u v : SymbolTable} {f : SymbolId → SymbolId} (hf : Renaming u v f) (n : Nat)

include hf

theorem symName (s : SymbolId) : v.symName (f s) = u.symName s := by
  simp only [SymbolTable.symName, hf.isTerm, hf.fullName, hf.entry, SymbolEntry.rename,
    Option.any_map, hf.isTransparent]

theorem placeholder? (ρ : Bindings) (t : Ty) :
    v.placeholder? ρ (t.rename f) = u.placeholder? ρ t := by
  rw [SymbolTable.placeholder?, SymbolTable.placeholder?, symbol?_rename]
  cases t.symbol? with
  | none => rfl
  | some s => simp [hf.fullName]

theorem trail_contains (trail : Trail Measured) (t : Ty) :
    (trail.rename f).contains (t.rename f).measured = trail.contains t.measured := by
  rw [Measured.measured_rename, Trail.contains_rename hf.injective]

theorem argVariance (ps : List SymbolId) (i : Nat) :
    v.argVariance (ps.map f) i = u.argVariance ps i := by
  simp only [SymbolTable.argVariance, List.getElem?_map, Option.map_map, Function.comp_def,
    hf.entry, SymbolEntry.rename]

theorem placeholders (level : Nat) (ps : List SymbolId) :
    v.placeholders level (ps.map f) = u.placeholders level ps := by
  simp only [SymbolTable.placeholders, List.zipIdx_map, List.map_map]
  refine List.map_congr_left fun p _ ↦ ?_
  simp [hf.fullName]

section Describe

variable {r r' : Recursion} (hr : r.Renamed f r') (trail : Trail Measured) (ρ : Bindings)

include hr

theorem termName (s : SymbolId) : v.termName r' (f s) = (u.termName r s).rename f id := by
  unfold SymbolTable.termName
  rw [hf.resolveTerm]
  exact Build.bind_renamed (hr.termQualifier _) fun q ↦ by simp [hf.symName]

omit hf in
theorem describeQualifier (t q : Ty) :
    SymbolTable.describeQualifier r' (trail.rename f) ρ (t.rename f) (q.rename f) =
      (SymbolTable.describeQualifier r trail ρ t q).rename f id :=
  Build.bind_renamed (hr.nested trail ρ q) fun d ↦ by
    simp only [id]
    split <;> rfl

theorem qualifierOf (t : Ty) :
    v.qualifierOf r' (trail.rename f) ρ (t.rename f) =
      (u.qualifierOf r trail ρ t).rename f id := by
  unfold SymbolTable.qualifierOf
  rw [qualifier?_rename]
  cases t.qualifier? with
  | none => rfl
  | some q =>
    have hp : (q.rename f).symbol?.any v.isPackage = q.symbol?.any u.isPackage := by
      rw [symbol?_rename, Option.any_map]
      exact congrArg (q.symbol?.any ·) (funext hf.isPackage)
    simp only [Option.map_some, hp]
    split
    · rfl
    · cases q with
      | self s =>
        simp only [rename_self, hf.symbolType, isRefined_rename]
        split
        · rfl
        · exact Build.bind_renamed (describeQualifier hr trail ρ t _) fun d ↦ rfl
      | single q s =>
        rw [rename_single]
        exact Build.bind_renamed (hf.termName hr s) fun d ↦ rfl
      | _ => exact Build.bind_renamed (describeQualifier hr trail ρ t _) fun d ↦ rfl

theorem describeBounds (l h : Ty) :
    v.describeBounds r' (trail.rename f) ρ (l.rename f) (h.rename f) =
      (u.describeBounds r trail ρ l h).rename f id := by
  unfold SymbolTable.describeBounds
  rw [hf.isBottom, hf.isTop, hf.trail_contains, hf.trail_contains]
  split
  · rfl
  · split
    · exact Build.bind_renamed (Build.emit_renamed rfl) fun _ ↦ rfl
    · exact Build.bind_renamed (hr.nested trail ρ l) fun _ ↦
        Build.bind_renamed (hr.nested trail ρ h) fun _ ↦ rfl

theorem nameOf (t : Ty) (b : Boundaries Descriptor) (q : Option Descriptor) :
    v.nameOf r' (t.rename f) b q = (u.nameOf r t b q).rename f id := by
  cases t with
  | constant w => rfl
  | single p s =>
    rw [rename_single]
    exact Build.bind_renamed (hf.termName hr s) fun d ↦ rfl
  | ref p s as => simp [SymbolTable.nameOf, symbol?, hf.symName]
  | self s => simp [SymbolTable.nameOf, symbol?, hf.symName]
  | refined ps ms => rfl
  | bounds l h => rfl
  | poly ps b =>
    have hs := symbol?_rename f (poly ps b)
    simp only [SymbolTable.nameOf, rename_poly] at hs ⊢
    rw [hs]
    cases (poly ps b).symbol? with
    | none => rfl
    | some s => simp [hf.symName]

theorem describeCut (t : Ty) :
    v.describeCut r' (trail.rename f) ρ (t.rename f) =
      (u.describeCut r trail ρ t).rename f id := by
  unfold SymbolTable.describeCut
  rw [hf.placeholder?]
  cases u.placeholder? ρ t with
  | some p => rfl
  | none => exact Build.bind_renamed (hf.qualifierOf hr trail ρ t) fun q ↦
      Build.bind_renamed (hf.nameOf hr t _ q) fun d ↦ rfl

theorem boundariesOf (t : Ty) :
    v.boundariesOf r' (trail.rename f) ρ (t.rename f) =
      (u.boundariesOf r trail ρ t).rename f id := by
  unfold SymbolTable.boundariesOf
  rw [symbol?_rename]
  cases t.symbol? with
  | none => rfl
  | some s =>
    simp only [Option.map_some, hf.signature]
    cases u.signature s with
    | bounds l h => exact hf.describeBounds hr trail ρ l h
    | _ => rfl

theorem headName (t : Ty) (q : Option Descriptor) :
    v.headName r' (trail.rename f) ρ (t.rename f) q =
      (u.headName r trail ρ t q).rename f id := by
  unfold SymbolTable.headName
  rw [hf.placeholder?]
  cases u.placeholder? ρ t with
  | some p => rfl
  | none => exact Build.bind_renamed (hf.boundariesOf hr trail ρ t) fun b ↦ hf.nameOf hr t b q

theorem describeArgs (t : Ty) :
    v.describeArgs n r' (trail.rename f) ρ (t.rename f) =
      (u.describeArgs n r trail ρ t).rename f id := by
  refine Build.bind_renamed (Build.lift_renamed (hf.headParams n t)) fun ps ↦ ?_
  rw [args_rename, List.zipIdx_map]
  refine Build.mapM_same (fun p ↦ ?_) _
  exact Build.bind_renamed (hr.nested trail ρ p.1) fun d ↦ by
    simp only [id, hf.argVariance]
    rfl

theorem describeNamed (t : Ty) :
    v.describeNamed n r' (trail.rename f) ρ (t.rename f) =
      (u.describeNamed n r trail ρ t).rename f id := by
  refine Build.bind_renamed (Build.lift_renamed (hf.dealiasResult n t)) fun d ↦ ?_
  refine Build.bind_renamed (hf.qualifierOf hr trail ρ d) fun q ↦ ?_
  refine Build.bind_renamed (hf.headName hr trail ρ d q) fun name ↦ ?_
  rw [args_rename, List.isEmpty_map]
  split
  · rfl
  · exact Build.bind_renamed (hf.describeArgs n hr trail ρ d) fun as ↦ rfl

omit hf in
theorem describeSignatureType (member : String) (t : Ty) :
    SymbolTable.describeSignatureType r' (trail.rename f) ρ member (t.rename f) =
      (SymbolTable.describeSignatureType r trail ρ member t).rename f id :=
  Build.bind_renamed (hr.nested trail ρ t) fun d ↦ by
    simp only [id]
    split <;> rfl

theorem describeMember (m : Member Ty) :
    v.describeMember r' (trail.rename f) ρ (m.map (Ty.rename f)) =
      (u.describeMember r trail ρ m).rename f id := by
  cases m with
  | method name lists result =>
    refine Build.bind_renamed (describeSignatureType hr trail ρ name result) fun d ↦ ?_
    rw [List.isEmpty_map]
    split
    · rfl
    · refine Build.mapM_same (fun ps ↦ ?_) lists
      exact Build.bind_renamed
        (Build.mapM_same (describeSignatureType hr trail ρ name) ps) fun ds ↦ rfl
  | type name t =>
    cases t with
    | bounds l h => exact Build.bind_renamed (hf.describeBounds hr trail ρ l h) fun b ↦ rfl
    | _ => exact Build.bind_renamed (hr.nested trail ρ _) fun d ↦ rfl

omit hr in
theorem leaf (t : Ty) : v.leaf n (t.rename f) = (u.leaf n t).map (Ty.rename f) := by
  unfold SymbolTable.leaf
  rw [hf.takesTypeArgs]
  split
  · rfl
  · exact hf.dealias n t

theorem describeProper (t : Ty) :
    v.describeProper n r' (trail.rename f) ρ (t.rename f) =
      (u.describeProper n r trail ρ t).rename f id := by
  refine Build.bind_renamed (Build.lift_renamed (hf.flatten n t)) fun flat ↦ ?_
  cases flat with
  | single t =>
    exact Build.bind_renamed (Build.lift_renamed (hf.leaf n t)) fun d ↦
      hf.describeNamed n hr trail ρ d
  | compound parts members =>
    refine Build.bind_renamed (Build.mapM_same (hr.nested trail ρ) parts) fun ds ↦ ?_
    simp only [id, List.isEmpty_map]
    split
    · rfl
    · exact Build.bind_renamed (Build.mapM_same (hf.describeMember hr trail ρ) members)
        fun ds ↦ rfl

theorem describeBody (t result : Ty) :
    v.describeBody n r' (trail.rename f) ρ (t.rename f) (result.rename f) =
      (u.describeBody n r trail ρ t result).rename f id := by
  unfold SymbolTable.describeBody
  simp only [(rename_injective hf.injective).eq_iff]
  split
  · exact hf.describeProper n hr trail ρ result
  · exact hr.nested trail ρ result

omit hf hr in
theorem reportUnused (t : Ty) (l : Lambda) :
    SymbolTable.reportUnused (t.rename f) l = (SymbolTable.reportUnused t l).rename f id := by
  unfold SymbolTable.reportUnused
  split <;> rfl

theorem describeLambda (t : Ty) :
    v.describeLambda n r' (trail.rename f) ρ (t.rename f) =
      (u.describeLambda n r trail ρ t).rename f id := by
  unfold SymbolTable.describeLambda
  simp only [hf.etaExpand, hf.typeParams, hf.placeholders, Trail.level, Trail.rename]
  refine Build.bind_renamed (Build.lift_renamed (hf.dealiasResult n _)) fun d ↦ ?_
  refine Build.bind_renamed (hf.describeBody n hr trail _ t d) fun body ↦ ?_
  exact Build.bind_renamed (reportUnused t _) fun _ ↦ rfl

theorem describe (force : Bool) (t : Ty) :
    v.describe n r' (trail.rename f) ρ force (t.rename f) =
      (u.describe n r trail ρ force t).rename f id := by
  refine Build.bind_renamed (Build.emit_renamed rfl) fun _ ↦ ?_
  rw [isPoly_rename, hf.takesTypeArgs, hf.placeholder?]
  split
  · exact Build.bind_renamed (hf.describeProper n hr trail ρ t) fun _ ↦ rfl
  · split
    · exact hf.describeLambda n hr trail ρ t
    · exact hf.describeProper n hr trail ρ t

omit hr in
theorem isExpanding (t : Ty) :
    v.isExpanding n (trail.rename f) (t.rename f) = (u.isExpanding n trail t).map id := by
  unfold SymbolTable.isExpanding
  rw [symbol?_rename, Option.isNone_map, hf.trail_contains]
  split
  · rfl
  · split
    · rfl
    · exact bind_renamed (hf.dealias n t) fun d ↦ by
        rw [hf.trail_contains]
        rfl

theorem describeNested (t : Ty) :
    v.describeNested n r' (trail.rename f) ρ (t.rename f) =
      (u.describeNested n r trail ρ t).rename f id := by
  refine Build.bind_renamed (Build.lift_renamed (hf.isExpanding n trail t)) fun cut ↦ ?_
  rw [id, Measured.measured_rename, Trail.enter_rename hf.injective]
  split
  · exact Build.bind_renamed (Build.emit_renamed rfl) fun _ ↦ hf.describeCut hr trail ρ t
  · exact hf.describe n hr _ ρ false t

end Describe

theorem recursion : (u.recursion n).Renamed f (v.recursion n) := by
  induction n with
  | zero =>
    constructor
    · intro trail ρ t
      simp [SymbolTable.recursion, SymbolTable.nested, Build.rename]
    · intro s
      simp [SymbolTable.recursion, SymbolTable.termQualifier, Build.rename]
  | succ n ih =>
    constructor
    · intro trail ρ t
      simpa only [SymbolTable.recursion, SymbolTable.nested] using hf.describeNested n ih trail ρ t
    · intro s
      have he : Trail.empty.enter (v.single (f s)).measured =
          (Trail.empty.enter (u.single s).measured).rename f := by
        rw [hf.single, Measured.measured_rename, ← Trail.enter_rename hf.injective]
        rfl
      have hq := hf.qualifierOf ih (Trail.empty.enter (u.single s).measured) [] (u.single s)
      simpa only [SymbolTable.recursion, SymbolTable.termQualifier, he, ← hf.single] using hq

theorem describeAlone (ρ : Bindings) (force : Bool) (t : Ty) :
    v.describeAlone n ρ force (t.rename f) = (u.describeAlone n ρ force t).rename f id := by
  have he : Trail.empty.enter (t.rename f).measured =
      (Trail.empty.enter t.measured).rename f := by
    rw [Measured.measured_rename, ← Trail.enter_rename hf.injective]
    rfl
  unfold SymbolTable.describeAlone
  rw [he]
  exact hf.describe n (hf.recursion n) _ ρ force t

theorem descriptor (t : Ty) :
    v.descriptor n (t.rename f) = (u.descriptor n t).rename f id :=
  hf.describeAlone n [] false t

end SymbolTable.Renaming

end TypeTag
