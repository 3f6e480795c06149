import TypeTag.Proofs.Builds.Grammar
import TypeTag.Proofs.Steps.Settles
import TypeTag.Proofs.SymbolTable.AliasFree

namespace TypeTag

open Relation
open Build (Settles)

namespace SymbolTable

variable (u : SymbolTable)

inductive OpensPath : Ty → SymbolId → Prop
  | cut {t : Ty} {s : SymbolId} (hs : s ∈ pathTerms t) : OpensPath t (u.resolveTerm s)
  | named {t p d e : Ty} {s : SymbolId} {n : Nat} (hf : u.flatten n t = some (.single p))
    (hl : u.leaf n p = some d) (hd : u.dealiasResult n d = some e) (hs : s ∈ pathTerms e) :
    OpensPath t (u.resolveTerm s)

/-- What is in a type or a qualifier there is asked for even if it is already being expanded, as a
bound is not. -/
inductive Unguarded : Ty → Ty → Prop
  | inside {t x : Ty} (h : x.Inside t) : Unguarded t x
  | qualifier {t x e : Ty} (he : e.OccursIn t) (h : x ∈ u.qualifierTypes e) : Unguarded t x

/-- What the description of a type asks for even if both types are already being expanded. A type
without a symbol is never cut. -/
inductive CutsTo : Ty → Ty → Prop
  | qualifier {t x : Ty} (h : x ∈ u.qualifierTypes t) : CutsTo t x
  | asked {t x : Ty} (ht : t.symbol? = none) (h : u.Asks t x) (hx : u.Unguarded t x) : CutsTo t x

def NestedSettles (trail : Trail Measured) (t : Ty) : Prop :=
  ∀ ρ, Settles (u.nested · trail ρ t)

def PathSettles (s : SymbolId) : Prop :=
  Settles (u.termQualifier · s)

variable {u} {trail : Trail Measured} {ρ : Bindings} {t x : Ty} {s : SymbolId}

section Describe

theorem termName_settles (h : u.PathSettles (u.resolveTerm s)) :
    Settles fun n ↦ u.termName (u.recursion n) s :=
  h.bind fun _ ↦ .pure _

theorem describeQualifier_settles (h : u.NestedSettles trail x) :
    Settles fun n ↦ describeQualifier (u.recursion n) trail ρ t x := by
  refine (h ρ).bind fun d ↦ ?_
  split
  · exact .pure d
  · exact .fail _

theorem qualifierOf_settles (htypes : ∀ x ∈ u.qualifierTypes t, u.NestedSettles trail x)
    (hterm : ∀ q s, t.qualifier? = some (.single q s) → u.PathSettles (u.resolveTerm s)) :
    Settles fun n ↦ u.qualifierOf (u.recursion n) trail ρ t := by
  unfold qualifierTypes at htypes
  unfold qualifierOf
  cases hq : t.qualifier? with
  | none => exact .pure none
  | some q =>
    rw [hq] at htypes
    dsimp only at htypes ⊢
    split
    · exact .pure none
    · next hpackage =>
      rw [if_neg hpackage] at htypes
      cases q with
      | self s =>
        dsimp only at htypes ⊢
        split
        · exact .pure none
        · next hrefined =>
          rw [if_neg hrefined] at htypes
          exact (describeQualifier_settles (htypes _ (List.mem_singleton_self _))).map some
      | single q s => exact (termName_settles (hterm q s hq)).map _
      | _ => exact (describeQualifier_settles (htypes _ (List.mem_singleton_self _))).map some

theorem describeBounds_settles {l h : Ty}
    (hnested : ∀ x ∈ [l, h], trail.contains x.measured = false → u.NestedSettles trail x) :
    Settles fun n ↦ u.describeBounds (u.recursion n) trail ρ l h := by
  unfold describeBounds
  split
  · exact .pure _
  · split
    · exact (Settles.emit _).bind fun _ ↦ .pure _
    · next hnot =>
      rw [Bool.or_eq_true, not_or, Bool.not_eq_true, Bool.not_eq_true] at hnot
      refine (hnested l (by simp) hnot.1 ρ).bind fun d ↦ ?_
      exact (hnested h (by simp) hnot.2 ρ).bind fun e ↦ .pure _

theorem boundariesOf_settles
    (h : ∀ x ∈ u.boundTypes t, trail.contains x.measured = false → u.NestedSettles trail x) :
    Settles fun n ↦ u.boundariesOf (u.recursion n) trail ρ t := by
  unfold boundariesOf
  unfold boundTypes at h
  split
  · next l h' heq =>
    rw [heq] at h
    exact describeBounds_settles h
  · exact .pure _

theorem nameOf_settles (hterm : ∀ q s, t = .single q s → u.PathSettles (u.resolveTerm s))
    (b : Boundaries Descriptor) (q : Option Descriptor) :
    Settles fun n ↦ u.nameOf (u.recursion n) t b q := by
  cases t with
  | constant v => exact .pure _
  | single q s => exact (termName_settles (hterm q s rfl)).map _
  | _ =>
    unfold nameOf
    dsimp only
    split
    · exact .pure _
    · exact .fail _

theorem describeCut_settles (htypes : ∀ x ∈ u.qualifierTypes t, u.NestedSettles trail x)
    (hterms : ∀ s ∈ pathTerms t, u.PathSettles (u.resolveTerm s)) :
    Settles fun n ↦ u.describeCut (u.recursion n) trail ρ t := by
  unfold describeCut
  split
  · exact .pure _
  · refine (qualifierOf_settles htypes fun q s hq ↦ hterms s ?_).bind fun d ↦ ?_
    · simp [pathTerms, hq]
    · refine (nameOf_settles (fun q s ht ↦ hterms s ?_) _ d).bind fun m ↦ .pure _
      simp [pathTerms, ht]

theorem headName_settles
    (hbounds : ∀ x ∈ u.boundTypes t, trail.contains x.measured = false → u.NestedSettles trail x)
    (hterm : ∀ q s, t = .single q s → u.PathSettles (u.resolveTerm s)) (q : Option Descriptor) :
    Settles fun n ↦ u.headName (u.recursion n) trail ρ t q := by
  unfold headName
  split
  · exact .pure _
  · exact (boundariesOf_settles hbounds).bind fun b ↦ nameOf_settles hterm b q

theorem describeSignatureType_settles (m : String) (h : u.NestedSettles trail x) :
    Settles fun n ↦ describeSignatureType (u.recursion n) trail ρ m x := by
  refine (h ρ).bind fun d ↦ ?_
  split
  · exact .pure d
  · exact .fail _

theorem describeMember_settles {m : Member Ty} (h : ∀ x ∈ memberTypes m, u.NestedSettles trail x) :
    Settles fun n ↦ u.describeMember (u.recursion n) trail ρ m := by
  cases m with
  | method m lists result =>
    refine (describeSignatureType_settles m (h result List.mem_cons_self)).bind fun d ↦ ?_
    split
    · exact .pure _
    · refine .mapM fun ps hps ↦ .bind (.mapM fun p hp ↦ ?_) fun _ ↦ .pure _
      exact describeSignatureType_settles m
        (h p (List.mem_cons_of_mem result (List.mem_flatten_of_mem hps hp)))
  | type m t =>
    unfold describeMember
    dsimp only
    split
    · next l h' =>
      exact (describeBounds_settles fun x hx _ ↦ h x hx).bind fun _ ↦ .pure _
    · next hbounds => exact (h t (mem_memberTypes_type hbounds) ρ).bind fun _ ↦ .pure _

variable (halias : u.AliasFree)

include halias

theorem describeArgs_settles (h : ∀ a ∈ t.args, u.NestedSettles trail a) :
    Settles fun n ↦ u.describeArgs n (u.recursion n) trail ρ t := by
  obtain ⟨params, hparams⟩ := halias.headParams t
  refine .query hparams (.mapM fun a ha ↦ ?_)
  exact (h a.1 (List.fst_mem_of_mem_zipIdx ha) ρ).bind fun _ ↦ .pure _

theorem describeNamed_settles (htypes : ∀ x ∈ u.qualifierTypes t.resultType ++ t.resultType.args,
      u.NestedSettles trail x)
    (hbounds : ∀ x ∈ u.boundTypes t.resultType, trail.contains x.measured = false →
      u.NestedSettles trail x)
    (hterms : ∀ s ∈ pathTerms t.resultType, u.PathSettles (u.resolveTerm s)) :
    Settles fun n ↦ u.describeNamed n (u.recursion n) trail ρ t := by
  refine .query (halias.dealiasResult · t) ?_
  refine (qualifierOf_settles (fun x hx ↦ htypes x (List.mem_append_left _ hx))
    fun q s hq ↦ hterms s ?_).bind fun d ↦ ?_
  · simp [pathTerms, hq]
  refine (headName_settles hbounds (fun q s ht ↦ hterms s ?_) d).bind fun m ↦ ?_
  · simp [pathTerms, ht]
  split
  · exact .pure _
  · exact (describeArgs_settles halias fun a ha ↦ htypes a (List.mem_append_right _ ha)).bind
      fun _ ↦ .pure _

/-- The description of a type ends if that of what it asks for does, bounds being asked for only if
they are not on the trail. -/
theorem describeProper_settles
    (hasks : ∀ x, u.Asks t x → u.Unguarded t x ∨ trail.contains x.measured = false →
      u.NestedSettles trail x)
    (hterms : ∀ s, u.OpensPath t s → u.PathSettles s) :
    Settles fun n ↦ u.describeProper n (u.recursion n) trail ρ t := by
  obtain ⟨f, hf⟩ := halias.exists_flatten t
  have hflat := hf t.size (Nat.le_refl _)
  refine .query_from hf ?_
  cases f with
  | single p =>
    have hoccurs := p.occursIn_resultType.trans (halias.occursIn_of_flatten_single hflat)
    have hl := halias.leaf t.size p
    have hd := halias.dealiasResult t.size p
    refine .query (halias.leaf · p) (describeNamed_settles halias (fun x hx ↦ ?_)
      (fun x hx hnot ↦ hasks x (.named hflat hl hd (by simp [hx])) (.inr hnot))
      fun s hs ↦ hterms _ (.named hflat hl hd hs))
    rcases List.mem_append.1 hx with hx | hx
    · exact hasks x (.named hflat hl hd (by simp [hx])) (.inl (.qualifier hoccurs hx))
    · refine hasks x (.named hflat hl hd (by simp [hx])) (.inl (.inside ?_))
      exact (Ty.Inside.of_child (Ty.mem_children_of_args hx)).of_occursIn hoccurs
  | compound ps ms =>
    obtain ⟨hps, hms⟩ := halias.inside_of_flatten_compound hflat
    have hparts : Settles fun n ↦ ps.mapM ((u.recursion n).nested trail ρ) :=
      .mapM fun p hp ↦ hasks p (.part hflat hp) (.inl (.inside (hps p hp))) ρ
    refine hparts.bind fun ds ↦ ?_
    dsimp only
    split
    · exact .pure _
    · have hmembers : Settles fun n ↦ ms.mapM (u.describeMember (u.recursion n) trail ρ) :=
        .mapM fun m hm ↦ describeMember_settles fun x hx ↦ hasks x (.member hflat hm hx)
          (.inl (.inside (inside_of_mem_memberTypes (hms m hm) hx)))
      exact hmembers.bind fun _ ↦ .pure _

variable (hasks : ∀ x, u.Asks t x →
    t.symbol?.isSome = true ∨ u.Unguarded t x ∨ trail.contains x.measured = false →
    u.NestedSettles trail x)
  (hterms : ∀ s, u.OpensPath t s → u.PathSettles s)

include hasks hterms

theorem describeLambda_settles (ht : ¬u.Proper t) :
    Settles fun n ↦ u.describeLambda n (u.recursion n) trail ρ t := by
  have hresult (n : Nat) := halias.dealiasResult n (u.etaExpand t)
  have hbody (ρ : Bindings) :
      Settles fun n ↦ u.describeBody n (u.recursion n) trail ρ t (u.etaExpand t).resultType := by
    unfold describeBody
    split
    · next heq =>
      rw [heq]
      exact describeProper_settles halias (fun x hx h ↦ hasks x hx (.inr h)) hterms
    · next hne =>
      refine hasks _ (.result ht (hresult 0) hne) ?_ ρ
      rcases resultType_etaExpand u t with heq | ⟨q, s, rfl, -⟩
      · rw [heq] at hne ⊢
        have hinside := (reflTransGen_iff_eq_or_transGen.1 t.occursIn_resultType).resolve_left
          (Ne.symm hne)
        exact .inr (.inl (.inside hinside))
      · exact .inl rfl
  refine .query hresult ((hbody _).bind fun b ↦ Settles.bind ?_ fun _ ↦ .pure _)
  unfold reportUnused
  split
  · exact .pure ()
  · exact .emit _

theorem describe_settles (force : Bool) :
    Settles fun n ↦ u.describe n (u.recursion n) trail ρ force t := by
  have hproper : Settles fun n ↦ u.describeProper n (u.recursion n) trail ρ t :=
    describeProper_settles halias (fun x hx h ↦ hasks x hx (.inr h)) hterms
  refine (Settles.emit _).bind fun _ ↦ ?_
  split
  · exact hproper.bind fun _ ↦ .pure _
  · split
    · next hgeneric =>
      refine describeLambda_settles halias hasks hterms fun hproper ↦ ?_
      simp [hproper.1, hproper.2] at hgeneric
    · exact hproper

end Describe

section Nested

variable (halias : u.AliasFree)

include halias

theorem AliasFree.isExpanding (n : Nat) (trail : Trail Measured) (t : Ty) :
    u.isExpanding n trail t = some (t.symbol?.isSome && trail.contains t.measured) := by
  unfold SymbolTable.isExpanding
  rw [halias.dealias]
  cases t.symbol? with
  | none => rfl
  | some s => cases h : trail.contains t.measured <;> simp [h]

theorem nested_settles_of_cut (hsymbol : t.symbol?.isSome = true)
    (hmet : trail.contains t.measured = true)
    (htypes : ∀ x ∈ u.qualifierTypes t, u.NestedSettles trail x)
    (hterms : ∀ s ∈ pathTerms t, u.PathSettles (u.resolveTerm s)) : u.NestedSettles trail t := by
  refine fun ρ ↦ .of_succ (.query (halias.isExpanding · trail t) ?_)
  rw [hsymbol, hmet]
  exact (Settles.emit _).bind fun _ ↦ describeCut_settles htypes hterms

theorem nested_settles_of_describe (h : t.symbol?.isSome = false ∨ trail.contains t.measured = false)
    (hasks : ∀ x, u.Asks t x → t.symbol?.isSome = true ∨ u.Unguarded t x ∨
      (trail.enter t.measured).contains x.measured = false →
      u.NestedSettles (trail.enter t.measured) x)
    (hterms : ∀ s, u.OpensPath t s → u.PathSettles s) : u.NestedSettles trail t := by
  refine fun ρ ↦ .of_succ (.query (halias.isExpanding · trail t) ?_)
  rw [Bool.and_eq_false_iff.2 h]
  exact describe_settles halias hasks hterms false

end Nested

end SymbolTable

end TypeTag
