import TypeTag.Build.Tag
import TypeTag.Proofs.Builds.Settling
import TypeTag.Proofs.Steps.Descent
import TypeTag.Proofs.SymbolTable.Asked
import TypeTag.Proofs.SymbolTable.Rules

namespace TypeTag

open Relation
open Build (Settles)

namespace SymbolTable

variable {u : SymbolTable} {t x : Ty} {trail : Trail Measured} {s : SymbolId}

def NeedsPath (u : SymbolTable) (t : Ty) (s : SymbolId) : Prop :=
  ∃ x, ReflTransGen u.Asks t x ∧ u.OpensPath x s

/-- The path to a term has the path to another in it, through the term that owns the first, or
through what describes the class that does. -/
inductive PathNeeds (u : SymbolTable) : SymbolId → SymbolId → Prop
  | owner {x s : SymbolId} {q : Option Ty} (h : (u.single x).qualifier? = some (.single q s)) :
    PathNeeds u x (u.resolveTerm s)
  | inside {x s : SymbolId} {t : Ty} (ht : t ∈ u.qualifierTypes (u.single x))
    (h : u.NeedsPath t s) : PathNeeds u x s

theorem PathNeeds.lt_size {s' : SymbolId} (h : u.PathNeeds s s') : s < u.size := by
  refine Nat.lt_of_not_le fun hle ↦ ?_
  have hq : (u.single s).qualifier? = none := by
    rw [single, Ty.qualifier?, defaultQualifier, defaultQualifier.go, kind, entry_of_size_le u hle]
    rfl
  cases h with
  | owner h => cases hq.symm.trans h
  | inside ht _ =>
    unfold qualifierTypes at ht
    rw [hq] at ht
    cases ht

def Unmet (u : SymbolTable) (root : Ty) (trail : Trail Measured) : Set Ty :=
  {x | ReflTransGen u.Asks root x ∧ trail.contains x.measured = false}

theorem unmet_enter_subset (root : Ty) (trail : Trail Measured) (t : Ty) :
    u.Unmet root (trail.enter t.measured) ⊆ u.Unmet root trail := by
  rintro x ⟨hx, hnot⟩
  refine ⟨hx, Bool.eq_false_iff.2 fun h ↦ Bool.eq_false_iff.1 hnot ?_⟩
  exact Trail.contains_enter_iff.2 (.inr h)

theorem visits_of_asks (h : ReflTransGen u.Asks t x) : ReflTransGen u.Visits t x :=
  ReflTransGen.mono (fun _ _ ↦ Visits.asks) _ _ h

theorem NeedsPath.visits (h : u.NeedsPath t s) : ReflTransGen u.Visits t (u.single s) := by
  obtain ⟨x, hx, hs⟩ := h
  refine (visits_of_asks hx).tail ?_
  cases hs with
  | cut hs => exact .cutPath hs
  | named hf hl hd hs => exact .path hf hl hd hs

theorem CutsTo.asks (h : u.CutsTo t x) : u.Asks t x := by
  cases h with
  | qualifier h => exact .cut h
  | asked _ h _ => exact h

section Run

variable (hu : u.WellFormed) (halias : u.AliasFree)

include hu halias

theorem finite_unmet (root : Ty) (trail : Trail Measured) : (u.Unmet root trail).Finite :=
  (halias.finite_asked hu root).subset fun _ hx ↦ hx.1

theorem ncard_unmet_enter_le (root : Ty) (trail : Trail Measured) (t : Ty) :
    (u.Unmet root (trail.enter t.measured)).ncard ≤ (u.Unmet root trail).ncard :=
  Set.ncard_le_ncard (unmet_enter_subset root trail t) (finite_unmet hu halias root trail)

theorem ncard_unmet_enter_lt {root : Ty} (ht : ReflTransGen u.Asks root t)
    (hnot : trail.contains t.measured = false) :
    (u.Unmet root (trail.enter t.measured)).ncard < (u.Unmet root trail).ncard := by
  refine Set.ncard_lt_ncard ?_ (finite_unmet hu halias root trail)
  refine (Set.ssubset_iff_of_subset (unmet_enter_subset root trail t)).2 ⟨t, ⟨ht, hnot⟩, fun h ↦ ?_⟩
  exact Bool.eq_false_iff.1 h.2 (Trail.contains_enter_iff.2 (.inl rfl))

/-- Every type that a description comes to is described to the end if the paths to terms are. -/
theorem nested_settles {root : Ty} (hcuts : ∀ x, ReflTransGen u.Asks root x → ¬TransGen u.CutsTo x x)
    (hterms : ∀ s, u.NeedsPath root s → u.PathSettles s) (trail : Trail Measured)
    (ht : ReflTransGen u.Asks root t) : u.NestedSettles trail t := by
  have hacc {x : Ty} (hx : ReflTransGen u.Asks root x) : Acc (fun y x ↦ u.CutsTo x y) x := by
    have hreach {y : Ty} (hy : ReflTransGen u.CutsTo x y) : ReflTransGen u.Asks root y :=
      hx.trans (ReflTransGen.mono (fun _ _ ↦ CutsTo.asks) _ _ hy)
    exact acc_of_acyclic (halias.finite_asked hu root) (fun y _ hy _ ↦ hreach hy)
      fun y hy ↦ hcuts y (hreach hy)
  have hopens {x : Ty} (hx : ReflTransGen u.Asks root x) (s : SymbolId) (hs : u.OpensPath x s) :
      u.PathSettles s := hterms s ⟨x, hx, hs⟩
  -- A type that is not on the trail leaves fewer unmet. A type on the trail leaves as many, but it is
  -- cut, and no way of cuts goes on for ever: hence the induction on `hacc` inside.
  induction hk : (u.Unmet root trail).ncard using Nat.strong_induction_on generalizing trail t with
  | h k ih =>
    have hfresh {p : Trail Measured} (hp : (u.Unmet root p).ncard ≤ k) {x : Ty}
        (hx : ReflTransGen u.Asks root x) (hnot : p.contains x.measured = false) :
        u.NestedSettles p x := by
      have hlt := (ncard_unmet_enter_lt hu halias hx hnot).trans_le hp
      exact nested_settles_of_describe halias (.inr hnot) (fun y hy _ ↦ ih _ hlt _ (hx.tail hy) rfl)
        (hopens hx)
    have hall {x : Ty} (hx : ReflTransGen u.Asks root x) {p : Trail Measured}
        (hp : (u.Unmet root p).ncard ≤ k) : u.NestedSettles p x := by
      induction hacc hx generalizing p with
      | intro x _ ihx =>
        cases hmet : p.contains x.measured with
        | false => exact hfresh hp hx hmet
        | true =>
          cases hsymbol : x.symbol?.isSome with
          | true =>
            refine nested_settles_of_cut halias hsymbol hmet (fun y hy ↦ ?_) fun s hs ↦
              hopens hx _ (.cut hs)
            exact ihx y (.qualifier hy) (hx.tail (.cut hy)) hp
          | false =>
            have hp' := (ncard_unmet_enter_le hu halias root p x).trans hp
            refine nested_settles_of_describe halias (.inl hsymbol) (fun y hy h ↦ ?_) (hopens hx)
            rcases h with h | h | h
            · cases hsymbol.symm.trans h
            · exact ihx y (.asked (by simpa using hsymbol) hy h) (hx.tail hy) hp'
            · exact hfresh hp' (hx.tail hy) h
    exact hall ht hk.le

/-- The path to a term is described to the end if it does not need itself. -/
theorem path_settles {root : Ty} (hcuts : ∀ x, ReflTransGen u.Visits root x → ¬TransGen u.CutsTo x x)
    (h : Acc (fun y x ↦ u.PathNeeds x y) s) (hs : ReflTransGen u.Visits root (u.single s)) :
    u.PathSettles s := by
  induction h with
  | intro s _ ih =>
    refine .of_succ (qualifierOf_settles (fun x hx ↦ ?_) fun q s' hq ↦ ?_)
    · have hx' := hs.tail (.asks (.cut hx))
      exact nested_settles hu halias (fun y hy ↦ hcuts y (hx'.trans (visits_of_asks hy)))
        (fun s' hs' ↦ ih s' (.inside hx hs') (hx'.trans hs'.visits)) _ .refl
    · refine ih _ (.owner hq) (hs.tail (.cutPath ?_))
      simp [pathTerms, hq]

end Run

section Refinements

variable (hu : u.WellFormed)
  (hrefinements : ∀ s, u.kind s = .refinement → (u.symbolType s).isRefined = true)

include hu in
theorem mem_qualifierTypes_applied {as : List Ty} (h : x ∈ u.qualifierTypes (u.applied s as)) :
    ∃ o : Nat, o < s ∧ (u.symbolType o).isRefined = false ∧ x = u.symbolType o := by
  unfold qualifierTypes at h
  cases hq : u.defaultQualifier s with
  | none => simp [applied, Ty.qualifier?, hq] at h
  | some q =>
    obtain ⟨o, ho, ⟨hk, rfl⟩ | ⟨-, rfl⟩ | ⟨-, rfl⟩⟩ := mem_defaultQualifier_go hq
    · simp [applied, Ty.qualifier?, hq, Ty.symbol?, isPackage, hk] at h
    · simp [applied, Ty.qualifier?, hq] at h
    · simp only [applied, Ty.qualifier?, hq] at h
      split at h
      · cases h
      · split at h
        · cases h
        · next hrefined =>
          exact ⟨o, hu.ownersPrecede s o ho, by simpa using hrefined, List.mem_singleton.1 h⟩

include hu hrefinements

/-- Where the classes behind refinements stand for refinements, no type is cut to itself. -/
theorem not_cutsTo_self (x : Ty) : ¬TransGen u.CutsTo x x := by
  -- A class is cut to the classes around it, which are earlier in the table; these come first, since
  -- a larger type may be cut to the class of any of its references.
  have hclass (s : Nat) (hs : (u.symbolType s).isRefined = false) :
      Acc (fun y x ↦ u.CutsTo x y) (u.symbolType s) := by
    induction s using Nat.strong_induction_on with
    | h s ih =>
      have happlied : ∃ as, u.symbolType s = u.applied s as := by
        unfold symbolType
        dsimp only
        split
        · next hk => rw [hrefinements s hk] at hs; cases hs
        · exact ⟨_, rfl⟩
      obtain ⟨as, heq⟩ := happlied
      rw [heq]
      refine Acc.intro _ fun y hy ↦ ?_
      cases hy with
      | qualifier hy =>
        obtain ⟨o, ho, hrefined, rfl⟩ := mem_qualifierTypes_applied hu hy
        exact ih o ho hrefined
      | asked hsymbol _ _ => cases hsymbol
  have hacc (x : Ty) : Acc (fun y x ↦ u.CutsTo x y) x := by
    induction hk : sizeOf x using Nat.strong_induction_on generalizing x with
    | h k ih =>
      have hinside {y : Ty} (hy : y.Inside x) := ih _ (hk ▸ hy.sizeOf_lt) y rfl
      have hqualifier {e y : Ty} (he : e.OccursIn x) (hy : y ∈ u.qualifierTypes e) :
          Acc (fun y x ↦ u.CutsTo x y) y := by
        rcases mem_qualifierTypes hy with hq | ⟨s, -, hrefined, rfl⟩
        · have hchild : y.Inside e := .of_child (Ty.mem_children_of_qualifier? hq)
          exact hinside (hchild.of_occursIn he)
        · exact hclass s hrefined
      refine Acc.intro x fun y hy ↦ ?_
      cases hy with
      | qualifier hy => exact hqualifier (.refl x) hy
      | asked _ _ hy =>
        cases hy with
        | inside hy => exact hinside hy
        | qualifier he hy => exact hqualifier he hy
  exact fun hcircle ↦ (WellFounded.intro hacc).transGen.irrefl.irrefl x (transGen_swap.2 hcircle)

end Refinements

section Termless

def termless : Ty.Rules where
  term _ := False

theorem pathTerms_eq_nil (h : t.Obeys termless) : pathTerms t = [] := by
  have hsingle {x : Ty} (hx : x.Obeys termless) (q : Option Ty) (s : SymbolId) : x ≠ .single q s := by
    rintro rfl
    cases hx with
    | single _ hs _ => exact hs
  refine List.filterMap_eq_nil_iff.2 fun x hx ↦ ?_
  have hobeys : x.Obeys termless := by
    rcases List.mem_cons.1 hx with rfl | hx
    · exact h
    · exact h.of_qualifier x (Option.mem_toList.1 hx)
  split
  · exact absurd rfl (hsingle hobeys _ _)
  · rfl

variable (hu : u.Obeys termless)

include hu

theorem not_needsPath (ht : t.Obeys termless) : ¬u.NeedsPath t s := by
  have hasked {x : Ty} (hx : ReflTransGen u.Asks t x) : x.Obeys termless := by
    induction hx with
    | refl => exact ht
    | tail _ hstep ih => exact hu.asks ih hstep
  rintro ⟨x, hx, hs⟩
  have hobeys := hasked hx
  cases hs with
  | cut hs =>
    rw [pathTerms_eq_nil hobeys] at hs
    cases hs
  | named hf hl hd hs =>
    have he := hu.keeps.dealiasResult (hu.keeps.leaf (hu.keeps.flatten_single hobeys hf) hl) hd
    rw [pathTerms_eq_nil he] at hs
    cases hs

theorem not_pathNeeds {s' : SymbolId} : ¬u.PathNeeds s s' := by
  intro h
  cases h with
  | owner h =>
    cases hu.qualifier s _ h with
    | single _ hs _ => exact hs
  | inside ht h =>
    refine not_needsPath hu ?_ h
    rcases mem_qualifierTypes ht with hq | ⟨o, -, -, rfl⟩
    · exact hu.qualifier s _ hq
    · exact hu.symbolType o

end Termless

/-- Over a table without aliases every description ends: from some bound on its depth on it is
finished, and is the same. Excepted are types that come to one which is cut to itself, and types with
the path to a term in them that needs itself. -/
theorem descriptor_settles (hu : u.Constructible) (halias : u.AliasFree)
    (hcuts : ∀ x, ReflTransGen u.Visits t x → ¬TransGen u.CutsTo x x)
    (hpaths : ∀ s, u.NeedsPath t s → ∀ s', ReflTransGen u.PathNeeds s s' →
      ¬TransGen u.PathNeeds s' s') :
    Settles (u.rootDescriptor · t) ∧ ∀ ρ force, Settles (u.describeAlone · ρ force t) := by
  have hfinite : {s : SymbolId | s < u.size}.Finite := Set.finite_lt_nat u.size
  have hterms (s : SymbolId) (hs : u.NeedsPath t s) : u.PathSettles s :=
    path_settles hu.wellFormed halias hcuts
      (acc_of_acyclic hfinite (fun _ _ _ h ↦ h.lt_size) (hpaths s hs)) hs.visits
  have halone (ρ : Bindings) (force : Bool) : Settles (u.describeAlone · ρ force t) := by
    refine describe_settles halias (fun x hx _ ↦ ?_) (fun s hs ↦ hterms s ⟨t, .refl, hs⟩) force
    exact nested_settles hu.wellFormed halias (fun x hx ↦ hcuts x (visits_of_asks hx)) hterms _
      (.single hx)
  refine ⟨?_, halone⟩
  exact .query (halias.dealias · t) (halone [] false)

section Related

/-- A generic class `Pair`, each of whose parameters is bounded by pairs of both, and a term `x` in
it. -/
def related : SymbolTable :=
  let (pair, u) := initial.cls 1 "Pair"
  let (a, u) := u.typeParam pair "A" .invariant
  let (b, u) := u.typeParam pair "B" .invariant
  let u := u.setBounds a u.nothingType (u.applied pair [u.typeRef a, u.typeRef b])
  let u := u.setBounds b u.nothingType (u.applied pair [u.typeRef b, u.typeRef a])
  (u.term pair "x" none).2

theorem constructible_related : related.Constructible := by
  refine .step (.step (.step (.step (.step (.step .initial (.cls 1 "Pair" ?_))
    (.typeParam 5 "A" .invariant ?_)) (.typeParam 5 "B" .invariant ?_)) (.setBounds 6 _ _ ?_ ?_ ?_))
    (.setBounds 7 _ _ ?_ ?_ ?_)) (.term 5 "x" none ?_ ?_)
  all_goals first
    | decide
    | exact fun t ht ↦ absurd ht (by simp)
    | exact fun s hs ↦ (by decide : ∀ s ∈ Ty.symbols _, s < _) s hs

theorem kind_related (s : SymbolId) : related.kind s ∈ [.package, .cls, .typeParam, .term] := by
  have hsmall : ∀ s : Nat, s < 9 → related.kind s ∈ [.package, .cls, .typeParam, .term] := by decide
  by_cases hs : (s : Nat) < 9
  · exact hsmall s hs
  · rw [kind, entry_of_size_le related (Nat.le_of_not_lt hs)]
    exact List.mem_cons_self

theorem obeys_related : related.Obeys termless := by
  have hsmall : ∀ s : Nat, s < 9 → related.isTerm ((related.entry s).owner.getD 0) = false ∧
      ∀ t ∈ (related.entry s).types, t = related.nothingType ∨
        t = related.applied 5 [related.typeRef 6, related.typeRef 7] ∨
        t = related.applied 5 [related.typeRef 7, related.typeRef 6] := by decide +kernel
  have hqualifier (s : SymbolId) : ∀ q ∈ related.defaultQualifier s, q.Obeys termless := by
    refine defaultQualifier_induction (fun _ _ ↦ .ref trivial (by simp) (by simp))
      (fun {s o _} ho hk _ ↦ ?_) (fun _ ↦ .self _) s
    by_cases hs : (s : Nat) < 9
    · have hnot := (hsmall s hs).1
      rw [ho] at hnot
      cases hnot.symm.trans hk
    · rw [entry_of_size_le related (Nat.le_of_not_lt hs)] at ho
      cases ho
  have happlied (s : SymbolId) {as : List Ty} (has : ∀ a ∈ as, a.Obeys termless) :
      (related.applied s as).Obeys termless := .ref trivial (hqualifier s) has
  have hpair (s s' : SymbolId) :
      (related.applied 5 [related.typeRef s, related.typeRef s']).Obeys termless := by
    refine happlied 5 fun a ha ↦ ?_
    rcases List.mem_pair.1 ha with rfl | rfl <;> exact happlied _ (by simp)
  refine ⟨fun _ _ _ ↦ trivial, fun s t ht ↦ ?_, fun _ _ _ ↦ trivial, fun _ ↦ trivial, hqualifier⟩
  by_cases hs : (s : Nat) < 9
  · rcases (hsmall s hs).2 t ht with rfl | rfl | rfl
    · exact happlied _ (by simp)
    · exact hpair 6 7
    · exact hpair 7 6
  · rw [entry_of_size_le related (Nat.le_of_not_lt hs)] at ht
    cases ht

theorem pair_settles :
    let u := related
    u.Constructible ∧ u.AliasFree ∧ Settles (u.rootDescriptor · (u.single 8)) := by
  intro u
  have hkind {s : SymbolId} {k : SymbolKind} (hk : k ∉ [SymbolKind.package, .cls, .typeParam, .term]) :
      u.kind s ≠ k := fun h ↦ hk (h ▸ kind_related s)
  have halias : u.AliasFree := fun s ↦ hkind (by decide)
  refine ⟨constructible_related, halias, (descriptor_settles constructible_related halias
    (fun x _ ↦ not_cutsTo_self constructible_related.wellFormed (fun s hs ↦ ?_) x)
    fun s _ s' _ hcircle ↦ ?_).1⟩
  · exact absurd hs (hkind (by decide))
  · obtain ⟨_, hneeds, -⟩ := TransGen.head'_iff.1 hcircle
    exact not_pathNeeds obeys_related hneeds

end Related

section Circles

def circularPath : SymbolTable :=
  let (y, u) := initial.term 1 "y" none
  let (x, u) := u.term y "x" none
  u.setBody y (u.single x)

theorem constructible_circularPath : circularPath.Constructible := by
  refine .step (.step (.step .initial (.term 1 "y" none ?_ ?_)) (.term 5 "x" none ?_ ?_))
    (.setBody 5 _ ?_ ?_)
  case refine_6 =>
    exact (by decide : ∀ s ∈ (Ty.single (some (.single (some (.ref none 1 [])) 5)) 6).symbols, s < 7)
  all_goals first
    | decide
    | exact fun t ht ↦ absurd ht (by simp)

theorem aliasFree_circularPath : circularPath.AliasFree := by
  decide

theorem qualifierOf_circularPath {r : Recursion} {trail : Trail Measured} {ρ : Bindings}
    (h : r.termQualifier 6 = .exhausted) :
    circularPath.qualifierOf r trail ρ (circularPath.single 6) = .exhausted := by
  have hx : circularPath.single 6 = .single (some (.single (some (.ref none 1 [])) 5)) 6 := rfl
  have hpackage : (Ty.single (some (.ref none 1 [])) 5).symbol?.any circularPath.isPackage = false :=
    rfl
  have hend : circularPath.resolveTerm 5 = 6 := by decide
  simp only [qualifierOf, hx, Ty.qualifier?, hpackage, Bool.false_eq_true, if_false, termName, hend, h]
  rfl

theorem termQualifier_circularPath (n : Nat) : circularPath.termQualifier n 6 = .exhausted := by
  induction n with
  | zero => rfl
  | succ n ih => exact qualifierOf_circularPath ih

/-- The path to `x` goes through `y`, which is `x` again. -/
theorem circularPath_exhausts :
    let u := circularPath
    u.Constructible ∧ u.AliasFree ∧ ∀ n, u.rootDescriptor n (u.single 6) = .exhausted := by
  have halias := aliasFree_circularPath
  refine ⟨constructible_circularPath, halias, fun n ↦ ?_⟩
  have hx := halias.dealias n (circularPath.single 6)
  have hqualifier (trail : Trail Measured) :
      circularPath.qualifierOf (circularPath.recursion n) trail [] (circularPath.single 6) = .exhausted :=
    qualifierOf_circularPath (termQualifier_circularPath n)
  simp only [rootDescriptor, hx, Build.liftM_some, pure_bind]
  rw [descriptor, describeAlone, describe_eq_describeProper rfl rfl]
  cases n with
  | zero => rfl
  | succ n =>
    rw [describeProper_eq_describeNamed (flatten_eq_single hx rfl) rfl hx, describeNamed,
      halias.dealiasResult, show (circularPath.single 6).resultType = circularPath.single 6 from rfl]
    simp only [Build.liftM_some, pure_bind, hqualifier]
    rfl

end Circles

end SymbolTable

end TypeTag
