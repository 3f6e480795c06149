import TypeTag.Proofs.SymbolTable.Hierarchy
import TypeTag.Proofs.Steps.Queries
import TypeTag.Proofs.Ty.References

namespace TypeTag

namespace Ty

section Fill

variable (σ : SymbolId → Option Ty)

mutual

def fill : Ty → Ty
  | ref q s as => (σ s).getD (ref (fillQualifier q) s (fillList as))
  | t => t

def fillQualifier : Option Ty → Option Ty
  | none => none
  | some q => some (fill q)

def fillList : List Ty → List Ty
  | [] => []
  | t :: ts => fill t :: fillList ts

end

theorem fillQualifier_eq (q : Option Ty) : fillQualifier σ q = q.map (fill σ) := by
  cases q <;> rfl

theorem fillList_eq (ts : List Ty) : fillList σ ts = ts.map (fill σ) := by
  induction ts with
  | nil => rfl
  | cons t ts ih => rw [fillList, ih, List.map_cons]

theorem fill_ref (q : Option Ty) (s : SymbolId) (as : List Ty) :
    fill σ (ref q s as) = (σ s).getD (ref (q.map (fill σ)) s (as.map (fill σ))) := by
  rw [fill, fillQualifier_eq, fillList_eq]

end Fill

theorem fill_none (t : Ty) : t.fill (fun _ ↦ none) = t := by
  induction t with
  | ref q s as hq has =>
    have hqualifier : q.map (fill fun _ ↦ none) = q := by
      cases q with
      | none => rfl
      | some q => rw [Option.map_some, hq q rfl]
    have hargs : as.map (fill fun _ ↦ none) = as :=
      (List.map_congr_left has).trans (List.map_id as)
    rw [fill_ref, Option.getD_none, hqualifier, hargs]
  | _ => rfl

end Ty

def argOf (ps : List SymbolId) (as : List Ty) (s : SymbolId) : Option Ty :=
  (ps.idxOf? s).bind (as[·]?)

section ArgOf

variable {ps : List SymbolId} {as : List Ty} {p : SymbolId}

theorem argOf_of_not_mem (hp : p ∉ ps) : argOf ps as p = none := by
  rw [argOf, List.idxOf?_eq_none_iff.2 hp, Option.bind_none]

theorem exists_argOf (hlen : as.length = ps.length) (hp : p ∈ ps) :
    ∃ a ∈ as, argOf ps as p = some a := by
  obtain ⟨i, hi⟩ : ∃ i, ps.idxOf? p = some i := Option.isSome_iff_exists.1 (by simpa using hp)
  have hlt : i < as.length := hlen ▸ (List.idxOf?_eq_some_iff.1 hi).1
  exact ⟨as[i], List.getElem_mem hlt, by simp [argOf, hi, hlt]⟩

theorem argOf_map (f : Ty → Ty) : argOf ps (as.map f) p = (argOf ps as p).map f := by
  unfold argOf
  cases ps.idxOf? p with
  | none => rfl
  | some i => simp

theorem argOf_getElem (hps : ps.Nodup) {i : Nat} (hi : i < ps.length) :
    argOf ps as ps[i] = as[i]? := by
  have hidx : ps.idxOf? ps[i] = some i := by
    rw [List.idxOf?_eq_some_iff]
    refine ⟨hi, rfl, fun j hj heq ↦ ?_⟩
    exact Nat.ne_of_lt hj ((hps.getElem_inj_iff).1 heq)
  rw [argOf, hidx, Option.bind_some]

end ArgOf

namespace SymbolTable

section References

variable (u : SymbolTable)

/-- References to the type parameters `ps` and to classes, selected from their default qualifiers or
from such references. -/
inductive ReferenceOver (ps : List SymbolId) : Ty → Prop
  | param {q : Option Ty} {p : SymbolId} (hp : p ∈ ps) : ReferenceOver ps (.ref q p [])
  | applied {c : SymbolId} {as : List Ty} (hc : u.kind c = .cls)
    (has : ∀ a ∈ as, ReferenceOver ps a) : ReferenceOver ps (u.applied c as)
  | selected {q : Option Ty} {c : SymbolId} {as : List Ty} (hc : u.kind c = .cls)
    (hq : ∀ t ∈ q, ReferenceOver ps t) (has : ∀ a ∈ as, ReferenceOver ps a) :
    ReferenceOver ps (.ref q c as)

/-- Classes inherit from classes with as many arguments as these have parameters, each a reference
over the parameters of the class that inherits. -/
def ParentsOverParams : Prop :=
  ∀ c, u.kind c = .cls → ∀ p ∈ (u.entry c).parents, ∃ d as, p = u.applied d as ∧ u.kind d = .cls ∧
    as.length = (u.entry d).typeParams.length ∧
    ∀ a ∈ as, u.ReferenceOver (u.entry c).typeParams a

def OnParams (σ : SymbolId → Option Ty) : Prop :=
  ∀ s, u.kind s ≠ .typeParam → σ s = none

end References

variable {u : SymbolTable}

section Fill

variable {σ τ : SymbolId → Option Ty} {ps qs : List SymbolId} {as : List Ty} {t : Ty}

theorem onParams_argOf (hps : ∀ p ∈ ps, u.kind p = .typeParam) : u.OnParams (argOf ps as) :=
  fun s hs ↦ argOf_of_not_mem fun hmem ↦ hs (hps s hmem)

theorem OnParams.fill_ref (hσ : u.OnParams σ) {c : SymbolId} (hc : u.kind c = .cls)
    (q : Option Ty) (as : List Ty) :
    (Ty.ref q c as).fill σ = .ref (q.map (Ty.fill σ)) c (as.map (Ty.fill σ)) := by
  rw [Ty.fill_ref, hσ c (by simp [hc]), Option.getD_none]

theorem OnParams.fill_defaultQualifier (hσ : u.OnParams σ) (s : SymbolId) :
    (u.defaultQualifier s).map (Ty.fill σ) = u.defaultQualifier s := by
  unfold defaultQualifier defaultQualifier.go
  split
  · rfl
  · cases (u.entry s).owner with
    | none => rfl
    | some o =>
      simp only [Option.bind_eq_bind, Option.bind_some]
      cases hk : u.kind o with
      | package => simp [Ty.fill_ref, hσ o (by simp [hk])]
      | _ => rfl

theorem OnParams.fill_applied (hσ : u.OnParams σ) {c : SymbolId} (hc : u.kind c = .cls)
    (as : List Ty) : (u.applied c as).fill σ = u.applied c (as.map (Ty.fill σ)) := by
  rw [applied, hσ.fill_ref hc, hσ.fill_defaultQualifier, applied]

theorem fill_param {q : Option Ty} {p : SymbolId} {a : Ty} (hp : σ p = some a) (as : List Ty) :
    (Ty.ref q p as).fill σ = a := by
  rw [Ty.fill_ref, hp, Option.getD_some]

theorem ReferenceOver.fill (ht : u.ReferenceOver ps t) (hσ : u.OnParams σ)
    (hps : ∀ p ∈ ps, ∃ a, σ p = some a ∧ u.ReferenceOver qs a) : u.ReferenceOver qs (t.fill σ) := by
  induction ht with
  | param hp =>
    obtain ⟨a, ha, hover⟩ := hps _ hp
    rwa [fill_param ha]
  | @applied c as hc _ ih =>
    rw [hσ.fill_applied hc]
    exact .applied hc (List.forall_mem_map.2 ih)
  | @selected q c as hc _ _ ihq ih =>
    rw [hσ.fill_ref hc]
    refine .selected hc (fun t' ht' ↦ ?_) (List.forall_mem_map.2 ih)
    obtain ⟨t, ht, rfl⟩ := Option.map_eq_some_iff.1 ht'
    exact ihq t ht

/-- What fills the places of the parameters is filled in turn. -/
theorem ReferenceOver.fill_fill (ht : u.ReferenceOver ps t) (hσ : u.OnParams σ) (hτ : u.OnParams τ)
    (hps : ∀ p ∈ ps, (σ p).isSome) :
    (t.fill σ).fill τ = t.fill fun s ↦ (σ s).map (Ty.fill τ) := by
  have hστ : u.OnParams fun s ↦ (σ s).map (Ty.fill τ) := fun s hs ↦ by simp [hσ s hs]
  induction ht with
  | @param q p hp =>
    obtain ⟨a, ha⟩ := Option.isSome_iff_exists.1 (hps p hp)
    rw [fill_param ha, fill_param (a := a.fill τ) (by simp [ha])]
  | @applied c as hc _ ih =>
    rw [hσ.fill_applied hc, hτ.fill_applied hc, hστ.fill_applied hc, List.map_map]
    exact congrArg (u.applied c) (List.map_congr_left ih)
  | @selected q c as hc _ _ ihq ih =>
    rw [hσ.fill_ref hc, hτ.fill_ref hc, hστ.fill_ref hc, List.map_map, Option.map_map]
    exact congrArg₂ (Ty.ref · c ·) (Option.map_congr ihq) (List.map_congr_left ih)

theorem ReferenceOver.fill_args (ht : u.ReferenceOver ps t) (hps : ∀ p ∈ ps, u.kind p = .typeParam)
    (hτ : u.OnParams τ) (hlen : as.length = ps.length) :
    (t.fill (argOf ps as)).fill τ = t.fill (argOf ps (as.map (Ty.fill τ))) := by
  have hsome : ∀ p ∈ ps, (argOf ps as p).isSome := fun p hp ↦ by
    obtain ⟨a, -, ha⟩ := exists_argOf hlen hp
    rw [ha, Option.isSome_some]
  have heq : argOf ps (as.map (Ty.fill τ)) = fun s ↦ (argOf ps as s).map (Ty.fill τ) :=
    funext fun _ ↦ argOf_map _
  rw [ht.fill_fill (onParams_argOf hps) hτ hsome, heq]

theorem ReferenceOver.instantiate (ht : u.ReferenceOver ps t)
    (hps : ∀ p ∈ ps, u.kind p = .typeParam) (hlen : as.length = ps.length)
    (apply : Ty → List Ty → Option Ty) :
    t.instantiate apply ps as = some (t.fill (argOf ps as)) := by
  have hσ : u.OnParams (argOf ps as) := onParams_argOf hps
  have hclass {c : SymbolId} (hc : u.kind c = .cls) : c ∉ ps :=
    fun hmem ↦ by simp [hps c hmem] at hc
  induction ht with
  | @param q p hp =>
    obtain ⟨i, hi⟩ : ∃ i, ps.idxOf? p = some i := Option.isSome_iff_exists.1 (by simpa using hp)
    have hlt : i < as.length := hlen ▸ (List.idxOf?_eq_some_iff.1 hi).1
    rw [fill_param (a := as[i]) (by simp [argOf, hi, hlt])]
    simp [Ty.instantiate, Ty.instantiateList, hi, hlt]
  | @applied c cs hc _ ih =>
    rw [hσ.fill_applied hc, instantiate_applied (fun p hp ↦ by simp [hps p hp]) (hclass hc),
      mapM_eq_some_map ih]
    rfl
  | @selected q c cs hc _ _ ihq ih =>
    have hhead (q' : Option Ty) (s : SymbolId) (as' : List Ty) (h : Ty.ref q c cs = .ref q' s as') :
        s ∉ ps :=
      (Ty.ref.inj h).2.1 ▸ hclass hc
    rw [hσ.fill_ref hc]
    exact Ty.instantiate_mapChildren hhead fun t ht ↦
      (List.mem_append.1 ht).elim (fun ht ↦ ihq t (Option.mem_toList.1 ht)) (ih t)

theorem ReferenceOver.substitute (ht : u.ReferenceOver ps t)
    (hps : ∀ p ∈ ps, u.kind p = .typeParam) (hlen : as.length = ps.length) (n : Nat) :
    t.substitute n ps as = some (t.fill (argOf ps as)) := by
  by_cases hnil : ps = []
  · subst hnil
    rw [Ty.substitute.eq_def, if_pos (by simp)]
    exact congrArg some t.fill_none.symm
  · have has : as ≠ [] := by
      rintro rfl
      exact hnil (List.length_eq_zero_iff.1 hlen.symm)
    rw [Ty.substitute.eq_def, if_neg (by simp [hnil, has])]
    cases n <;> exact ht.instantiate hps hlen _

end Fill

section Search

variable {c d p : SymbolId} {n : Nat} {visiting : List SymbolId} {as : List Ty}

theorem referenceOver_typeRef {qs : List SymbolId} :
    ∀ a ∈ qs.map u.typeRef, u.ReferenceOver qs a :=
  List.forall_mem_map.2 fun _ hp ↦ .param hp

theorem findBase_class (hd : u.kind d = .cls) :
    u.findBase p (n + 1) visiting (u.applied d as) =
      if d = p then some (some (u.applied d as))
      else u.findInParents (u.findBase p n) visiting d (u.specialise n d as) := by
  have hdealias : u.dealias n (u.applied d as) = some (u.applied d as) :=
    dealias_of_kind_ne (by simp [hd]) n
  rw [findBase, hdealias]
  simp [applied, findAboveRef, hd]

variable (hu : u.Constructible) (hparents : u.ParentsOverParams)

include hu

theorem fill_typeRefs (hlen : as.length = (u.entry c).typeParams.length) :
    ((u.entry c).typeParams.map u.typeRef).map (Ty.fill (argOf (u.entry c).typeParams as)) = as := by
  refine List.ext_getElem (by simp [hlen]) fun i hi hi' ↦ ?_
  have hlt : i < (u.entry c).typeParams.length := hlen ▸ hi'
  have harg : argOf (u.entry c).typeParams as (u.entry c).typeParams[i] = some as[i] :=
    (argOf_getElem (hu.nodup_typeParams c) hlt).trans (List.getElem?_eq_getElem hi')
  simp only [List.getElem_map]
  exact fill_param harg []

theorem argOf_onParams (c : SymbolId) (as : List Ty) :
    u.OnParams (argOf (u.entry c).typeParams as) :=
  onParams_argOf (hu.paramsAreParams c)

include hparents

theorem specialise_parent (hc : u.kind c = .cls) {t : Ty} (ht : t ∈ (u.entry c).parents) :
    ∃ (d : SymbolId) (es : List Ty), u.kind d = .cls ∧ es.length = (u.entry d).typeParams.length ∧
      (∀ e ∈ es, u.ReferenceOver (u.entry c).typeParams e) ∧
      ∀ bs : List Ty, bs.length = (u.entry c).typeParams.length → ∀ n,
        u.specialise n c bs t =
          some (u.applied d (es.map (Ty.fill (argOf (u.entry c).typeParams bs)))) := by
  obtain ⟨d, es, rfl, hd, hes, hover⟩ := hparents c hc t ht
  refine ⟨d, es, hd, hes, hover, fun bs hbs n ↦ ?_⟩
  have hsubst := (ReferenceOver.applied hd hover).substitute (hu.paramsAreParams c) hbs n
  rw [(argOf_onParams hu c bs).fill_applied hd] at hsubst
  rw [specialise, if_pos hbs, hsubst]

theorem findBase_over (hd : u.kind d = .cls) (hlen : as.length = (u.entry d).typeParams.length)
    {qs : List SymbolId} (has : ∀ a ∈ as, u.ReferenceOver qs a) {f : Ty}
    (h : u.findBase p n visiting (u.applied d as) = some (some f)) : u.ReferenceOver qs f := by
  induction n generalizing visiting d as with
  | zero => cases h
  | succ n ih =>
    rw [findBase_class hd] at h
    split at h
    · cases h
      exact .applied hd has
    · unfold findInParents at h
      split at h
      · cases h
      · obtain ⟨t, ht, h⟩ := findSomeM?_eq_some h
        obtain ⟨e, es, he, hes, hover, hspecialise⟩ := specialise_parent hu hparents hd ht
        rw [hspecialise as hlen n] at h
        refine ih he (by rwa [List.length_map]) (List.forall_mem_map.2 fun a ha ↦ ?_) h
        refine (hover a ha).fill (argOf_onParams hu d as) fun q hq ↦ ?_
        obtain ⟨b, hb, heq⟩ := exists_argOf hlen hq
        exact ⟨b, heq, has b hb⟩

/-- The search above an applied class goes the way of the search above the class itself, and at each
parent on it the arguments fill the same places. -/
theorem findBase_applied_eq (hd : u.kind d = .cls)
    (hlen : as.length = (u.entry d).typeParams.length) :
    u.findBase p n visiting (u.applied d as) =
      (u.findBase p n visiting (u.symbolType d)).map
        (Option.map (Ty.fill (argOf (u.entry d).typeParams as))) := by
  induction n generalizing visiting d as with
  | zero => rfl
  | succ n ih =>
    let own := (u.entry d).typeParams.map u.typeRef
    have hown : own.length = (u.entry d).typeParams.length := List.length_map _
    have hfilled : own.map (Ty.fill (argOf (u.entry d).typeParams as)) = as :=
      fill_typeRefs hu hlen
    rw [symbolType_class hd, findBase_class hd, findBase_class hd]
    split
    · rw [Option.map_some, Option.map_some, (argOf_onParams hu d as).fill_applied hd, hfilled]
    · unfold findInParents
      split
      · rfl
      · refine findSomeM?_map fun t ht ↦ ?_
        obtain ⟨e, es, he, hes, hover, hspecialise⟩ := specialise_parent hu hparents hd ht
        have hlength (σ : SymbolId → Option Ty) :
            (es.map (Ty.fill σ)).length = (u.entry e).typeParams.length := by
          rwa [List.length_map]
        -- filling in the class's own parameters first changes nothing
        have hstep : (es.map (Ty.fill (argOf (u.entry d).typeParams own))).map
              (Ty.fill (argOf (u.entry d).typeParams as)) =
            es.map (Ty.fill (argOf (u.entry d).typeParams as)) := by
          rw [List.map_map]
          refine List.map_congr_left fun a ha ↦ ?_
          have hfill := (hover a ha).fill_args (hu.paramsAreParams d) (argOf_onParams hu d as) hown
          rwa [hfilled] at hfill
        rw [hspecialise as hlen n, hspecialise own hown n]
        change u.findBase p n (d :: visiting) (u.applied e _) =
          (u.findBase p n (d :: visiting) (u.applied e _)).map _
        rw [ih he (hlength _), ih he (hlength _), Option.map_map, ← hstep]
        refine Option.map_congr fun found hfound ↦ ?_
        cases found with
        | none => rfl
        | some f =>
          rw [symbolType_class he] at hfound
          have hf : u.ReferenceOver (u.entry e).typeParams f :=
            findBase_over hu hparents he (List.length_map _) referenceOver_typeRef hfound
          have hfill := hf.fill_args (hu.paramsAreParams e) (argOf_onParams hu d as)
            (hlength (argOf (u.entry d).typeParams own))
          exact congrArg some hfill.symm

theorem findBase_ends (hd : u.kind d = .cls) (hlen : as.length = (u.entry d).typeParams.length)
    (hvisiting : visiting.Nodup) (hlt : ∀ s ∈ visiting, s < u.size)
    (hsteps : u.size < visiting.length + n) :
    ∃ o, u.findBase p n visiting (u.applied d as) = some o := by
  -- No class is searched twice, which bounds the steps by the classes that are not marked yet.
  induction n generalizing visiting d as with
  | zero => exact absurd hsteps (Nat.not_lt.2 (length_le_of_nodup hvisiting hlt))
  | succ n ih =>
    rw [findBase_class hd]
    split
    · exact ⟨_, rfl⟩
    · unfold findInParents
      split
      · exact ⟨none, rfl⟩
      · next hnot =>
        refine exists_findSomeM? fun t ht ↦ ?_
        obtain ⟨e, es, he, hes, -, hspecialise⟩ := specialise_parent hu hparents hd ht
        rw [hspecialise as hlen n]
        have hd' : d < u.size := kind_lt_size (by simp [hd])
        have hnotMem : d ∉ visiting := by simpa using hnot
        refine ih he (by rwa [List.length_map]) (List.nodup_cons.2 ⟨hnotMem, hvisiting⟩)
          (List.forall_mem_cons.2 ⟨hd', hlt⟩) ?_
        rw [List.length_cons]
        omega

/-- An applied class inherits from the classes that the class itself inherits from, and the form is
the same with the arguments substituted for the parameters, however long the way to it is. -/
theorem baseType_applied_eq_substitute (hc : u.kind c = .cls)
    (hlen : as.length = (u.entry c).typeParams.length) (hp : u.isUniversal p = false) :
    ∃ own given : Option Ty,
      (∀ n > u.size, u.baseType n (u.symbolType c) p = some own ∧
        u.baseType n (u.applied c as) p = some given) ∧
      Option.Rel (fun b b' ↦ ∀ n, b.substitute n (u.entry c).typeParams as = some b') own given := by
  let σ := argOf (u.entry c).typeParams as
  have hown : ((u.entry c).typeParams.map u.typeRef).length = (u.entry c).typeParams.length :=
    List.length_map _
  obtain ⟨own, hfind⟩ := findBase_ends (p := p) (n := u.size + 1) hu hparents hc hown
    List.nodup_nil (by simp) (by simp)
  rw [← symbolType_class hc] at hfind
  have hbase {n : Nat} {t : Ty} {o : Option Ty} (h : u.findBase p n [] t = some o) :
      u.baseType n t p = some o := by
    rw [baseType, h]
    cases o with
    | none => simp [hp]
    | some b => rfl
  refine ⟨own, own.map (Ty.fill σ), fun n hn ↦ ?_, ?_⟩
  · have hfound := u.findBase_keeps hn p [] (u.symbolType c) own hfind
    refine ⟨hbase hfound, hbase ?_⟩
    rw [findBase_applied_eq hu hparents hc hlen, hfound, Option.map_some]
  · cases own with
    | none => exact .none
    | some b =>
      rw [symbolType_class hc] at hfind
      have hb := findBase_over hu hparents hc hown referenceOver_typeRef hfind
      exact .some (hb.substitute (hu.paramsAreParams c) hlen)

end Search

section Circle

/-- The classes `Arrow[A, B]`, `Reversed[X, Y]`, an `Arrow[Y, X]`, and `Loop[T]`, a
`Reversed[T, Loop[T]]`. An arrow is a `Loop[A]` in turn. -/
def circle : SymbolTable :=
  let (arrow, u) := initial.cls 1 "Arrow"
  let (a, u) := u.typeParam arrow "A" .invariant
  let (_, u) := u.typeParam arrow "B" .invariant
  let (reversed, u) := u.cls 1 "Reversed"
  let (x, u) := u.typeParam reversed "X" .invariant
  let (y, u) := u.typeParam reversed "Y" .invariant
  let (loop, u) := u.cls 1 "Loop"
  let (t, u) := u.typeParam loop "T" .invariant
  let u := u.setParents arrow [u.applied loop [u.typeRef a]]
  let u := u.setParents reversed [u.applied arrow [u.typeRef y, u.typeRef x]]
  u.setParents loop [u.applied reversed [u.typeRef t, u.applied loop [u.typeRef t]]]

theorem constructible_circle : circle.Constructible := by
  refine .step (.step (.step (.step (.step (.step (.step (.step (.step (.step (.step .initial
    (.cls 1 "Arrow" ?_)) (.typeParam 5 "A" .invariant ?_)) (.typeParam 5 "B" .invariant ?_))
    (.cls 1 "Reversed" ?_)) (.typeParam 8 "X" .invariant ?_)) (.typeParam 8 "Y" .invariant ?_))
    (.cls 1 "Loop" ?_)) (.typeParam 11 "T" .invariant ?_)) (.setParents 5 _ ?_ ?_))
    (.setParents 8 _ ?_ ?_)) (.setParents 11 _ ?_ ?_)
  all_goals first
    | decide
    | exact fun t ht s hs ↦ (by decide : ∀ t ∈ _, ∀ s ∈ t.symbols, s < _) t ht s hs

theorem parentsOverParams_circle : circle.ParentsOverParams := by
  have hsmall : ∀ c : Nat, c < 13 → (circle.entry c).parents = [] ∨
      c = 5 ∧ (circle.entry c).parents = [circle.applied 11 [circle.typeRef 6]] ∨
      c = 8 ∧ (circle.entry c).parents = [circle.applied 5 [circle.typeRef 10, circle.typeRef 9]] ∨
      c = 11 ∧ (circle.entry c).parents =
        [circle.applied 8 [circle.typeRef 12, circle.applied 11 [circle.typeRef 12]]] := by
    decide +kernel
  have hparam {c p : SymbolId} (hp : p ∈ (circle.entry c).typeParams) :
      circle.ReferenceOver (circle.entry c).typeParams (circle.typeRef p) := .param hp
  intro c hc p hp
  have hlt : c < 13 := kind_lt_size (u := circle) (by simp [hc])
  rcases hsmall c hlt with h | ⟨rfl, h⟩ | ⟨rfl, h⟩ | ⟨rfl, h⟩ <;> rw [h] at hp
  · cases hp
  · refine ⟨11, _, List.mem_singleton.1 hp, by decide, by decide, ?_⟩
    simpa using hparam (c := 5) (by decide)
  · refine ⟨5, _, List.mem_singleton.1 hp, by decide, by decide, ?_⟩
    simpa using ⟨hparam (c := 8) (by decide), hparam (c := 8) (by decide)⟩
  · refine ⟨8, _, List.mem_singleton.1 hp, by decide, by decide, ?_⟩
    have ht : circle.ReferenceOver (circle.entry 11).typeParams (circle.typeRef 12) :=
      hparam (by decide)
    simpa using ⟨ht, ReferenceOver.applied (by decide) (by simpa using ht)⟩

theorem loop_specialised :
    let u := circle
    u.Constructible ∧ u.ParentsOverParams ∧ u.kind 11 = .cls ∧ u.isUniversal 5 = false ∧
      ∀ n > 13, u.baseType n (u.applied 11 [u.anyType]) 5 =
        some (some (u.applied 5 [u.applied 11 [u.anyType], u.anyType])) := by
  intro u
  have hlen : [u.anyType].length = (u.entry 11).typeParams.length := by decide
  obtain ⟨own, given, hends, hrel⟩ := baseType_applied_eq_substitute (p := 5)
    constructible_circle parentsOverParams_circle (by decide) hlen (by decide)
  refine ⟨constructible_circle, parentsOverParams_circle, by decide, by decide, fun n hn ↦ ?_⟩
  have hown : u.baseType 14 (u.symbolType 11) 5 =
      some (some (u.applied 5 [u.applied 11 [u.typeRef 12], u.typeRef 12])) := rfl
  cases (hends 14 (by decide)).1.symm.trans hown
  cases hrel with
  | some hsubst =>
    have hgiven : (u.applied 5 [u.applied 11 [u.typeRef 12], u.typeRef 12]).substitute 1 [12]
        [u.anyType] = some (u.applied 5 [u.applied 11 [u.anyType], u.anyType]) := rfl
    rw [(hends n hn).2]
    exact congrArg some ((hsubst 1).symm.trans hgiven)

end Circle

end SymbolTable

end TypeTag
