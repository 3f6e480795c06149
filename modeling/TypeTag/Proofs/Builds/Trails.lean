import Mathlib.Logic.Relation
import TypeTag.Proofs.Builds.Basic
import TypeTag.Proofs.Steps.Loops
import TypeTag.Proofs.Ty.Structure

namespace TypeTag

/-- The types of a set are on both trails or on neither. -/
structure Trail.Alike (A : Ty → Prop) (p q : Trail Measured) : Prop where
  depth : p.depth = q.depth
  contains : ∀ x, A x → p.contains x.measured = q.contains x.measured

theorem Trail.Alike.enter {A : Ty → Prop} {p q : Trail Measured} (h : Alike A p q) (t : Ty) :
    Alike A (p.enter t.measured) (q.enter t.measured) where
  depth := congrArg (· + 1) h.depth
  contains x hx := by
    rw [Bool.eq_iff_iff, contains_enter_iff, contains_enter_iff, h.contains x hx]

theorem Trail.Alike.refl {A : Ty → Prop} (p : Trail Measured) : Alike A p p where
  depth := rfl
  contains _ _ := rfl

theorem Trail.Alike.enter_of_not {A : Ty → Prop} {p q : Trail Measured} (h : Alike A p q) {s t : Ty}
    (hs : ¬A s) (ht : ¬A t) : Alike A (p.enter s.measured) (q.enter t.measured) where
  depth := congrArg (· + 1) h.depth
  contains x hx := by
    have hxs : x ≠ s := fun heq ↦ hs (heq ▸ hx)
    have hxt : x ≠ t := fun heq ↦ ht (heq ▸ hx)
    rw [Bool.eq_iff_iff, contains_enter_iff, contains_enter_iff, h.contains x hx]
    simp only [Ty.measured_inj, hxs, hxt, false_or]

namespace SymbolTable

variable (u : SymbolTable)

def qualifierTypes (t : Ty) : List Ty :=
  match t.qualifier? with
  | none => []
  | some q =>
    if q.symbol?.any u.isPackage then []
    else match q with
      | .self s => if (u.symbolType s).isRefined then [] else [u.symbolType s]
      | .single .. => []
      | q => [q]

def boundTypes (t : Ty) : List Ty :=
  match t.symbol?.map u.signature with
  | some (.bounds l h) => [l, h]
  | _ => []

def memberTypes : Member Ty → List Ty
  | .type _ (.bounds l h) => [l, h]
  | m => m.types

theorem mem_memberTypes_type {m : String} {t : Ty} (ht : ∀ l h, t ≠ .bounds l h) :
    t ∈ memberTypes (.type m t) := by
  cases t with
  | bounds l h => exact absurd rfl (ht l h)
  | _ => exact List.mem_singleton_self _

theorem mem_qualifierTypes {u : SymbolTable} {t x : Ty} (h : x ∈ u.qualifierTypes t) :
    t.qualifier? = some x ∨ ∃ s, t.qualifier? = some (.self s) ∧
      (u.symbolType s).isRefined = false ∧ x = u.symbolType s := by
  unfold qualifierTypes at h
  split at h
  · cases h
  · next q hq =>
    split at h
    · cases h
    · split at h
      · split at h
        · cases h
        · next hrefined => exact .inr ⟨_, hq, by simpa using hrefined, List.mem_singleton.1 h⟩
      · cases h
      · rw [List.mem_singleton.1 h]
        exact .inl hq

theorem mem_boundTypes {u : SymbolTable} {t x : Ty} (h : x ∈ u.boundTypes t) :
    ∃ s, t.symbol? = some s ∧ (x = (u.boundsOf s).1 ∨ x = (u.boundsOf s).2) := by
  unfold boundTypes at h
  split at h
  · next heq =>
    obtain ⟨s, hs, hsig⟩ := Option.map_eq_some_iff.1 heq
    obtain ⟨rfl, rfl⟩ := signature_eq_bounds hsig
    exact ⟨s, hs, by simpa using h⟩
  · cases h

theorem mem_memberTypes {m : Member Ty} {x : Ty} (h : x ∈ memberTypes m) :
    x ∈ m.types ∨ ∃ l h, .bounds l h ∈ m.types ∧ (x = l ∨ x = h) := by
  unfold memberTypes at h
  split at h
  · next n l r => exact .inr ⟨l, r, List.mem_singleton_self _, by simpa using h⟩
  · exact .inl h

/-- A type that the description of a type asks for. -/
inductive Asks : Ty → Ty → Prop
  | result {t x : Ty} {n : Nat} (ht : ¬u.Proper t)
    (h : u.dealiasResult n (u.etaExpand t) = some x) (hx : x ≠ t) : Asks t x
  | part {t x : Ty} {n : Nat} {ps : List Ty} {ms : List (Member Ty)}
    (h : u.flatten n t = some (.compound ps ms)) (hx : x ∈ ps) : Asks t x
  | member {t x : Ty} {n : Nat} {ps : List Ty} {ms : List (Member Ty)} {m : Member Ty}
    (h : u.flatten n t = some (.compound ps ms)) (hm : m ∈ ms) (hx : x ∈ memberTypes m) : Asks t x
  | named {t x p d e : Ty} {n : Nat} (hf : u.flatten n t = some (.single p))
    (hl : u.leaf n p = some d) (hd : u.dealiasResult n d = some e)
    (hx : x ∈ u.qualifierTypes e ++ u.boundTypes e ++ e.args) : Asks t x
  /-- The qualifier of a type that is cut. -/
  | cut {t x : Ty} (hx : x ∈ u.qualifierTypes t) : Asks t x

structure SameOn (r : Recursion) (p q : Trail Measured) (x : Ty) : Prop where
  nested : ∀ ρ, r.nested p ρ x = r.nested q ρ x
  contains : p.contains x.measured = q.contains x.measured

section Congruence

variable {u} {n : Nat} {r : Recursion} {p q : Trail Measured} {ρ : Bindings} {t : Ty}

theorem describeQualifier_congr {x : Ty} (hx : SameOn r p q x) :
    describeQualifier r p ρ t x = describeQualifier r q ρ t x := by
  unfold describeQualifier
  rw [hx.nested]

theorem qualifierOf_congr (h : ∀ x ∈ u.qualifierTypes t, SameOn r p q x) :
    u.qualifierOf r p ρ t = u.qualifierOf r q ρ t := by
  unfold qualifierOf
  unfold qualifierTypes at h
  cases hq : t.qualifier? with
  | none => rfl
  | some x =>
    rw [hq] at h
    dsimp only at h ⊢
    split
    · rfl
    · next hpackage =>
      rw [if_neg hpackage] at h
      cases x with
      | self s =>
        dsimp only at h ⊢
        split
        · rfl
        · next hrefined =>
          rw [if_neg hrefined] at h
          rw [describeQualifier_congr (h _ (List.mem_singleton_self _))]
      | single q s => rfl
      | _ => exact congrArg (some <$> ·) (describeQualifier_congr (h _ (List.mem_singleton_self _)))

theorem describeBounds_congr {l h : Ty} (hl : SameOn r p q l) (hh : SameOn r p q h) :
    u.describeBounds r p ρ l h = u.describeBounds r q ρ l h := by
  unfold describeBounds
  rw [hl.contains, hh.contains, hl.nested, hh.nested]

theorem boundariesOf_congr (h : ∀ x ∈ u.boundTypes t, SameOn r p q x) :
    u.boundariesOf r p ρ t = u.boundariesOf r q ρ t := by
  unfold boundariesOf
  unfold boundTypes at h
  split
  · next l h' heq =>
    rw [heq] at h
    exact describeBounds_congr (h l (by simp)) (h h' (by simp))
  · rfl

theorem describeCut_congr (h : ∀ x ∈ u.qualifierTypes t, SameOn r p q x) :
    u.describeCut r p ρ t = u.describeCut r q ρ t := by
  unfold describeCut
  rw [qualifierOf_congr h]

theorem headName_congr (h : ∀ x ∈ u.boundTypes t, SameOn r p q x) (d : Option Descriptor) :
    u.headName r p ρ t d = u.headName r q ρ t d := by
  unfold headName
  rw [boundariesOf_congr h]

theorem describeArgs_congr (h : ∀ x ∈ t.args, SameOn r p q x) :
    u.describeArgs n r p ρ t = u.describeArgs n r q ρ t := by
  unfold describeArgs
  refine congrArg _ (funext fun params ↦ mapM_congr fun (a, i) hmem ↦ ?_)
  have ha := h a (List.fst_mem_of_mem_zipIdx hmem)
  dsimp only
  rw [ha.nested]

theorem describeNamed_congr
    (h : ∀ e, u.dealiasResult n t = some e →
      ∀ x ∈ u.qualifierTypes e ++ u.boundTypes e ++ e.args, SameOn r p q x) :
    u.describeNamed n r p ρ t = u.describeNamed n r q ρ t := by
  unfold describeNamed
  cases hd : u.dealiasResult n t with
  | none => rfl
  | some e =>
    have he := h e hd
    simp only [Build.liftM_some, pure_bind]
    rw [qualifierOf_congr fun x hx ↦ he x (by simp [hx]),
      describeArgs_congr fun x hx ↦ he x (by simp [hx])]
    have hname (d : Option Descriptor) : u.headName r p ρ e d = u.headName r q ρ e d :=
      headName_congr (fun x hx ↦ he x (by simp [hx])) d
    simp only [hname]

theorem describeSignatureType_congr {m : String} (h : SameOn r p q t) :
    describeSignatureType r p ρ m t = describeSignatureType r q ρ m t := by
  unfold describeSignatureType
  rw [h.nested]

theorem describeMember_congr {m : Member Ty} (h : ∀ x ∈ memberTypes m, SameOn r p q x) :
    u.describeMember r p ρ m = u.describeMember r q ρ m := by
  cases m with
  | method m lists result =>
    have hresult : SameOn r p q result := h result List.mem_cons_self
    have hlists (ps : List Ty) (hps : ps ∈ lists) (x : Ty) (hx : x ∈ ps) : SameOn r p q x :=
      h x (List.mem_cons_of_mem result (List.mem_flatten_of_mem hps hx))
    unfold describeMember
    dsimp only
    rw [describeSignatureType_congr hresult]
    refine congrArg _ (funext fun d ↦ ?_)
    split
    · rfl
    · refine mapM_congr fun ps hps ↦ ?_
      rw [mapM_congr fun x hx ↦ describeSignatureType_congr (hlists ps hps x hx)]
  | type m t =>
    unfold describeMember
    dsimp only
    split
    · next l h' =>
      rw [describeBounds_congr (h l (by simp [memberTypes])) (h h' (by simp [memberTypes]))]
    · next hbounds => rw [(h t (mem_memberTypes_type hbounds)).nested]

theorem describeProper_congr (h : ∀ x, u.Asks t x → SameOn r p q x) :
    u.describeProper n r p ρ t = u.describeProper n r q ρ t := by
  unfold describeProper
  cases hf : u.flatten n t with
  | none => rfl
  | some f =>
    simp only [Build.liftM_some, pure_bind]
    cases f with
    | single x =>
      dsimp only
      cases hl : u.leaf n x with
      | none => rfl
      | some d =>
        simp only [Build.liftM_some, pure_bind]
        exact describeNamed_congr fun e he y hy ↦ h y (.named hf hl he hy)
    | compound ps ms =>
      dsimp only
      have hps := mapM_congr (f := r.nested p ρ) fun x hx ↦ (h x (.part hf hx)).nested ρ
      have hms := mapM_congr fun m hm ↦ describeMember_congr (u := u) (ρ := ρ) fun x hx ↦
        h x (.member hf hm hx)
      rw [hps]
      simp only [hms]

theorem describeLambda_congr (hdepth : p.depth = q.depth) (ht : ¬u.Proper t)
    (h : ∀ x, u.Asks t x → SameOn r p q x) :
    u.describeLambda n r p ρ t = u.describeLambda n r q ρ t := by
  have hbody (ρ : Bindings) (result : Ty)
      (hresult : u.dealiasResult n (u.etaExpand t) = some result) :
      u.describeBody n r p ρ t result = u.describeBody n r q ρ t result := by
    unfold describeBody
    split
    · next heq =>
      rw [heq]
      exact describeProper_congr h
    · next hne => exact (h result (.result ht hresult hne)).nested ρ
  unfold describeLambda
  dsimp only
  cases hresult : u.dealiasResult n (u.etaExpand t) with
  | none => rfl
  | some result =>
    simp only [Build.liftM_some, pure_bind, hbody _ result hresult, Trail.level, hdepth]

theorem describe_congr (hdepth : p.depth = q.depth) (h : ∀ x, u.Asks t x → SameOn r p q x) :
    u.describe n r p ρ false t = u.describe n r q ρ false t := by
  unfold describe
  rw [describeProper_congr h, Trail.level, Trail.level, hdepth]
  split
  · rfl
  · split
    · next hgeneric =>
      have ht : ¬u.Proper t := fun ht ↦ by simp [ht.1, ht.2] at hgeneric
      rw [describeLambda_congr hdepth ht h]
    · rfl

end Congruence

/-- A type that may be described on alike trails: it and what it expands to are among those that the
trails agree on. -/
structure Visible (A : Ty → Prop) (t : Ty) : Prop where
  own : A t
  expanded : ∀ n d, u.dealias n t = some d → A d

variable {u} {A : Ty → Prop}

theorem describeNested_congr {n : Nat} {r : Recursion} {p q : Trail Measured} {ρ : Bindings}
    {t : Ty} (hpq : Trail.Alike A p q) (ht : u.Visible A t)
    (hcut : ∀ x ∈ u.qualifierTypes t, SameOn r p q x)
    (h : ∀ x, u.Asks t x → SameOn r (p.enter t.measured) (q.enter t.measured) x) :
    u.describeNested n r p ρ t = u.describeNested n r q ρ t := by
  have hexpanding : u.isExpanding n p t = u.isExpanding n q t := by
    unfold isExpanding
    rw [hpq.contains t ht.own]
    cases hd : u.dealias n t with
    | none => rfl
    | some d =>
      simp only [Option.bind_eq_bind, Option.bind_some]
      rw [hpq.contains d (ht.expanded n d hd)]
  unfold describeNested
  rw [hexpanding, describeCut_congr hcut, describe_congr (hpq.enter t).depth h]

/-- Trails that agree on everything that can be asked for make no difference. -/
theorem nested_congr (n : Nat) {p q : Trail Measured} (hpq : Trail.Alike A p q) (ρ : Bindings)
    {t : Ty} (ht : ∀ x, Relation.ReflTransGen u.Asks t x → u.Visible A x) :
    u.nested n p ρ t = u.nested n q ρ t := by
  induction n generalizing p q ρ t with
  | zero => rw [nested, nested]
  | succ n ih =>
    have hsame {p q : Trail Measured} (hpq : Trail.Alike A p q) {x : Ty} (hx : u.Asks t x) :
        SameOn ⟨u.nested n, u.termQualifier n⟩ p q x :=
      ⟨fun ρ ↦ ih hpq ρ fun y hy ↦ ht y (.head hx hy),
        hpq.contains x (ht x (.single hx)).own⟩
    rw [nested, nested]
    exact describeNested_congr hpq (ht t .refl) (fun x hx ↦ hsame hpq (.cut hx))
      fun x hx ↦ hsame (hpq.enter t) hx

theorem sameOn_of_alike (n : Nat) {p q : Trail Measured} (hpq : Trail.Alike A p q) {t : Ty}
    (ht : ∀ x, Relation.ReflTransGen u.Asks t x → u.Visible A x) :
    SameOn (u.recursion n) p q t where
  nested ρ := nested_congr n hpq ρ ht
  contains := hpq.contains t (ht t .refl).own

end SymbolTable

end TypeTag
