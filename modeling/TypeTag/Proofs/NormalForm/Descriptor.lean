import TypeTag.Proofs.Builds.Basic
import TypeTag.Proofs.NormalForm.Image
import TypeTag.Proofs.Tags.Caching

namespace TypeTag

open Build (value?_bind_iff)

namespace Ty

theorem size_lt_of_mem_args {t a : Ty} (h : a ∈ t.args) : a.size < t.size := by
  cases t with
  | ref q s as =>
    have hle : a.size ≤ sizeList as := by
      simp only [args] at h
      induction as with
      | nil => cases h
      | cons b as ih =>
        rw [sizeList]
        rcases List.mem_cons.1 h with rfl | h
        · exact Nat.le_add_right _ _
        · exact Nat.le_trans (ih h) (Nat.le_add_left _ _)
    rw [size]
    omega
  | _ => cases h

end Ty

namespace SymbolTable

variable {u : SymbolTable}

/-- The parameters `ps` are first-order and bound, and no symbol of `D` is. -/
structure Binds (u : SymbolTable) (D : SymbolId → Prop) (ps : List SymbolId) (ρ : Bindings) :
    Prop where
  kind : ∀ p ∈ ps, u.kind p = .typeParam
  typeParams : ∀ p ∈ ps, (u.entry p).typeParams = []
  bound : ∀ p ∈ ps, (ρ.lookup (u.fullName p)).isSome = true
  free : ∀ s, D s → ρ.lookup (u.fullName s) = none

theorem Binds.nil {D : SymbolId → Prop} : u.Binds D [] [] where
  kind := by simp
  typeParams := by simp
  bound := by simp
  free _ _ := rfl

theorem boundariesOf_declares {r : Recursion} {trail : Trail Measured} {ρ : Bindings} {t : Ty}
    {s : SymbolId} (hs : u.Declares s) (ht : t.symbol? = some s) :
    (u.boundariesOf r trail ρ t).value? = some .empty := by
  have hk : (u.entry s).kind = u.kind s := rfl
  unfold boundariesOf
  rw [ht, Option.map_some]
  rcases hs with hs | hs | hs <;> simp only [signature, hk, hs] <;> rfl

variable {D : SymbolId → Prop} {ps : List SymbolId} {ρ : Bindings}

section Named

variable {n : Nat} {r : Recursion} {trail : Trail Measured} {d e : Ty}

theorem argDescriptors_value? {params : List SymbolId} {as es : List Ty} {k : Nat}
    (hlen : es.length = as.length)
    (h : ∀ (i : Nat) (a e : Ty), as[i]? = some a → es[i]? = some e →
      (r.nested trail ρ a).value? = some (u.imageUnder ρ e)) :
    ((as.zipIdx k).mapM fun (a, i) ↦ do
      return (⟨← r.nested trail ρ a, u.argVariance params i⟩ : TypeArg Descriptor)).value? =
        some (u.imageArgs ρ params k es) := by
  induction as generalizing es k with
  | nil =>
    rw [List.length_nil, List.length_eq_zero_iff] at hlen
    rw [hlen]
    rfl
  | cons a as ih =>
    obtain ⟨e, es, rfl⟩ := List.exists_cons_of_length_eq_add_one hlen
    have hes := ih (k := k + 1) (Nat.succ.inj hlen) fun i a e ha he ↦ h (i + 1) a e ha he
    rw [List.zipIdx_cons, List.mapM_cons]
    refine value?_bind_iff.2 ⟨_, value?_bind_iff.2 ⟨_, h 0 a e rfl rfl, rfl⟩, ?_⟩
    exact value?_bind_iff.2 ⟨_, hes, rfl⟩

theorem describeNamed_value?_of {q : Option Descriptor} {m : NameRef Descriptor}
    {l : List (TypeArg Descriptor)} (hd : u.aliasRedex? d = none) (hpoly : d.resultType = d)
    (hq : (u.qualifierOf r trail ρ d).value? = some q)
    (hm : (u.headName r trail ρ d q).value? = some m)
    (hargs : d.args ≠ [] → (u.describeArgs n r trail ρ d).value? = some l) :
    (u.describeNamed n r trail ρ d).value? =
      some (if d.args.isEmpty then .name m else .full m.name l q) := by
  have hresult : u.dealiasResult n d = some d := by
    unfold dealiasResult
    rw [dealias_of_aliasRedex?_eq_none hd, Option.bind_eq_bind, Option.bind_some, hpoly,
      dealias_of_aliasRedex?_eq_none hd]
  refine value?_bind_iff.2 ⟨d, Build.value?_lift_iff.2 hresult, ?_⟩
  refine value?_bind_iff.2 ⟨q, hq, value?_bind_iff.2 ⟨m, hm, ?_⟩⟩
  split
  · rfl
  · next hne => exact value?_bind_iff.2 ⟨l, hargs (by simpa using hne), rfl⟩

theorem headName_bound {t : Ty} {s : SymbolId} {x : String} {q : Option Descriptor}
    (ht : t.symbol? = some s) (hx : ρ.lookup (u.fullName s) = some x) :
    (u.headName r trail ρ t q).value? = some { name := u.nameUnder ρ s } := by
  have hplaceholder : u.placeholder? ρ t = some x := by
    rw [placeholder?, ht]
    exact hx
  rw [headName, hplaceholder, nameUnder, hx]
  rfl

/-- A class or an alias is described by its name, which is a placeholder if something that is bound
is called like it, and its arguments. -/
theorem describeNamed_applied {s : SymbolId} {as es : List Ty} (hs : u.Declares s)
    (ho : u.PackageOwned s) (hd : u.aliasRedex? (u.applied s as) = none)
    (hlen : es.length = as.length)
    (hargs : ∀ (i : Nat) (a f : Ty), as[i]? = some a → es[i]? = some f →
      (r.nested trail ρ a).value? = some (u.imageUnder ρ f)) :
    (u.describeNamed n r trail ρ (u.applied s as)).value? =
      some (u.imageUnder ρ (u.applied s es)) := by
  obtain ⟨o, ho, hk⟩ := ho.defaultQualifier hs
  have hparams : u.headParams n (u.applied s as) = some (u.entry s).typeParams := by
    unfold headParams
    rw [dealias_of_aliasRedex?_eq_none hd]
    rfl
  have hdescribe : (u.describeArgs n r trail ρ (u.applied s as)).value? =
      some (u.imageArgs ρ (u.entry s).typeParams 0 es) :=
    value?_bind_iff.2 ⟨_, Build.value?_lift_iff.2 hparams, argDescriptors_value? hlen hargs⟩
  have hq : (u.qualifierOf r trail ρ (u.applied s as)).value? = some none :=
    qualifierOf_package ho hk
  have hempty : es.isEmpty = as.isEmpty := by
    rw [Bool.eq_iff_iff, List.isEmpty_iff, List.isEmpty_iff, ← List.length_eq_zero_iff, hlen,
      List.length_eq_zero_iff]
  have hname : (u.headName r trail ρ (u.applied s as) none).value? =
      some { name := u.nameUnder ρ s } := by
    cases hfree : ρ.lookup (u.fullName s) with
    | some x => exact headName_bound rfl hfree
    | none =>
      rw [nameUnder, hfree]
      exact headName_value? hfree (boundariesOf_declares hs rfl) rfl
  have himage : u.imageUnder ρ (u.applied s es) =
      if as.isEmpty then .name { name := u.nameUnder ρ s }
      else .full (u.nameUnder ρ s) (u.imageArgs ρ (u.entry s).typeParams 0 es) none := by
    rw [SymbolTable.applied, imageUnder, hempty]
  rw [himage, describeNamed_value?_of hd rfl hq hname fun _ ↦ hdescribe]
  rfl

theorem describeNamed_object {s : SymbolId} (hs : u.kind s = .object) (ho : u.PackageOwned s)
    (hfree : ρ.lookup (u.fullName s) = none) (hterm : (r.termQualifier s).value? = some none) :
    (u.describeNamed n r trail ρ (u.single s)).value? =
      some (u.imageUnder ρ (u.single s)) := by
  have hdecl : u.Declares s := .inr (.inl hs)
  obtain ⟨o, ho, hk⟩ := ho.defaultQualifier hdecl
  have hq : (u.qualifierOf r trail ρ (u.single s)).value? = some none :=
    qualifierOf_package ho hk
  have hname : (u.nameOf r (u.single s) .empty none).value? = some { name := u.symName s } := by
    refine value?_bind_iff.2 ⟨{ name := u.symName s }, ?_, rfl⟩
    unfold termName
    rw [resolveTerm_object hs]
    exact value?_bind_iff.2 ⟨none, hterm, rfl⟩
  rw [describeNamed_value?_of rfl rfl hq
    (headName_value? hfree (boundariesOf_declares hdecl rfl) hname) (l := [])
    fun h ↦ absurd rfl h]
  rfl

theorem describeNamed_param {p : SymbolId} (hp : u.kind p = .typeParam)
    (hbound : (ρ.lookup (u.fullName p)).isSome = true) :
    (u.describeNamed n r trail ρ (u.typeRef p)).value? =
      some (u.imageUnder ρ (u.typeRef p)) := by
  obtain ⟨x, hx⟩ := Option.isSome_iff_exists.1 hbound
  have hd : u.aliasRedex? (u.typeRef p) = none := aliasRedex?_ref (.inl (by simp [hp]))
  have hq : (u.qualifierOf r trail ρ (u.typeRef p)).value? = some none := by
    refine qualifierOf_none ?_
    simp [typeRef, SymbolTable.applied, Ty.qualifier?, defaultQualifier, defaultQualifier.go, hp]
  have hname : (u.headName r trail ρ (u.typeRef p) none).value? =
      some { name := u.nameUnder ρ p } :=
    headName_bound rfl hx
  rw [describeNamed_value?_of hd rfl hq hname (l := []) fun h ↦ absurd rfl h]
  rfl

theorem describeNamed_value? (hu : u.Vocabulary D) (hρ : u.Binds D ps ρ)
    (hd : u.aliasRedex? d = none) (hover : u.Over D ps d) (hde : u.NormalForm d e)
    (hterm : ∀ s, D s → u.kind s = .object → (r.termQualifier s).value? = some none)
    (hargs : ∀ (i : Nat) (a f : Ty), d.args[i]? = some a → e.args[i]? = some f →
      (r.nested trail ρ a).value? = some (u.imageUnder ρ f)) :
    (u.describeNamed n r trail ρ d).value? = some (u.imageUnder ρ e) := by
  cases hover with
  | @applied s as hD hs hlen has =>
    cases hde with
    | expand ht => cases hd.symm.trans ht
    | ref _ hlen' _ =>
      exact describeNamed_applied (hs.imp_right .inr) (hu.owned s hD) hd hlen' hargs
  | @single s hD hs =>
    cases hde with
    | expand ht => cases ht
    | single => exact describeNamed_object hs (hu.owned s hD) (hρ.free s hD) (hterm s hD hs)
  | constant v =>
    cases hde with
    | expand ht => cases ht
    | constant =>
      rw [describeNamed_value?_of hd rfl (qualifierOf_none rfl)
        (headName_value? rfl rfl rfl) (l := []) fun h ↦ absurd rfl h]
      rfl
  | @param p hp =>
    cases hde with
    | expand ht => cases hd.symm.trans ht
    | @ref _ _ _ es _ hlen _ =>
      obtain rfl := List.length_eq_zero_iff.1 hlen
      exact describeNamed_param (hρ.kind p hp) (hρ.bound p hp)

end Named

section Describe

variable {t e : Ty}

theorem Over.takesTypeArgs (ht : u.Over D ps t) (hρ : u.Binds D ps ρ) :
    u.takesTypeArgs t = false := by
  cases ht with
  | applied _ _ hlen => exact takesTypeArgs_applied hlen
  | single | constant => rfl
  | param hp => exact takesTypeArgs_applied (by simp [hρ.typeParams _ hp])

theorem Over.isPoly (ht : u.Over D ps t) : t.isPoly = false := by
  cases ht <;> rfl

theorem Over.isRefined (ht : u.Over D ps t) : t.isRefined = false := by
  cases ht <;> rfl

theorem describe_value? {n : Nat} {r : Recursion} {trail : Trail Measured} {d : Ty}
    (hρ : u.Binds D ps ρ) (hd : u.dealias (n + 1) t = some d) (ht : u.Over D ps t)
    (hover : u.Over D ps d) {v : Descriptor}
    (hv : (u.describeNamed (n + 1) r trail ρ d).value? = some v) :
    (u.describe (n + 1) r trail ρ false t).value? = some v := by
  rw [describe_eq_describeProper ht.isPoly (ht.takesTypeArgs hρ),
    describeProper_eq_describeNamed (flatten_eq_single hd hover.isRefined) (ht.takesTypeArgs hρ) hd]
  exact value?_bind_iff.2 ⟨(), rfl, hv⟩

/-- The types being expanded are constructors, or have larger normal forms than `e`. -/
def Encloses (u : SymbolTable) (trail : Trail Measured) (e : Ty) : Prop :=
  ∀ t : Ty, trail.contains t.measured = true →
    u.takesTypeArgs t = true ∨ ∃ f, u.NormalForm t f ∧ e.size < f.size

theorem Encloses.enter {trail : Trail Measured} (h : u.Encloses trail e)
    (ht : u.NormalForm t e) {f : Ty} (hf : f.size < e.size) :
    u.Encloses (trail.enter t.measured) f := by
  intro x hx
  rcases Trail.contains_enter_iff.1 hx with hx | hx
  · rw [Ty.measured_inj.1 hx]
    exact .inr ⟨e, ht, hf⟩
  · exact (h x hx).imp_right fun ⟨g, hg, hlt⟩ ↦ ⟨g, hg, Nat.lt_trans hf hlt⟩

theorem Encloses.not_expanding {trail : Trail Measured} (h : u.Encloses trail e)
    (hρ : u.Binds D ps ρ) (ht : u.NormalForm t e) (hover : u.Over D ps t) {n : Nat} {d : Ty}
    (hd : u.dealias n t = some d) (hde : u.NormalForm d e) (hdover : u.Over D ps d) :
    u.isExpanding n trail t = some false := by
  have hnot {x : Ty} (hx : u.NormalForm x e) (hover : u.Over D ps x) :
      trail.contains x.measured = false := by
    by_contra hcontains
    rcases h x (by simpa using hcontains) with htakes | ⟨f, hf, hlt⟩
    · cases htakes.symm.trans (hover.takesTypeArgs hρ)
    · rw [hf.unique hx] at hlt
      exact Nat.lt_irrefl _ hlt
  unfold isExpanding
  rw [hnot ht hover, hd]
  simp [hnot hde hdover]

theorem NormalForm.args {d : Ty} (hd : u.aliasRedex? d = none) (hde : u.NormalForm d e)
    (hover : u.Over D ps d) {i : Nat} {a f : Ty} (ha : d.args[i]? = some a)
    (hf : e.args[i]? = some f) :
    u.NormalForm a f ∧ u.Over D ps a ∧ f.size < e.size := by
  have hlt : f.size < e.size := Ty.size_lt_of_mem_args (List.mem_of_getElem? hf)
  cases hde with
  | expand ht => cases hd.symm.trans ht
  | ref _ _ has =>
    cases hover with
    | applied _ _ _ hover => exact ⟨has i a f ha hf, hover a (List.mem_of_getElem? ha), hlt⟩
    | param hp => cases ha
  | single | constant => cases ha

theorem exists_common_bound {P : Nat → Nat → Prop} (k : Nat)
    (h : ∀ i < k, ∃ N, ∀ n, N ≤ n → P i n) : ∃ N, ∀ n, N ≤ n → ∀ i < k, P i n := by
  induction k with
  | zero => exact ⟨0, fun n _ i hi ↦ absurd hi (Nat.not_lt_zero i)⟩
  | succ k ih =>
    obtain ⟨N₁, h₁⟩ := ih fun i hi ↦ h i (Nat.lt_succ_of_lt hi)
    obtain ⟨N₂, h₂⟩ := h k (Nat.lt_succ_self k)
    refine ⟨max N₁ N₂, fun n hn i hi ↦ ?_⟩
    rcases Nat.lt_succ_iff_lt_or_eq.1 hi with hi | rfl
    · exact h₁ n (Nat.max_le.1 hn).1 i hi
    · exact h₂ n (Nat.max_le.1 hn).2

variable (hc : u.ParamsAreParams) (hu : u.Vocabulary D) (hρ : u.Binds D ps ρ)

include hc hu hρ

/-- A type inside others is described as it is alone, unless it is cut. -/
theorem exists_nested (h : u.NormalForm t e) (ht : u.Over D ps t)
    (hdescribe : ∃ N, ∀ n, N ≤ n → ∀ trail, u.Encloses trail e →
      (u.describe n (u.recursion n) (trail.enter t.measured) ρ false t).value? =
        some (u.imageUnder ρ e)) :
    ∃ N, ∀ n, N ≤ n → ∀ trail, u.Encloses trail e →
      (u.nested n trail ρ t).value? = some (u.imageUnder ρ e) := by
  obtain ⟨N₁, hdescribe⟩ := hdescribe
  obtain ⟨N₂, d, -, hde, hover, hdealias⟩ := h.exists_dealias hc hu hρ.kind ht
  refine ⟨max N₁ N₂ + 1, fun n hn trail htrail ↦ ?_⟩
  obtain ⟨n, rfl⟩ : ∃ m, n = m + 1 := ⟨n - 1, by omega⟩
  have hexpanding := htrail.not_expanding hρ h ht (hdealias n (by omega)) hde hover
  rw [nested]
  refine value?_bind_iff.2 ⟨false, Build.value?_lift_iff.2 hexpanding, ?_⟩
  exact hdescribe n (by omega) trail htrail

theorem NormalForm.exists_describe (h : u.NormalForm t e) (ht : u.Over D ps t) :
    ∃ N, ∀ n, N ≤ n → ∀ trail, u.Encloses trail e →
      (u.describe n (u.recursion n) (trail.enter t.measured) ρ false t).value? =
        some (u.imageUnder ρ e) := by
  -- Arguments have smaller normal forms than the types around them, so they are never cut.
  induction hk : e.size using Nat.strongRecOn generalizing t e with
  | ind k ih =>
    obtain ⟨N₁, d, hd, hde, hover, hdealias⟩ := h.exists_dealias hc hu hρ.kind ht
    obtain ⟨N₂, hargs⟩ : ∃ N, ∀ n, N ≤ n → ∀ i < d.args.length, ∀ a f : Ty,
        d.args[i]? = some a → e.args[i]? = some f → ∀ trail, u.Encloses trail f →
          (u.nested n trail ρ a).value? = some (u.imageUnder ρ f) := by
      refine exists_common_bound _ fun i hi ↦ ?_
      have ha : d.args[i]? = some d.args[i] := List.getElem?_eq_getElem hi
      cases hf : e.args[i]? with
      | none => exact ⟨0, fun n _ a f _ hf' ↦ nomatch hf'⟩
      | some f =>
        obtain ⟨haf, haover, hlt⟩ := hde.args hd hover ha hf
        obtain ⟨N, hN⟩ := exists_nested hc hu hρ haf haover (ih f.size (hk ▸ hlt) haf haover rfl)
        refine ⟨N, fun n hn a' f' ha' hf' ↦ ?_⟩
        cases ha.symm.trans ha'
        cases hf'
        exact hN n hn
    refine ⟨max N₁ N₂ + 1, fun n hn trail htrail ↦ ?_⟩
    obtain ⟨n, rfl⟩ : ∃ m, n = m + 1 := ⟨n - 1, by omega⟩
    refine describe_value? hρ (hdealias _ (by omega)) ht hover ?_
    refine describeNamed_value? hu hρ hd hover hde (fun s hD hs ↦ ?_) fun i a f ha hf ↦ ?_
    · obtain ⟨o, ho, hpackage⟩ := (hu.owned s hD).defaultQualifier (.inr (.inl hs))
      exact qualifierOf_package ho hpackage
    · obtain ⟨-, -, hlt⟩ := hde.args hd hover ha hf
      obtain ⟨hi, -⟩ := List.getElem?_eq_some_iff.1 ha
      exact hargs _ (by omega) i hi a f ha hf _ (htrail.enter h hlt)

end Describe

section Closed

variable {t e : Ty} (hc : u.ParamsAreParams)

include hc

theorem NormalForm.normal (hu : u.Plain) (h : u.NormalForm t e) (ht : u.FirstOrder [] t) :
    u.Normal e := by
  replace ht := ht.over
  induction h with
  | @expand t ps as b n t' e hredex hs _ ih =>
    exact ih (ht.expands hc hu.vocabulary (by simp) ⟨ps, as, b, n, hredex, hs⟩)
  | @ref q s as es hredex hlen has ih =>
    cases ht with
    | applied _ hs _ hover =>
      refine .applied hs fun f hf ↦ ?_
      obtain ⟨i, hi⟩ := List.mem_iff_getElem?.1 hf
      obtain ⟨hlt, -⟩ := List.getElem?_eq_some_iff.1 hi
      have ha := List.getElem?_eq_getElem (hlen ▸ hlt)
      exact ih i _ f ha hi (hover _ (List.getElem_mem _))
    | param hp => cases hp
  | single =>
    cases ht with
    | single _ hs => exact .single hs
  | constant v => exact .constant v

theorem Over.rootDescriptor_ends (hu : u.Vocabulary D) (ht : u.Over D [] t)
    (h : u.NormalForm t e) : Build.Ends (u.rootDescriptor · t) (some (u.image e)) := by
  obtain ⟨N₁, d, -, hde, hover, hdealias⟩ := h.exists_dealias hc hu (by simp) ht
  obtain ⟨N₂, hdescribe⟩ := hde.exists_describe hc hu .nil hover
  refine ⟨max N₁ N₂, fun n hn ↦ Build.outcome_eq_some_some_iff.2 ?_⟩
  obtain ⟨hn₁, hn₂⟩ := Nat.max_le.1 hn
  refine value?_bind_iff.2 ⟨d, Build.value?_lift_iff.2 (hdealias n hn₁), ?_⟩
  exact hdescribe n hn₂ .empty fun x hx ↦ nomatch hx

theorem NormalForm.rootDescriptor_ends (hu : u.Plain) (h : u.NormalForm t e)
    (ht : u.FirstOrder [] t) : Build.Ends (u.rootDescriptor · t) (some (u.image e)) :=
  ht.over.rootDescriptor_ends hc hu.vocabulary h

end Closed

/-- Over a table of plain declarations, two closed first-order types have the same descriptor just
if they have the same deep normal form. -/
theorem descriptor_eq_iff_normalForm_eq {u : SymbolTable} (hc : u.Constructible) (hu : u.Plain)
    {t₁ t₂ : Ty} (h₁ : u.FirstOrder [] t₁) (h₂ : u.FirstOrder [] t₂) {c : RootCache}
    (hr : c.Reached u) (config : Config) (alive : ObjectId → Bool) (o₁ o₂ : ObjectId) :
    ∃ d₁ d₂ e₁ e₂,
      Build.Ends (fun n ↦ (u.makeDescriptor n config c alive ⟨o₁, t₁⟩).1) (some d₁) ∧
      Build.Ends (fun n ↦ (u.makeDescriptor n config c alive ⟨o₂, t₂⟩).1) (some d₂) ∧
      (∀ e, u.NormalForm t₁ e ↔ e = e₁) ∧ (∀ e, u.NormalForm t₂ e ↔ e = e₂) ∧
      (d₁ = d₂ ↔ e₁ = e₂) := by
  have hp := hc.paramsAreParams
  obtain ⟨e₁, he₁⟩ := h₁.exists_normalForm hp hu
  obtain ⟨e₂, he₂⟩ := h₂.exists_normalForm hp hu
  refine ⟨u.image e₁, u.image e₂, e₁, e₂, ?_, ?_, fun e ↦ ⟨fun h ↦ h.unique he₁, ?_⟩,
    fun e ↦ ⟨fun h ↦ h.unique he₂, ?_⟩, fun h ↦ ?_, congrArg u.image⟩
  · exact (makeDescriptor_ends_iff hr.sound config alive _).2 (he₁.rootDescriptor_ends hp hu h₁)
  · exact (makeDescriptor_ends_iff hr.sound config alive _).2 (he₂.rootDescriptor_ends hp hu h₂)
  · rintro rfl
    exact he₁
  · rintro rfl
    exact he₂
  · exact (he₁.normal hp hu h₁).image_injective hu (he₂.normal hp hu h₂) h

theorem not_transGen_of_lt {u : SymbolTable}
    (h : ∀ s s' : Nat, u.AliasNames s s' → s' < s) (s : Nat) :
    ¬Relation.TransGen u.AliasNames s s := by
  have hlt {s s' : Nat} (hs : Relation.TransGen u.AliasNames s s') : s' < s := by
    induction hs with
    | single hs => exact h _ _ hs
    | tail _ hs ih => exact Nat.lt_trans (h _ _ hs) ih
  exact fun hs ↦ Nat.lt_irrefl s (hlt hs)

/-- The classes `Int` and `Box[A]` and the object `Nil`; `Boxed[X]` stands for `Box[X]` and
`IntBox` for `Boxed[Int]`. -/
def boxAliases : SymbolTable :=
  let (int, u) := initial.cls 1 "Int"
  let (box, u) := u.cls 1 "Box"
  let (_, u) := u.typeParam box "A" .covariant
  let (_, u) := u.object 1 "Nil"
  let (boxed, u) := u.typeAlias 1 "Boxed"
  let (x, u) := u.typeParam boxed "X" .invariant
  let u := u.setBody boxed (u.applied box [u.typeRef x])
  let (intBox, u) := u.typeAlias 1 "IntBox"
  u.setBody intBox (u.applied boxed [u.typeRef int])

theorem constructible_boxAliases : boxAliases.Constructible := by
  refine .step (.step (.step (.step (.step (.step (.step (.step (.step .initial
    (.cls 1 "Int" ?_)) (.cls 1 "Box" ?_)) (.typeParam 6 "A" .covariant ?_)) (.object 1 "Nil" ?_))
    (.typeAlias 1 "Boxed" ?_)) (.typeParam 9 "X" .invariant ?_)) (.setBody 9 _ ?_ ?_))
    (.typeAlias 1 "IntBox" ?_)) (.setBody 11 _ ?_ ?_)
  all_goals first
    | decide
    | exact fun s hs ↦ (by decide : ∀ s ∈ _, s < _) s hs

theorem plain_boxAliases : boxAliases.Plain := by
  have hlt {s : Nat} (hs : boxAliases.Declares s) : s < 12 := by
    refine kind_lt_size (u := boxAliases) ?_
    rcases hs with hs | hs | hs <;> simp [hs]
  have howner : ∀ s : Nat, s < 12 → boxAliases.Declares s →
      (boxAliases.entry s).owner = some 1 := by decide
  have hdistinct : ∀ s : Nat, s < 12 → ∀ s' : Nat, s' < 12 → boxAliases.Declares s →
      boxAliases.Declares s' → boxAliases.fullName s = boxAliases.fullName s' → s = s' := by
    decide
  have hparams : ∀ s : Nat, s < 12 → ∀ p ∈ (boxAliases.entry s).typeParams,
      (boxAliases.entry p).typeParams = [] := by decide
  have hbodies : ∀ s : Nat, s < 12 → boxAliases.kind s = .typeAlias →
      (s = 9 ∧ (boxAliases.entry s).body = some (boxAliases.applied 6 [boxAliases.typeRef 10])) ∨
      (s = 11 ∧ (boxAliases.entry s).body = some (boxAliases.applied 9 [boxAliases.typeRef 5])) := by
    decide +kernel
  have hnames : ∀ s : Nat, s < 12 → ∀ s' : Nat, s' < 12 → boxAliases.kind s' = .typeAlias →
      (boxAliases.entry s).body.any (·.symbols.contains s') = true → s' < s := by decide
  refine ⟨fun s hs ↦ ⟨1, howner s (hlt hs) hs, by decide⟩,
    fun s s' hs hs' ↦ hdistinct s (hlt hs) s' (hlt hs') hs hs', fun s hs ↦ hparams s (hlt hs),
    fun s hs b hb ↦ ?_, not_transGen_of_lt fun s s' ⟨hs, hs', b, hb, hmem⟩ ↦ ?_⟩
  · have hb : (boxAliases.entry s).body = some b := hb
    rcases hbodies s (hlt (.inr (.inr hs))) hs with ⟨rfl, h⟩ | ⟨rfl, h⟩
    · cases h.symm.trans hb
      refine .applied (by decide) (by decide) fun a ha ↦ ?_
      rw [List.mem_singleton.1 ha]
      exact .param (by decide)
    · cases h.symm.trans hb
      refine .applied (by decide) (by decide) fun a ha ↦ ?_
      rw [List.mem_singleton.1 ha]
      exact .applied (by decide) (by decide) fun a ha ↦ nomatch ha
  · refine hnames s (hlt (.inr (.inr hs))) s' (hlt (.inr (.inr hs'))) hs' ?_
    have hb : (boxAliases.entry s).body = some b := hb
    simpa [hb] using hmem

theorem intBox_descriptor :
    ∃ d, Build.Ends (fun n ↦ (boxAliases.makeDescriptor n {} .empty (fun _ ↦ true)
        ⟨0, boxAliases.typeRef 11⟩).1) (some d) ∧
      Build.Ends (fun n ↦ (boxAliases.makeDescriptor n {} .empty (fun _ ↦ true)
        ⟨1, boxAliases.applied 6 [boxAliases.typeRef 5]⟩).1) (some d) := by
  have hint : boxAliases.FirstOrder [] (boxAliases.typeRef 5) :=
    .applied (by decide) (by decide) fun a ha ↦ nomatch ha
  have hbox : boxAliases.FirstOrder [] (boxAliases.applied 6 [boxAliases.typeRef 5]) := by
    refine .applied (by decide) (by decide) fun a ha ↦ ?_
    rw [List.mem_singleton.1 ha]
    exact hint
  have hintBox : boxAliases.FirstOrder [] (boxAliases.typeRef 11) :=
    .applied (by decide) (by decide) fun a ha ↦ nomatch ha
  have hnormal : boxAliases.NormalForm (boxAliases.applied 6 [boxAliases.typeRef 5])
      (boxAliases.applied 6 [boxAliases.typeRef 5]) := by
    refine .ref (by decide) rfl fun i a e ha he ↦ ?_
    obtain rfl := Option.some.inj (ha.symm.trans he)
    rw [List.mem_singleton.1 (List.mem_of_getElem? ha)]
    exact .ref (by decide) rfl fun i a e ha ↦ by simp at ha
  have hredex : boxAliases.aliasRedex? (boxAliases.typeRef 11) =
      some ([], [], boxAliases.applied 9 [boxAliases.typeRef 5]) := by decide +kernel
  have hredex' : boxAliases.aliasRedex? (boxAliases.applied 9 [boxAliases.typeRef 5]) =
      some ([10], [boxAliases.typeRef 5], boxAliases.applied 6 [boxAliases.typeRef 10]) := by
    decide +kernel
  have hsubst : (boxAliases.applied 6 [boxAliases.typeRef 10]).substitute 0 [10]
      [boxAliases.typeRef 5] = some (boxAliases.applied 6 [boxAliases.typeRef 5]) := by
    rfl
  have hexpand : boxAliases.NormalForm (boxAliases.typeRef 11)
      (boxAliases.applied 6 [boxAliases.typeRef 5]) :=
    .expand hredex (n := 0) rfl (.expand hredex' hsubst hnormal)
  obtain ⟨d₁, d₂, e₁, e₂, hd₁, hd₂, he₁, he₂, heq⟩ := descriptor_eq_iff_normalForm_eq
    constructible_boxAliases plain_boxAliases hintBox hbox .empty {} (fun _ ↦ true) 0 1
  have hsame : d₁ = d₂ := heq.2 (((he₁ _).1 hexpand).symm.trans ((he₂ _).1 hnormal))
  exact ⟨d₁, hd₁, hsame ▸ hd₂⟩

end SymbolTable

end TypeTag
