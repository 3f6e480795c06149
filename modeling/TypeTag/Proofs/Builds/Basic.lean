import TypeTag.Proofs.Descriptor.Parts
import TypeTag.Proofs.Steps.Builds
import TypeTag.Proofs.Steps.Ends

namespace TypeTag

open Build (Steady value?_bind_iff value?_lift_iff)

theorem Build.liftM_some {α : Type} (a : α) : (liftM (some a) : Build α) = Pure.pure a :=
  rfl

theorem Trail.contains_enter_iff {α : Type} [BEq α] [LawfulBEq α] {p : Trail α} {a b : α} :
    (p.enter a).contains b = true ↔ b = a ∨ p.contains b = true := by
  simp only [contains, List.lookup_isSome_iff, enter]
  split
  · next ha =>
    have hkeys : (∃ e ∈ p.counts.map fun e ↦ if e.1 == a then (e.1, e.2 + 1) else e,
        (b == e.1) = true) ↔ ∃ e ∈ p.counts, (b == e.1) = true := by
      constructor
      · rintro ⟨_, hmem, hb⟩
        obtain ⟨e, he, rfl⟩ := List.mem_map.1 hmem
        refine ⟨e, he, ?_⟩
        split at hb <;> exact hb
      · rintro ⟨e, he, hb⟩
        refine ⟨_, List.mem_map_of_mem he, ?_⟩
        split <;> exact hb
    rw [hkeys, or_iff_right_of_imp]
    rintro rfl
    exact ha
  · simp

theorem Trail.not_contains_enter {p : Trail Measured} {t a : Ty} (hne : t ≠ a)
    (hp : p.contains t.measured = false) : (p.enter a.measured).contains t.measured = false := by
  rw [Bool.eq_false_iff, ne_eq, contains_enter_iff, Ty.measured_inj, hp]
  exact fun h ↦ h.elim hne Bool.false_ne_true

namespace SymbolTable

def Proper (u : SymbolTable) (t : Ty) : Prop :=
  t.isPoly = false ∧ u.takesTypeArgs t = false

instance (u : SymbolTable) (t : Ty) : Decidable (u.Proper t) :=
  inferInstanceAs (Decidable (_ ∧ _))

variable {u : SymbolTable} {r : Recursion} {trail : Trail Measured} {t : Ty}

theorem typeParams_etaExpand (u : SymbolTable) (t : Ty) :
    u.typeParams (u.etaExpand t) = u.typeParams t := by
  unfold etaExpand
  split
  · dsimp only
    split
    · rfl
    · rfl
  · rfl

theorem etaExpand_of_not_takesTypeArgs (h : u.takesTypeArgs t = false) : u.etaExpand t = t := by
  cases t with
  | ref q s as =>
    cases as with
    | nil => simpa [etaExpand, takesTypeArgs, typeParams] using h
    | cons a as => rfl
  | _ => rfl

theorem takesTypeArgs_applied {s : SymbolId} {as : List Ty}
    (h : as.length = (u.entry s).typeParams.length) : u.takesTypeArgs (u.applied s as) = false := by
  cases as with
  | nil => simpa [takesTypeArgs, applied, typeParams] using h.symm
  | cons a as => rfl

theorem signature_eq_bounds {u : SymbolTable} {s : SymbolId} {l h : Ty}
    (hs : u.signature s = .bounds l h) : l = (u.boundsOf s).1 ∧ h = (u.boundsOf s).2 := by
  have hk : (u.entry s).kind = .typeParam ∨ (u.entry s).kind = .abstractType := by
    cases hk : (u.entry s).kind with
    | typeParam => exact .inl rfl
    | abstractType => exact .inr rfl
    | term =>
      cases hb : (u.entry s).body with
      | none => simp [signature, hk, hb] at hs
      | some t => cases t <;> simp [signature, hk, hb, Ty.isSingle] at hs
    | _ => simp [signature, hk] at hs
  rcases hk with hk | hk <;> simp only [signature, hk, Signature.bounds.injEq] at hs <;>
    exact ⟨hs.1.symm, hs.2.symm⟩

theorem qualifierOf_package {ρ : Bindings} {o : SymbolId}
    (ht : t.qualifier? = some (.ref none o [])) (ho : u.kind o = .package) :
    (u.qualifierOf r trail ρ t).value? = some none := by
  unfold qualifierOf
  simp only [ht, Ty.symbol?, isPackage, Option.any_some, ho, beq_self_eq_true, if_true]
  rfl

theorem qualifierOf_none {ρ : Bindings} (ht : t.qualifier? = none) :
    (u.qualifierOf r trail ρ t).value? = some none := by
  unfold qualifierOf
  simp only [ht]
  rfl

theorem placeholder?_nil : u.placeholder? [] t = none := by
  unfold placeholder?
  cases t.symbol? <;> rfl

theorem headName_value? {ρ : Bindings} {q : Option Descriptor} {m : NameRef Descriptor}
    (hfree : u.placeholder? ρ t = none) (hb : (u.boundariesOf r trail ρ t).value? = some .empty)
    (hm : (u.nameOf r t .empty q).value? = some m) :
    (u.headName r trail ρ t q).value? = some m := by
  unfold headName
  rw [hfree]
  exact value?_bind_iff.2 ⟨_, hb, hm⟩

section Flatten

variable {m n : Nat} {stack parts : List Ty} {members : List (Member Ty)}

theorem flattenFrom_refined {ps : List Ty} {ms : List (Member Ty)}
    (hd : u.dealias m t = some (.refined ps ms)) :
    u.flattenFrom m (n + 1) (t :: stack) parts members =
      u.flattenFrom m n (ps ++ stack) parts (members ++ ms) := by
  rw [flattenFrom, hd]
  rfl

theorem flattenFrom_leaf {d : Ty} (hd : u.dealias m t = some d) (hrefined : d.isRefined = false) :
    u.flattenFrom m (n + 1) (t :: stack) parts members =
      u.flattenFrom m n stack (if parts.contains t then parts else parts ++ [t]) members := by
  rw [flattenFrom, hd]
  cases d with
  | refined ps ms => cases hrefined
  | _ => rfl

theorem flattenFrom_of_single {p : Ty} (h : u.flatten n t = some (.single p)) :
    u.flattenFrom n n [t] [] [] = some ([p], []) := by
  obtain ⟨⟨ps, ms⟩, hfrom, h⟩ := Option.bind_eq_some_iff.1 h
  split at h
  · next heq =>
    cases h
    rw [hfrom, heq]
  · cases h

theorem flattenFrom_of_compound {ps : List Ty} {ms : List (Member Ty)}
    (h : u.flatten n t = some (.compound ps ms)) :
    u.flattenFrom n n [t] [] [] = some (ps, ms) := by
  obtain ⟨⟨qs, ns⟩, hfrom, h⟩ := Option.bind_eq_some_iff.1 h
  split at h
  · cases h
  · next heq =>
    cases h
    rw [hfrom, heq]

end Flatten

theorem flatten_eq_single {n : Nat} {d : Ty} (hd : u.dealias (n + 1) t = some d)
    (hrefined : d.isRefined = false) : u.flatten (n + 1) t = some (.single t) := by
  have hfrom : u.flattenFrom (n + 1) (n + 1) [t] [] [] = some ([t], []) := by
    rw [flattenFrom_leaf hd hrefined]
    simp [flattenFrom]
  unfold flatten
  rw [hfrom]
  rfl

theorem eq_single_of_flatten {n : Nat} {f : Flattening} (ht : ∀ n, u.dealias n t = some t)
    (hrefined : t.isRefined = false) (hf : u.flatten n t = some f) : f = .single t := by
  cases n with
  | zero => cases hf
  | succ n => exact Option.some.inj (hf.symm.trans (flatten_eq_single (ht (n + 1)) hrefined))

theorem describe_eq_describeProper {n : Nat} {ρ : Bindings} (hpoly : t.isPoly = false)
    (hargs : u.takesTypeArgs t = false) :
    u.describe n r trail ρ false t =
      .emit (.describing t trail.level false) >>= fun _ ↦ u.describeProper n r trail ρ t := by
  simp only [describe, hpoly, hargs, Bool.false_and, Bool.or_self, Bool.false_eq_true, if_false]

theorem describe_eq_describeLambda {n : Nat} (ht : ¬u.Proper t) :
    u.describe n r trail [] false t =
      .emit (.describing t trail.level false) >>= fun _ ↦ u.describeLambda n r trail [] t := by
  have hgeneric : (t.isPoly || (u.takesTypeArgs t && (u.placeholder? [] t).isNone)) = true := by
    rw [placeholder?_nil]
    simpa [Proper, Classical.or_iff_not_imp_left] using ht
  simp only [describe, hgeneric, Bool.false_eq_true, if_false, if_true]

theorem describeProper_eq_of_leaf {n : Nat} {ρ : Bindings} {p d : Ty}
    (hflat : u.flatten n t = some (.single p)) (hd : u.leaf n p = some d) :
    u.describeProper n r trail ρ t = u.describeNamed n r trail ρ d := by
  simp only [describeProper, hflat, Build.liftM_some, pure_bind, hd]

theorem describeProper_eq_describeNamed {n : Nat} {ρ : Bindings} {p d : Ty}
    (hflat : u.flatten n t = some (.single p)) (hargs : u.takesTypeArgs p = false)
    (hd : u.dealias n p = some d) :
    u.describeProper n r trail ρ t = u.describeNamed n r trail ρ d :=
  describeProper_eq_of_leaf hflat (by simp [leaf, hargs, hd])

theorem describeProper_applied {c : SymbolId} (hc : u.kind c = .cls) {as : List Ty}
    (hargs : u.takesTypeArgs (u.applied c as) = false) (n : Nat) :
    u.describeProper (n + 1) r trail [] (u.applied c as) = do
      let q ← u.qualifierOf r trail [] (u.applied c as)
      if as.isEmpty then return .name { name := u.symName c, qualifier := q }
      return .full (u.symName c) (← u.describeArgs (n + 1) r trail [] (u.applied c as)) q := by
  have hk : (u.entry c).kind = .cls := hc
  have hd : u.dealias (n + 1) (u.applied c as) = some (u.applied c as) :=
    dealias_of_kind_ne (by simp [hc]) _
  have hresult : u.dealiasResult (n + 1) (u.applied c as) = some (u.applied c as) := by
    rw [dealiasResult, hd]
    exact hd
  have hhead (q : Option Descriptor) : u.headName r trail [] (u.applied c as) q =
      pure { name := u.symName c, qualifier := q } := by
    simp [headName, placeholder?_nil, boundariesOf, applied, Ty.symbol?, signature, hk, nameOf]
  rw [describeProper_eq_describeNamed (flatten_eq_single hd rfl) hargs hd, describeNamed, hresult]
  simp only [Build.liftM_some, pure_bind, hhead]
  rfl

section Inversion

variable {n : Nat} {ρ : Bindings} {d : Descriptor}

theorem describeQualifier_value? {q : Ty} (h : (describeQualifier r trail ρ t q).value? = some d) :
    (r.nested trail ρ q).value? = some d ∧ d.isApplied = true := by
  obtain ⟨e, he, h⟩ := value?_bind_iff.1 h
  split at h
  · next happlied =>
    cases h
    exact ⟨he, happlied⟩
  · cases h

theorem describeSignatureType_value? {m : String}
    (h : (describeSignatureType r trail ρ m t).value? = some d) :
    (r.nested trail ρ t).value? = some d ∧ d.isApplied = true := by
  obtain ⟨e, he, h⟩ := value?_bind_iff.1 h
  split at h
  · next happlied =>
    cases h
    exact ⟨he, happlied⟩
  · cases h

theorem describeBounds_types {l h : Ty} {b : Boundaries Descriptor}
    (hb : (u.describeBounds r trail ρ l h).value? = some b) : ∀ e ∈ b.types,
      (r.nested trail ρ l).value? = some e ∨ (r.nested trail ρ h).value? = some e := by
  unfold describeBounds at hb
  split at hb
  · cases hb
    exact fun e he ↦ nomatch he
  · split at hb
    · obtain ⟨-, -, hb⟩ := value?_bind_iff.1 hb
      cases hb
      exact fun e he ↦ nomatch he
    · obtain ⟨d, hd, hb⟩ := value?_bind_iff.1 hb
      obtain ⟨e, he, hb⟩ := value?_bind_iff.1 hb
      cases hb
      intro x hx
      rcases List.mem_cons.1 hx with rfl | hx
      · exact .inl hd
      · exact .inr (List.mem_singleton.1 hx ▸ he)

theorem describeArgs_types {as : List (TypeArg Descriptor)}
    (h : (u.describeArgs n r trail ρ t).value? = some as) {a : TypeArg Descriptor} (ha : a ∈ as) :
    ∃ x ∈ t.args, (r.nested trail ρ x).value? = some a.reference := by
  obtain ⟨params, -, h⟩ := value?_bind_iff.1 h
  obtain ⟨⟨x, i⟩, hx, hax⟩ := Build.exists_of_mem_value?_mapM h ha
  obtain ⟨d, hd, hax⟩ := value?_bind_iff.1 hax
  cases hax
  exact ⟨x, List.fst_mem_of_mem_zipIdx hx, hd⟩

theorem headName_cases {q : Option Descriptor} {m : NameRef Descriptor}
    (h : (u.headName r trail ρ t q).value? = some m) :
    (∃ x, u.placeholder? ρ t = some x ∧ m = { name := .type x }) ∨
      u.placeholder? ρ t = none ∧ ∃ b, (u.boundariesOf r trail ρ t).value? = some b ∧
        (u.nameOf r t b q).value? = some m := by
  unfold headName at h
  split at h
  · next x hx =>
    cases h
    exact .inl ⟨x, hx, rfl⟩
  · next hfree =>
    obtain ⟨b, hb, h⟩ := value?_bind_iff.1 h
    exact .inr ⟨hfree, b, hb, h⟩

theorem describeCut_cases (h : (u.describeCut r trail ρ t).value? = some d) :
    (∃ x, u.placeholder? ρ t = some x ∧ d = .typeName x) ∨
      u.placeholder? ρ t = none ∧ ∃ q m, (u.qualifierOf r trail ρ t).value? = some q ∧
        (u.nameOf r t .empty q).value? = some m ∧ d = .name m := by
  unfold describeCut at h
  split at h
  · next x hx =>
    cases h
    exact .inl ⟨x, hx, rfl⟩
  · next hfree =>
    obtain ⟨q, hq, h⟩ := value?_bind_iff.1 h
    obtain ⟨m, hm, h⟩ := value?_bind_iff.1 h
    cases h
    exact .inr ⟨hfree, q, m, hq, hm, rfl⟩

theorem describeNamed_cases (h : (u.describeNamed n r trail ρ t).value? = some d) :
    ∃ e q m, u.dealiasResult n t = some e ∧ (u.qualifierOf r trail ρ e).value? = some q ∧
      (u.headName r trail ρ e q).value? = some m ∧ (e.args = [] ∧ d = .name m ∨ e.args ≠ [] ∧
        ∃ as, (u.describeArgs n r trail ρ e).value? = some as ∧ d = .full m.name as q) := by
  obtain ⟨e, he, h⟩ := value?_bind_iff.1 h
  obtain ⟨q, hq, h⟩ := value?_bind_iff.1 h
  obtain ⟨m, hm, h⟩ := value?_bind_iff.1 h
  refine ⟨e, q, m, value?_lift_iff.1 he, hq, hm, ?_⟩
  split at h
  · next hnil =>
    cases h
    exact .inl ⟨List.isEmpty_iff.1 hnil, rfl⟩
  · next hargs =>
    obtain ⟨as, has, h⟩ := value?_bind_iff.1 h
    cases h
    exact .inr ⟨by simpa using hargs, as, has, rfl⟩

theorem describeProper_cases (h : (u.describeProper n r trail ρ t).value? = some d) :
    (∃ p e, u.flatten n t = some (.single p) ∧ u.leaf n p = some e ∧
      (u.describeNamed n r trail ρ e).value? = some d) ∨
    ∃ ps ms ds, u.flatten n t = some (.compound ps ms) ∧
      (ps.mapM (r.nested trail ρ)).value? = some ds ∧ (ms = [] ∧ d = .intersect ds ∨ ms ≠ [] ∧
        ∃ decls, (ms.mapM (u.describeMember r trail ρ)).value? = some decls ∧
          d = .refinement (.intersect ds) (SortedSet.ofList decls.flatten)) := by
  obtain ⟨f, hf, h⟩ := value?_bind_iff.1 h
  have hf := value?_lift_iff.1 hf
  cases f with
  | single p =>
    obtain ⟨e, he, h⟩ := value?_bind_iff.1 h
    exact .inl ⟨p, e, hf, value?_lift_iff.1 he, h⟩
  | compound ps ms =>
    obtain ⟨ds, hds, h⟩ := value?_bind_iff.1 h
    refine .inr ⟨ps, ms, ds, hf, hds, ?_⟩
    dsimp only at h
    split at h
    · next hnil =>
      cases h
      exact .inl ⟨List.isEmpty_iff.1 hnil, rfl⟩
    · next hmembers =>
      obtain ⟨decls, hdecls, h⟩ := value?_bind_iff.1 h
      cases h
      exact .inr ⟨by simpa using hmembers, decls, hdecls, rfl⟩

/-- A type that is not to become a function of bindings becomes a type function if it is generic. -/
theorem describe_cases (h : (u.describe n r trail ρ false t).value? = some d) :
    ((t.isPoly = true ∨ u.takesTypeArgs t = true ∧ u.placeholder? ρ t = none) ∧
      (u.describeLambda n r trail ρ t).value? = some d) ∨
    (t.isPoly = false ∧ (u.takesTypeArgs t = false ∨ (u.placeholder? ρ t).isSome = true)) ∧
      (u.describeProper n r trail ρ t).value? = some d := by
  obtain ⟨-, -, h⟩ := value?_bind_iff.1 h
  rw [if_neg Bool.false_ne_true] at h
  split at h
  · next hgeneric => exact .inl ⟨by simpa using hgeneric, h⟩
  · next hproper =>
    refine .inr ⟨?_, h⟩
    simpa [Classical.or_iff_not_imp_left, Option.isSome_iff_ne_none] using hproper

theorem describe_force_value? (h : (u.describe n r trail ρ true t).value? = some d) :
    ∃ body, (u.describeProper n r trail ρ t).value? = some body ∧
      d = .lambda (ρ.map (·.2)) body := by
  obtain ⟨-, -, h⟩ := value?_bind_iff.1 h
  rw [if_pos rfl] at h
  obtain ⟨body, hbody, h⟩ := value?_bind_iff.1 h
  cases h
  exact ⟨body, hbody, rfl⟩

theorem describeNested_cases (h : (u.describeNested n r trail ρ t).value? = some d) :
    u.isExpanding n trail t = some true ∧ (u.describeCut r trail ρ t).value? = some d ∨
      u.isExpanding n trail t = some false ∧
        (u.describe n r (trail.enter t.measured) ρ false t).value? = some d := by
  obtain ⟨cut, hcut, h⟩ := value?_bind_iff.1 h
  have hcut := value?_lift_iff.1 hcut
  cases cut with
  | true =>
    obtain ⟨-, -, h⟩ := value?_bind_iff.1 h
    exact .inl ⟨hcut, h⟩
  | false => exact .inr ⟨hcut, h⟩

theorem nested_cases (h : (u.nested n trail ρ t).value? = some d) :
    ∃ m, n = m + 1 ∧ (u.describeNested m (u.recursion m) trail ρ t).value? = some d := by
  cases n with
  | zero =>
    rw [nested] at h
    cases h
  | succ n =>
    rw [nested] at h
    exact ⟨n, rfl, h⟩

theorem describeLambda_value? (h : (u.describeLambda n r trail ρ t).value? = some d) :
    let bindings := u.placeholders trail.level (u.typeParams (u.etaExpand t))
    ∃ result body, u.dealiasResult n (u.etaExpand t) = some result ∧
      (u.describeBody n r trail (ρ.bindAll bindings) t result).value? = some body ∧
      d = .lambda (bindings.map (·.2)) body := by
  obtain ⟨result, hresult, h⟩ := value?_bind_iff.1 h
  obtain ⟨body, hbody, h⟩ := value?_bind_iff.1 h
  obtain ⟨-, -, h⟩ := value?_bind_iff.1 h
  cases h
  exact ⟨result, body, value?_lift_iff.1 hresult, hbody, rfl⟩

end Inversion

theorem describeLambda_value?_of {n : Nat} {ρ : Bindings} {result : Ty} {d : Descriptor}
    (hresult : u.dealiasResult n (u.etaExpand t) = some result)
    (hbody : (u.describeBody n r trail
      (ρ.bindAll (u.placeholders trail.level (u.typeParams (u.etaExpand t)))) t result).value? =
        some d) :
    (u.describeLambda n r trail ρ t).value? =
      some (.lambda ((u.placeholders trail.level (u.typeParams (u.etaExpand t))).map (·.2)) d) := by
  refine value?_bind_iff.2 ⟨result, value?_lift_iff.2 hresult, ?_⟩
  refine value?_bind_iff.2 ⟨d, hbody, value?_bind_iff.2 ⟨(), ?_, rfl⟩⟩
  unfold reportUnused
  split <;> rfl

theorem steady_termQualifier (s : SymbolId) : Steady (u.termQualifier · s) :=
  fun _ _ h ↦ (u.recursion_keeps h).termQualifier s

theorem steady_termName (s : SymbolId) : Steady fun n ↦ u.termName (u.recursion n) s :=
  fun _ _ h ↦ u.termName_keeps (u.recursion_keeps h) s

end SymbolTable

end TypeTag
