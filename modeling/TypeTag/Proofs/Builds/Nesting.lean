import TypeTag.Proofs.Builds.Scopes
import TypeTag.Proofs.Tags.Caching

namespace TypeTag

open Build (Ends value?_bind_iff outcome_eq_some_some_iff)

theorem takeWhile_toString_colon (n : Nat) (s : String) :
    (toString n ++ ":" ++ s).toList.takeWhile (· ≠ ':') = Nat.toDigits 10 n := by
  have hdigits : ∀ c ∈ Nat.toDigits 10 n, decide (c ≠ ':') = true := by
    intro c hc
    have hdigit := Nat.isDigit_of_mem_toDigits (b := 10) (by decide) (by decide) hc
    rw [decide_eq_true_iff]
    rintro rfl
    exact absurd hdigit (by decide)
  rw [String.append_assoc, String.toList_append, Nat.toString_eq_ofList_toDigits,
    String.toList_ofList, List.takeWhile_append_of_pos hdigits]
  simp

theorem level_eq_of_placeholder_eq {l m i j : Nat}
    (h : toString l ++ ":" ++ toString i = toString m ++ ":" ++ toString j) : l = m := by
  have hdigits : Nat.toDigits 10 l = Nat.toDigits 10 m := by
    rw [← takeWhile_toString_colon l (toString i), h, takeWhile_toString_colon]
  rw [← Nat.ofDigitChars_ten_toDigits (n := l), hdigits, Nat.ofDigitChars_ten_toDigits]

namespace SymbolTable

variable {u : SymbolTable}

open Descriptor (occursIn_iff OccursIn)

theorem disjoint_placeholders {l m : Nat} (hlm : l < m) {params params' : List SymbolId} :
    ∀ x ∈ (u.placeholders l params).map (·.2), x ∉ (u.placeholders m params').map (·.2) := by
  intro x hx hx'
  simp only [placeholders, List.map_map, List.mem_map, Function.comp_apply] at hx hx'
  obtain ⟨⟨p, i⟩, -, rfl⟩ := hx
  obtain ⟨⟨p', j⟩, -, heq⟩ := hx'
  exact absurd (level_eq_of_placeholder_eq heq).symm (Nat.ne_of_lt hlm)

namespace Scoped

variable {R : Ty.Rules} {k : Nat} {ρ : Bindings} {d e : Descriptor} {ps : List String}

theorem body_of_occursIn (hpaths : ∀ m, u.IsPath m → ∀ q ∈ m.qualifier, u.Scoped R 1 [] q)
    (h : u.Scoped R k ρ d) (ho : (Descriptor.lambda ps e).OccursIn d) :
    ∃ level σ params, ps = (u.placeholders level params).map (·.2) ∧
      u.Scoped R (level + 1) σ e := by
  induction h using induction_of_paths hpaths with
  | plain k ρ d applied _ _ ih =>
    rcases occursIn_iff.1 ho with rfl | ⟨a, ha, ho⟩
    · cases applied
    · exact ih a ha ho
  | path k ρ s m b _ _ _ ihb ihq =>
    rcases occursIn_iff.1 ho with heq | ⟨a, ha, ho⟩
    · cases heq
    · rcases List.mem_append.1 ha with ha | ha
      · exact ihb a ha ho
      · exact ihq a (Option.mem_toList.1 ha) ho
  | lambda k level ρ params body _ inside ih =>
    rcases occursIn_iff.1 ho with heq | ⟨a, ha, ho⟩
    · cases heq
      exact ⟨_, _, _, rfl, inside⟩
    · cases List.mem_singleton.1 ha
      exact ih ho

/-- A type function inside is at the level of the scope or a later one, unless it is in the path to
a term. -/
theorem level_of_occursIn (h : u.Scoped R k ρ d) (ho : (Descriptor.lambda ps e).OccursIn d) :
    (∃ level params, k ≤ level ∧ ps = (u.placeholders level params).map (·.2)) ∨
      ∃ m q, (Descriptor.name m).OccursIn d ∧ u.IsPath { m with boundaries := .empty } ∧
        m.qualifier = some q ∧ (Descriptor.lambda ps e).OccursIn q := by
  induction h with
  | plain applied _ _ ih =>
    rcases occursIn_iff.1 ho with rfl | ⟨a, ha, ho⟩
    · cases applied
    · exact (ih a ha ho).imp_right fun ⟨m, q, hm, h⟩ ↦ ⟨m, q, hm.of_part ha, h⟩
  | @path k ρ s m b _ isPath _ ihb =>
    rcases occursIn_iff.1 ho with heq | ⟨a, ha, ho⟩
    · cases heq
    · rcases List.mem_append.1 ha with hbound | hqualifier
      · exact (ihb a hbound ho).imp_right fun ⟨m, q, hm, h⟩ ↦ ⟨m, q, hm.of_part ha, h⟩
      · refine .inr ⟨{ m with boundaries := b }, a, .refl _, ?_, Option.mem_toList.1 hqualifier, ho⟩
        have hm : u.IsPath m := ⟨s, isPath⟩
        exact hm.without_boundaries ▸ hm
  | lambda deep _ ih =>
    rcases occursIn_iff.1 ho with heq | ⟨a, ha, ho⟩
    · cases heq
      exact .inl ⟨_, _, deep, rfl⟩
    · cases List.mem_singleton.1 ha
      refine (ih ho).imp (fun ⟨l, params, hl, h⟩ ↦ ⟨l, params, ?_, h⟩)
        fun ⟨m, q, hm, h⟩ ↦ ⟨m, q, hm.of_part ha, h⟩
      exact deep.trans (Nat.le_of_succ_le hl)

end Scoped

/-- A type function inside the body of another binds none of its parameters again, unless it is in
the path to a term, which is described as if it stood alone. -/
theorem nested_params_disjoint {c : RootCache} (hc : c.Reached u) {config : Config}
    {alive : ObjectId → Bool} {k : Handle Ty} {d : Descriptor}
    (hend : Ends (fun n ↦ (u.makeDescriptor n config c alive k).1) (some d)) {ps qs : List String}
    {outer inner : Descriptor} (houter : (Descriptor.lambda ps outer).OccursIn d)
    (hinner : (Descriptor.lambda qs inner).OccursIn outer) :
    (∀ x ∈ ps, x ∉ qs) ∨
      ∃ m q, (Descriptor.name m).OccursIn outer ∧ u.IsPath { m with boundaries := .empty } ∧
        m.qualifier = some q ∧ (Descriptor.lambda qs inner).OccursIn q := by
  obtain ⟨n, hn⟩ := (makeDescriptor_ends_iff hc.sound config alive k).1 hend
  obtain ⟨t, -, hd⟩ := value?_bind_iff.1 (outcome_eq_some_some_iff.1 (hn n (Nat.le_refl n)))
  have htrue (t : Ty) : t.Obeys (Ty.membersNamed fun _ ↦ True) :=
    Ty.obeys_membersNamed fun _ _ ↦ trivial
  have hu : u.Obeys (Ty.membersNamed fun _ ↦ True) := obeys_membersNamed fun _ t _ ↦ htrue t
  have hpaths := fun m ↦ hu.scoped_of_isPath (fun _ ↦ trivial) (m := m)
  obtain ⟨l, σ, params, rfl, hbody⟩ :=
    (describeAlone_scoped hu (htrue t) hd).body_of_occursIn hpaths houter
  refine (hbody.level_of_occursIn hinner).imp_left fun ⟨m, params', hlm, hqs⟩ ↦ ?_
  rw [hqs]
  exact disjoint_placeholders hlm

/-- The classes `Box[A]` and `Outer[F[X]]`, the term `x` within the latter, and a type parameter
`Y`. -/
def boxAndOuter : SymbolTable :=
  let (box, u) := initial.cls 1 "Box"
  let (_, u) := u.typeParam box "A" .covariant
  let (outer, u) := u.cls 1 "Outer"
  let (f, u) := u.typeParam outer "F" .invariant
  let (_, u) := u.typeParam f "X" .invariant
  let (_, u) := u.term outer "x" none
  (u.freeTypeParam 1 "Y" .invariant).2

theorem outerBox_params_disjoint :
    let u := boxAndOuter
    ∃ d outer inner, Ends (fun n ↦ (u.makeDescriptor n {} .empty (fun _ ↦ true)
        ⟨0, .poly [11] (u.applied 7 [u.typeRef 5])⟩).1) (some d) ∧
      (Descriptor.lambda ["0:0"] outer).OccursIn d ∧
      (Descriptor.lambda ["2:0"] inner).OccursIn outer ∧ (∀ x ∈ ["0:0"], x ∉ ["2:0"]) := by
  intro u
  let inner : Descriptor := .full (.type "scala.Box") [⟨.typeName "2:0", .covariant⟩] none
  let outer : Descriptor := .full (.type "scala.Outer") [⟨.lambda ["2:0"] inner, .invariant⟩] none
  have hvalue : (u.rootDescriptor 10 (.poly [11] (u.applied 7 [u.typeRef 5]))).value? =
      some (.lambda ["0:0"] outer) := by
    decide +kernel
  have hend := makeDescriptor_ends_of_value? (RootCache.Reached.empty.sound (u := u)) {}
    (fun _ ↦ true) ⟨0, _⟩ hvalue
  have hinner : (Descriptor.lambda ["2:0"] inner).OccursIn outer :=
    (OccursIn.refl _).of_part List.mem_cons_self
  refine ⟨_, outer, inner, hend, .refl _, hinner, ?_⟩
  refine (nested_params_disjoint .empty hend (.refl _) hinner).resolve_right ?_
  -- The one name that occurs is that of the placeholder, which is no path.
  rintro ⟨m, q, hm, -, hq, -⟩
  obtain heq | ⟨_, ha, hm⟩ := occursIn_iff.1 hm
  · simp [outer] at heq
  cases List.mem_singleton.1 ha
  obtain heq | ⟨_, ha, hm⟩ := occursIn_iff.1 hm
  · cases heq
  cases List.mem_singleton.1 ha
  obtain heq | ⟨_, ha, hm⟩ := occursIn_iff.1 hm
  · simp [inner] at heq
  cases List.mem_singleton.1 ha
  obtain heq | ⟨_, ha, -⟩ := occursIn_iff.1 hm
  · cases heq
    cases hq
  · cases ha

/-- Around the term `x`, the function of `Y` that returns `Box[x.type]` binds `2:0` as it is the
argument of an argument; and so does the constructor `F` in the path to `x`. -/
theorem boxAndOuter_rebinds :
    let u := boxAndOuter
    ∃ d outer inner, Ends (fun n ↦ (u.makeDescriptor n {} .empty (fun _ ↦ true)
        ⟨0, u.applied 5 [u.applied 5 [.poly [11] (u.applied 5 [u.single 10])]]⟩).1) (some d) ∧
      (Descriptor.lambda ["2:0"] outer).OccursIn d ∧
      (Descriptor.lambda ["2:0"] inner).OccursIn outer := by
  intro u
  let box (d : Descriptor) : Descriptor := .full (.type "scala.Box") [⟨d, .covariant⟩] none
  let inner : Descriptor :=
    .full (.type "scala.Outer.F") [⟨.typeName "2:0", .invariant⟩] none
  let path : Descriptor := .full (.type "scala.Outer") [⟨.lambda ["2:0"] inner, .invariant⟩] none
  let outer := box (.name { name := .term "scala.Outer.x", qualifier := some path })
  have hvalue : (u.rootDescriptor 10
      (u.applied 5 [u.applied 5 [.poly [11] (u.applied 5 [u.single 10])]])).value? =
      some (box (box (.lambda ["2:0"] outer))) := by
    decide +kernel
  have hbox (d : Descriptor) : d ∈ (box d).parts := List.mem_cons_self
  have hinner : (Descriptor.lambda ["2:0"] inner).OccursIn path :=
    (OccursIn.refl _).of_part List.mem_cons_self
  refine ⟨_, outer, inner, makeDescriptor_ends_of_value? RootCache.Reached.empty.sound {} _ ⟨0, _⟩
    hvalue, ?_, ?_⟩
  · exact ((OccursIn.refl _).of_part (hbox _)).of_part (hbox _)
  · exact (hinner.of_part List.mem_cons_self).of_part (hbox _)

end SymbolTable

end TypeTag
