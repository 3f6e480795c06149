import Mathlib.Order.Filter.AtTopBot.Finite
import TypeTag.Proofs.Steps.Descent
import TypeTag.Proofs.Steps.Queries
import TypeTag.Proofs.Steps.Ways

namespace TypeTag.SymbolTable

open Relation

/-- `t'` is what the alias at the head of `t` stands for. -/
def Unfolds (u : SymbolTable) (t t' : Ty) : Prop :=
  ∃ params args body n, u.aliasRedex? t = some (params, args, body) ∧
    body.substitute n params args = some t'

variable {u : SymbolTable} {n m : Nat} {t d e x : Ty}

theorem unfolds_unique (u : SymbolTable) : Relator.RightUnique u.Unfolds := by
  intro t d e hd he
  obtain ⟨params, args, body, n, hredex, hd⟩ := hd
  obtain ⟨params', args', body', m, hredex', he⟩ := he
  cases hredex.symm.trans hredex'
  exact substitute_unique hd he

theorem aliasRedex?_eq_some_iff {params : List SymbolId} {args : List Ty} {body : Ty} :
    u.aliasRedex? t = some (params, args, body) ↔ ∃ q s, t = .ref q s args ∧
      u.kind s = .typeAlias ∧ (u.entry s).body = some body ∧
      args.length = params.length ∧ (u.entry s).typeParams = params := by
  constructor
  · intro h
    cases t with
    | ref q s as =>
      unfold aliasRedex? at h
      dsimp only at h
      split at h
      · next hk hb =>
        split at h
        · next hlen =>
          cases h
          exact ⟨q, s, rfl, hk, hb, hlen, rfl⟩
        · cases h
      · cases h
    | _ => cases h
  · rintro ⟨q, s, rfl, hk, hb, hlen, rfl⟩
    have hk : (u.entry s).kind = .typeAlias := hk
    simp [aliasRedex?, hk, hb, hlen]

theorem Unfolds.alias (h : u.Unfolds t d) : ∃ q s as body n, t = .ref q s as ∧
    u.kind s = .typeAlias ∧ (u.entry s).body = some body ∧
    as.length = (u.entry s).typeParams.length ∧
    body.substitute n (u.entry s).typeParams as = some d := by
  obtain ⟨params, args, body, n, hredex, hsub⟩ := h
  obtain ⟨q, s, rfl, hk, hb, hlen, rfl⟩ := aliasRedex?_eq_some_iff.1 hredex
  exact ⟨q, s, args, body, n, rfl, hk, hb, hlen, hsub⟩

theorem not_unfolds (h : u.aliasRedex? t = none) (d : Ty) : ¬u.Unfolds t d := by
  rintro ⟨params, args, body, n, hredex, -⟩
  cases h.symm.trans hredex

/-- Expansion comes from `t` to `d` by way of the types listed, of which `t` is the first. -/
inductive ExpandsVia (u : SymbolTable) : List Ty → Ty → Ty → Prop
  | nil (t : Ty) : ExpandsVia u [] t t
  | cons {t t' d : Ty} {way : List Ty} (h : u.Unfolds t t') (rest : ExpandsVia u way t' d) :
    ExpandsVia u (t :: way) t d

theorem expandsVia_iff {way : List Ty} : u.ExpandsVia way t d ↔ Way u.Unfolds way t d := by
  constructor
  · intro h
    induction h with
    | nil t => exact .nil t
    | cons hstep _ ih => exact .cons hstep ih
  · intro h
    induction h with
    | nil t => exact .nil t
    | cons hstep _ ih => exact .cons hstep ih

theorem dealiasFrom_cases {seen : List Measured} (hd : u.dealiasFrom n seen t = some d) :
    d = t ∧ (u.aliasRedex? t = none ∨ t.measured ∈ seen) ∨
      t.measured ∉ seen ∧ ∃ m t', n = m + 1 ∧ u.Unfolds t t' ∧
        u.dealiasFrom m (t.measured :: seen) t' = some d := by
  rw [dealiasFrom.eq_def] at hd
  split at hd
  · next hredex =>
    cases hd
    exact .inl ⟨rfl, .inl hredex⟩
  · next params args body hredex =>
    split at hd
    · next hmem =>
      cases hd
      exact .inl ⟨rfl, .inr (by simpa using hmem)⟩
    · next hseen =>
      cases n with
      | zero => cases hd
      | succ n =>
        obtain ⟨t', ht', hd⟩ := Option.bind_eq_some_iff.1 hd
        exact .inr ⟨by simpa using hseen, n, t', rfl, ⟨params, args, body, n, hredex, ht'⟩, hd⟩

/-- Expansion passes types that it has not seen, each once, and ends at one that cannot be expanded,
has been seen or has been passed. -/
theorem dealiasFrom_expandsVia {seen : List Measured} (hd : u.dealiasFrom n seen t = some d) :
    ∃ way, u.ExpandsVia way t d ∧ way.Nodup ∧ (∀ x ∈ way, x.measured ∉ seen) ∧
      (u.aliasRedex? d = none ∨ d.measured ∈ seen ∨ d ∈ way) := by
  induction n using Nat.strong_induction_on generalizing seen t with
  | h n ih =>
    obtain ⟨rfl, hstop⟩ | ⟨hseen, m, t', rfl, hstep, hd⟩ := dealiasFrom_cases hd
    · exact ⟨[], .nil d, List.nodup_nil, fun x hx ↦ absurd hx List.not_mem_nil,
        hstop.imp_right .inl⟩
    · obtain ⟨way, hway, hnodup, hnew, hend⟩ := ih m (Nat.lt_succ_self m) hd
      have hnew' (x : Ty) (hx : x ∈ way) : x ≠ t ∧ x.measured ∉ seen := by
        simpa using hnew x hx
      refine ⟨t :: way, .cons hstep hway, ?_, ?_, ?_⟩
      · exact List.nodup_cons.2 ⟨fun ht ↦ (hnew' t ht).1 rfl, hnodup⟩
      · exact List.forall_mem_cons.2 ⟨hseen, fun x hx ↦ (hnew' x hx).2⟩
      · refine hend.imp_right fun h ↦ ?_
        rcases h with hmem | hmem
        · rcases List.mem_cons.1 hmem with heq | hmem
          · exact .inr (Ty.measured_inj.1 heq ▸ List.mem_cons_self)
          · exact .inl hmem
        · exact .inr (List.mem_cons_of_mem t hmem)

theorem dealias_unfolds (hd : u.dealias n t = some d) : ReflTransGen u.Unfolds t d := by
  obtain ⟨way, hway, -⟩ := dealiasFrom_expandsVia hd
  exact (expandsVia_iff.1 hway).reflTransGen

theorem dealias_first (hd : u.dealias n t = some d) : ∃ before, u.ExpandsVia before t d ∧
    (∀ x ∈ before, ¬TransGen u.Unfolds x x) ∧
      (u.aliasRedex? d = none ∨ TransGen u.Unfolds d d) := by
  obtain ⟨way, hway, hnodup, -, hend⟩ := dealiasFrom_expandsVia hd
  have hway := expandsVia_iff.1 hway
  have hend : u.aliasRedex? d = none ∨ d ∈ way := by simpa using hend
  obtain ⟨before, hbefore, hfirst, hstop⟩ :=
    hway.exists_end u.unfolds_unique hnodup (hend.imp_left not_unfolds)
  refine ⟨before, expandsVia_iff.2 hbefore, hfirst, ?_⟩
  rcases hend with hredex | hmem
  · exact .inl hredex
  · obtain ⟨y, hstep⟩ := hway.exists_step hmem
    exact .inr (hstop.resolve_left fun hlast ↦ hlast y hstep)

theorem dealias_dealias (hd : u.dealias n t = some d) (he : u.dealias m d = some e) : d = e := by
  obtain ⟨-, -, -, hend⟩ := dealias_first hd
  obtain ⟨before, hbefore, hfirst, -⟩ := dealias_first he
  exact (expandsVia_iff.1 hbefore).eq_of_end hfirst (hend.imp_left not_unfolds)

/-- The types that expansion comes to from `t` are finitely many, and each alias among them that has
its arguments can be expanded. -/
structure FiniteExpansion (u : SymbolTable) (t : Ty) : Prop where
  finite : {x | ReflTransGen u.Unfolds t x}.Finite
  unfolds : ∀ x, ReflTransGen u.Unfolds t x → u.aliasRedex? x ≠ none → ∃ y, u.Unfolds x y

theorem exists_dealiasFrom {S : Set Ty} (hS : S.Finite) {k : Nat} {seen : List Measured}
    (hclosed : ∀ x ∈ S, ∀ params args body, u.aliasRedex? x = some (params, args, body) →
      ∃ y ∈ S, body.substitute k params args = some y)
    (ht : t ∈ S) (hn : k + (S \ {x | x.measured ∈ seen}).ncard ≤ n) :
    ∃ d, u.dealiasFrom n seen t = some d := by
  -- `k` is what the substitutions need, and each expansion takes one type out of `S \ seen`.
  induction n generalizing seen t with
  | zero =>
    unfold dealiasFrom
    split
    · exact ⟨t, rfl⟩
    · have hempty : (S \ {x | x.measured ∈ seen}).ncard = 0 := by omega
      have hmem := Set.sdiff_eq_empty.1 ((Set.ncard_eq_zero hS.sdiff).1 hempty) ht
      exact ⟨t, if_pos (by simpa using hmem)⟩
  | succ n ih =>
    unfold dealiasFrom
    split
    · exact ⟨t, rfl⟩
    · next params args body hredex =>
      split
      · exact ⟨t, rfl⟩
      · next hseen =>
        obtain ⟨y, hy, hsub⟩ := hclosed t ht params args body hredex
        have hlt := ncard_diff_lt (T := {x | x.measured ∈ seen})
          (U := {x | x.measured ∈ t.measured :: seen}) hS (fun x hx ↦ List.mem_cons_of_mem _ hx) ht
          (by simpa using hseen) List.mem_cons_self
        have hsub : body.substitute n params args = some y :=
          Ty.substitute_keeps (by omega) params args body y hsub
        obtain ⟨d, hd⟩ : ∃ d, u.dealiasFrom n (t.measured :: seen) y = some d :=
          ih hy (by omega)
        exact ⟨d, Option.bind_eq_some_iff.2 ⟨y, hsub, hd⟩⟩

theorem FiniteExpansion.exists_dealias (h : u.FiniteExpansion t) :
    ∃ n d, u.dealias n t = some d := by
  -- finitely many substitutions have one bound that is enough for each of them
  have hbound : ∀ᶠ k in Filter.atTop, ∀ x ∈ {x | ReflTransGen u.Unfolds t x}, ∀ params args body,
      u.aliasRedex? x = some (params, args, body) →
        ∃ y ∈ {x | ReflTransGen u.Unfolds t x}, body.substitute k params args = some y := by
    refine (Filter.eventually_all_finite h.finite).2 fun x hx ↦ ?_
    cases hredex : u.aliasRedex? x with
    | none => exact .of_forall fun k params args body h ↦ by cases h
    | some redex =>
      obtain ⟨y, hstep⟩ := h.unfolds x hx (by simp [hredex])
      obtain ⟨params, args, body, n, hredex', hsub⟩ := id hstep
      refine Filter.eventually_atTop.2 ⟨n, fun k hk params' args' body' h ↦ ?_⟩
      cases hredex'.symm.trans (hredex.trans h)
      exact ⟨y, hx.tail hstep, Ty.substitute_keeps hk _ _ _ y hsub⟩
  obtain ⟨k, hk⟩ := hbound.exists
  obtain ⟨n, hn⟩ : ∃ n, k + ({x | ReflTransGen u.Unfolds t x} \ {x | x.measured ∈ []}).ncard ≤ n :=
    ⟨_, Nat.le_refl _⟩
  obtain ⟨d, hd⟩ := exists_dealiasFrom h.finite hk .refl hn
  exact ⟨n, d, hd⟩

theorem finiteExpansion_of_dealias (hd : u.dealias n t = some d) : u.FiniteExpansion t := by
  obtain ⟨way, hway, -, -, hend⟩ := dealiasFrom_expandsVia hd
  have hway := expandsVia_iff.1 hway
  have hend : u.aliasRedex? d = none ∨ d ∈ way := by simpa using hend
  have hpassed {x : Ty} (hx : ReflTransGen u.Unfolds t x) : x ∈ way ∨ x = d :=
    hway.mem_of_reachable u.unfolds_unique (hend.imp_left not_unfolds) hx
  refine ⟨(List.finite_toSet (d :: way)).subset fun x hx ↦ ?_, fun x hx hredex ↦ ?_⟩
  · exact List.mem_cons.2 (hpassed hx).symm
  · rcases hpassed hx with hmem | rfl
    · exact hway.exists_step hmem
    · exact hway.exists_step (hend.resolve_left hredex)

theorem FiniteExpansion.of_reflTransGen (h : u.FiniteExpansion t)
    (hx : ReflTransGen u.Unfolds t x) : u.FiniteExpansion x where
  finite := h.finite.subset fun _ hy ↦ hx.trans hy
  unfolds y hy := h.unfolds y (hx.trans hy)

theorem exists_dealias_self (hd : u.dealias n t = some d) : ∃ m, u.dealias m d = some d := by
  have hfinite := (finiteExpansion_of_dealias hd).of_reflTransGen (dealias_unfolds hd)
  obtain ⟨m, e, he⟩ := hfinite.exists_dealias
  exact ⟨m, dealias_dealias hd he ▸ he⟩

/-- Where expansion comes to finitely many types it ends, and what it ends at is expanded to itself:
a type that is no alias with a body and as many arguments as parameters, or else the first type on the
way that lies on a circle. -/
theorem dealias_normalises (h : u.FiniteExpansion t) : ∃ d,
    (∃ n, ∀ m, n ≤ m → u.dealias m t = some d ∧ u.dealias m d = some d) ∧
      ∃ before, u.ExpandsVia before t d ∧ (∀ x ∈ before, ¬TransGen u.Unfolds x x) ∧
        ((∀ q s as b, d = .ref q s as → u.kind s = .typeAlias → (u.entry s).body = some b →
          as.length ≠ (u.entry s).typeParams.length) ∨ TransGen u.Unfolds d d) := by
  obtain ⟨n, d, hd⟩ := h.exists_dealias
  obtain ⟨m, hself⟩ := exists_dealias_self hd
  obtain ⟨before, hbefore, hfirst, hend⟩ := dealias_first hd
  refine ⟨d, ⟨max n m, fun k hk ↦ ?_⟩, before, hbefore, hfirst, hend.imp_left ?_⟩
  · exact ⟨u.dealias_keeps ((Nat.le_max_left n m).trans hk) t d hd,
      u.dealias_keeps ((Nat.le_max_right n m).trans hk) d d hself⟩
  · intro hnone q s as b hd hk hb hlen
    have hredex := aliasRedex?_eq_some_iff.2 ⟨q, s, hd, hk, hb, hlen, rfl⟩
    cases hredex.symm.trans hnone

section Lasso

/-- The alias `L[A]` of `M[A]`, and the aliases `M[B]` and `N[C]` of each other. -/
def lasso : SymbolTable :=
  let (l, u) := initial.typeAlias 1 "L"
  let (a, u) := u.typeParam l "A" .invariant
  let (m, u) := u.typeAlias 1 "M"
  let (b, u) := u.typeParam m "B" .invariant
  let (n, u) := u.typeAlias 1 "N"
  let (c, u) := u.typeParam n "C" .invariant
  let u := u.setBody l (u.applied m [u.typeRef a])
  let u := u.setBody m (u.applied n [u.typeRef b])
  u.setBody n (u.applied m [u.typeRef c])

theorem lasso_normalises :
    let u := lasso
    let l := u.applied 5 [u.anyType]
    u.dealias 4 l = some (u.applied 7 [u.anyType]) ∧ u.FiniteExpansion l ∧ ∃ d,
      (∃ n, ∀ m, n ≤ m → u.dealias m l = some d ∧ u.dealias m d = some d) ∧
        ∃ before, u.ExpandsVia before l d ∧ (∀ x ∈ before, ¬TransGen u.Unfolds x x) ∧
          ((∀ q s as b, d = .ref q s as → u.kind s = .typeAlias → (u.entry s).body = some b →
            as.length ≠ (u.entry s).typeParams.length) ∨ TransGen u.Unfolds d d) := by
  intro u l
  have hd : u.dealias 4 l = some (u.applied 7 [u.anyType]) := by decide +kernel
  have hfinite := finiteExpansion_of_dealias hd
  exact ⟨hd, hfinite, dealias_normalises hfinite⟩

end Lasso

end TypeTag.SymbolTable
