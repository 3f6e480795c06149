import TypeTag.Proofs.NormalForm.FirstOrder
import TypeTag.Proofs.Steps.Queries

namespace TypeTag.SymbolTable

/-- `e` is `t` with every alias application at every depth replaced by its instantiated body. -/
inductive NormalForm (u : SymbolTable) : Ty → Ty → Prop
  | expand {t : Ty} {ps : List SymbolId} {as : List Ty} {b : Ty} {n : Nat} {t' e : Ty}
    (ht : u.aliasRedex? t = some (ps, as, b)) (hs : b.substitute n ps as = some t')
    (he : NormalForm u t' e) : NormalForm u t e
  | ref {q : Option Ty} {s : SymbolId} {as es : List Ty}
    (ht : u.aliasRedex? (.ref q s as) = none) (hlen : es.length = as.length)
    (has : ∀ (i : Nat) (a e : Ty), as[i]? = some a → es[i]? = some e → NormalForm u a e) :
    NormalForm u (.ref q s as) (.ref q s es)
  | single (q : Option Ty) (s : SymbolId) : NormalForm u (.single q s) (.single q s)
  | constant (v : String) : NormalForm u (.constant v) (.constant v)

variable {u : SymbolTable}

theorem NormalForm.unique {t e e' : Ty} (h : u.NormalForm t e) (h' : u.NormalForm t e') :
    e = e' := by
  induction h generalizing e' with
  | expand ht hs _ ih =>
    cases h' with
    | expand ht' hs' he' =>
      cases ht.symm.trans ht'
      cases substitute_unique hs hs'
      exact ih he'
    | ref ht' => cases ht.symm.trans ht'
    | single | constant => cases ht
  | ref ht hlen _ ih =>
    cases h' with
    | expand ht' => cases ht.symm.trans ht'
    | @ref _ _ _ es' _ hlen' has' =>
      congr 1
      refine List.ext_getElem (hlen.trans hlen'.symm) fun i hi hi' ↦ ?_
      have ha : i < _ := hlen ▸ hi
      exact ih i _ _ (List.getElem?_eq_getElem ha) (List.getElem?_eq_getElem hi)
        (has' i _ _ (List.getElem?_eq_getElem ha) (List.getElem?_eq_getElem hi'))
  | single =>
    cases h' with
    | expand ht' => cases ht'
    | single => rfl
  | constant =>
    cases h' with
    | expand ht' => cases ht'
    | constant => rfl

def Expands (u : SymbolTable) (t t' : Ty) : Prop :=
  ∃ ps as b n, u.aliasRedex? t = some (ps, as, b) ∧ b.substitute n ps as = some t'

theorem NormalForm.of_expands {t t' e : Ty} (h : u.Expands t t') (he : u.NormalForm t' e) :
    u.NormalForm t e := by
  obtain ⟨ps, as, b, n, ht, hs⟩ := h
  exact .expand ht hs he

theorem NormalForm.ref_of_forall₂ {q : Option Ty} {s : SymbolId} {as es : List Ty}
    (ht : u.aliasRedex? (.ref q s as) = none) (h : List.Forall₂ u.NormalForm as es) :
    u.NormalForm (.ref q s as) (.ref q s es) := by
  refine .ref ht h.length_eq.symm fun i a e ha he ↦ ?_
  obtain ⟨hi, rfl⟩ := List.getElem?_eq_some_iff.1 ha
  obtain ⟨hi', rfl⟩ := List.getElem?_eq_some_iff.1 he
  exact h.get hi hi'

theorem aliasRedex?_applied_alias {s : SymbolId} {as : List Ty} {b : Ty}
    (hk : u.kind s = .typeAlias) (hb : (u.entry s).body = some b)
    (hlen : as.length = (u.entry s).typeParams.length) :
    u.aliasRedex? (u.applied s as) = some ((u.entry s).typeParams, as, b) := by
  have hkind : (u.entry s).kind = .typeAlias := hk
  unfold aliasRedex? applied
  simp [hkind, hb, hlen]

section Vocabulary

variable {D : SymbolId → Prop} {ps : List SymbolId} (hc : u.ParamsAreParams) (hu : u.Vocabulary D)

include hc hu

/-- To be handed on by all applications, a relation need only be handed on by those that do not
expand and be led back to by expansion. -/
theorem Vocabulary.handsOn {R : Ty → Ty → Prop}
    (happlied : ∀ s bs bs', D s → (u.kind s = .cls ∨ u.kind s = .typeAlias) →
      (∀ cs, u.aliasRedex? (u.applied s cs) = none) → List.Forall₂ R bs bs' →
      R (u.applied s bs) (u.applied s bs'))
    (hexpand : ∀ t t' v v', u.Expands t t' → u.Expands v v' → R t' v' → R t v)
    (hsingle : ∀ s, D s → u.kind s = .object → R (u.single s) (u.single s))
    (hconstant : ∀ v, R (.constant v) (.constant v)) : u.HandsOn D R := by
  refine ⟨fun s ↦ ?_, hsingle, hconstant⟩
  induction s using hu.wellFounded.induction with
  | h s ih =>
    intro bs bs' hD hs hlen hbs
    rcases hs with hs | hs
    · exact happlied s bs bs' hD (.inl hs) (fun _ ↦ aliasRedex?_ref (.inl (by simp [hs]))) hbs
    · cases hb : (u.entry s).body with
      | none => exact happlied s bs bs' hD (.inr hs) (fun _ ↦ aliasRedex?_ref (.inr hb)) hbs
      | some b =>
        have hbody : u.Over (fun s' ↦ D s' ∧ s' ∈ b.symbols) (u.entry s).typeParams b :=
          (hu.bodies s hD hs b hb).mono fun s' hmem hD' ↦ ⟨hD', hmem⟩
        -- In the body only the aliases that it names are applied, to which `ih` applies.
        have hinside : u.HandsOn (fun s' ↦ D s' ∧ s' ∈ b.symbols) R := by
          refine ⟨fun s' cs cs' hD' hs' hlen' hcs ↦ ?_, fun s' hD' ↦ hsingle s' hD'.1, hconstant⟩
          rcases hs' with hs' | hs'
          · exact happlied s' cs cs' hD'.1 (.inl hs')
              (fun _ ↦ aliasRedex?_ref (.inl (by simp [hs']))) hcs
          · exact ih s' ⟨hs, hs', b, hb, hD'.2⟩ cs cs' hD'.1 (.inr hs') hlen' hcs
        obtain ⟨t, t', ht, ht', hrelated⟩ :=
          hbody.exists_substitute (hc s) hinside hlen hbs
        exact hexpand _ t _ t' ⟨_, _, b, 0, aliasRedex?_applied_alias hs hb hlen, ht 0⟩
          ⟨_, _, b, 0, aliasRedex?_applied_alias hs hb (hbs.length_eq ▸ hlen), ht' 0⟩ hrelated

theorem Over.exists_normalForm {t : Ty} (hparams : ∀ p ∈ ps, u.kind p = .typeParam)
    (ht : u.Over D ps t) : ∃ e, u.NormalForm t e := by
  have hR : u.HandsOn D fun t _ ↦ ∃ e, u.NormalForm t e := by
    refine hu.handsOn hc (fun s bs bs' _ _ hstuck hbs ↦ ?_) (fun t t' _ _ h _ ↦ ?_)
      (fun s _ _ ↦ ⟨_, .single _ s⟩) fun v ↦ ⟨_, .constant v⟩
    · obtain ⟨es, hes⟩ := exists_forall₂ (forall_mem_of_forall₂ hbs)
      exact ⟨_, .ref_of_forall₂ (hstuck bs) hes⟩
    · exact fun ⟨e, he⟩ ↦ ⟨e, he.of_expands h⟩
  induction ht with
  | applied hD hs hlen _ ih => exact hR.applied _ _ _ hD hs hlen (List.forall₂_same.2 ih)
  | single => exact ⟨_, .single _ _⟩
  | constant v => exact ⟨_, .constant v⟩
  | param hp => exact ⟨_, .ref_of_forall₂ (aliasRedex?_ref (.inl (by simp [hparams _ hp]))) .nil⟩

end Vocabulary

theorem FirstOrder.exists_normalForm (hc : u.ParamsAreParams) (hu : u.Plain) {t : Ty}
    (ht : u.FirstOrder [] t) : ∃ e, u.NormalForm t e :=
  ht.over.exists_normalForm hc hu.vocabulary (by simp)

section Expansion

theorem NormalForm.not_transGen {t e : Ty} (h : u.NormalForm t e) :
    ¬Relation.TransGen u.Expands t t := by
  induction h with
  | @expand t ps as b n t' e ht hs _ ih =>
    intro hloop
    obtain ⟨x, ⟨ps', as', b', m, ht', hs'⟩, hx⟩ := Relation.TransGen.head'_iff.1 hloop
    cases ht.symm.trans ht'
    cases substitute_unique hs hs'
    exact ih (.tail' hx ⟨ps, as, b, n, ht, hs⟩)
  | ref ht =>
    intro hloop
    obtain ⟨x, ⟨ps', as', b', m, ht', -⟩, -⟩ := Relation.TransGen.head'_iff.1 hloop
    cases ht.symm.trans ht'
  | single | constant =>
    intro hloop
    obtain ⟨x, ⟨ps', as', b', m, ht', -⟩, -⟩ := Relation.TransGen.head'_iff.1 hloop
    cases ht'

/-- The expansion of a type with a normal form ends, and has the same normal form. -/
theorem NormalForm.exists_dealiasFrom {t e : Ty} (h : u.NormalForm t e) :
    ∃ N d, u.aliasRedex? d = none ∧ u.NormalForm d e ∧ Relation.ReflTransGen u.Expands t d ∧
      ∀ n, N ≤ n → ∀ seen : List Measured, (∀ m ∈ seen, Relation.TransGen u.Expands m.type t) →
        u.dealiasFrom n seen t = some d := by
  induction h with
  | @expand t ps as b n t' e ht hs he ih =>
    obtain ⟨N, d, hd, hde, hexpands, hdealias⟩ := ih
    have hstep : u.Expands t t' := ⟨ps, as, b, n, ht, hs⟩
    refine ⟨max n N + 1, d, hd, hde, .head hstep hexpands, fun m hm seen hseen ↦ ?_⟩
    -- A type met again would expand to itself.
    have hnew : seen.contains t.measured = false := by
      simp only [List.contains_eq_mem, decide_eq_false_iff_not]
      exact fun hmem ↦ (NormalForm.expand ht hs he).not_transGen (hseen _ hmem)
    obtain ⟨m, rfl⟩ : ∃ k, m = k + 1 := ⟨m - 1, by omega⟩
    have hsubst : b.substitute m ps as = some t' :=
      Ty.substitute_keeps (by omega) ps as b t' hs
    rw [dealiasFrom.eq_def, ht]
    simp only [hnew, Bool.false_eq_true, if_false, hsubst, Option.bind_eq_bind, Option.bind_some]
    refine hdealias m (by omega) _ fun x hx ↦ ?_
    rcases List.mem_cons.1 hx with rfl | hx
    · exact .single hstep
    · exact (hseen x hx).tail hstep
  | @ref q s as es ht hlen has _ =>
    refine ⟨0, _, ht, .ref ht hlen has, .refl, fun n _ seen _ ↦ ?_⟩
    rw [dealiasFrom.eq_def, ht]
  | single q s =>
    refine ⟨0, _, rfl, .single q s, .refl, fun n _ seen _ ↦ ?_⟩
    rw [dealiasFrom.eq_def]
    rfl
  | constant v =>
    refine ⟨0, _, rfl, .constant v, .refl, fun n _ seen _ ↦ ?_⟩
    rw [dealiasFrom.eq_def]
    rfl

variable {D : SymbolId → Prop} {ps : List SymbolId} (hc : u.ParamsAreParams) (hu : u.Vocabulary D)
  (hparams : ∀ p ∈ ps, u.kind p = .typeParam)

include hc hu hparams

theorem Over.expands {t t' : Ty} (ht : u.Over D ps t) (h : u.Expands t t') : u.Over D ps t' := by
  obtain ⟨qs, as, b, n, hredex, hs⟩ := h
  cases ht with
  | @applied s as' hD hk hlen has =>
    rcases hk with hk | hk
    · cases (aliasRedex?_ref (.inl (by simp [hk]))).symm.trans hredex
    · cases hb : (u.entry s).body with
      | none =>
        cases (aliasRedex?_ref (.inr hb)).symm.trans hredex
      | some body =>
        cases (aliasRedex?_applied_alias hk hb hlen).symm.trans hredex
        have hR : u.HandsOn D fun t _ ↦ u.Over D ps t :=
          ⟨fun s bs bs' hD hs hlen hbs ↦ .applied hD hs hlen (forall_mem_of_forall₂ hbs),
            fun s hD hs ↦ .single hD hs, .constant⟩
        obtain ⟨v, -, hv, -, hover⟩ := (hu.bodies s hD hk b hb).exists_substitute (hc s) hR hlen
          (List.forall₂_same.2 has)
        cases substitute_unique hs (hv 0)
        exact hover
  | single => cases hredex
  | constant => cases hredex
  | param hp => cases (aliasRedex?_ref (.inl (by simp [hparams _ hp]))).symm.trans hredex

theorem NormalForm.exists_dealias {t e : Ty} (h : u.NormalForm t e) (ht : u.Over D ps t) :
    ∃ N d, u.aliasRedex? d = none ∧ u.NormalForm d e ∧ u.Over D ps d ∧
      ∀ n, N ≤ n → u.dealias n t = some d := by
  obtain ⟨N, d, hd, hde, hexpands, hdealias⟩ := h.exists_dealiasFrom
  have hover : u.Over D ps d := by
    clear hd hde hdealias
    induction hexpands with
    | refl => exact ht
    | tail _ hstep ih => exact ih.expands hc hu hparams hstep
  exact ⟨N, d, hd, hde, hover, fun n hn ↦ hdealias n hn [] fun m hm ↦ nomatch hm⟩

end Expansion

end TypeTag.SymbolTable
