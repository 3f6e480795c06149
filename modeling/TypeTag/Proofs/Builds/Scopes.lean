import TypeTag.Proofs.Builds.Basic
import TypeTag.Proofs.Descriptor.Mentions
import TypeTag.Proofs.SymbolTable.Rules

namespace TypeTag

open Build (Ends value?_bind_iff outcome_eq_some_some_iff)

namespace SymbolTable

variable (u : SymbolTable) (R : Ty.Rules)

/-- What the path to a term is described as. -/
def IsPathTo (s : SymbolId) (m : NameRef Descriptor) : Prop :=
  Ends (fun n ↦ u.termName (u.recursion n) s) (some m)

def IsPath (m : NameRef Descriptor) : Prop :=
  ∃ s, u.IsPathTo s m

section IsPath

variable {u} {m : NameRef Descriptor}

theorem IsPath.exists_eq (h : u.IsPath m) : ∃ s q, m = { name := u.symName s, qualifier := q } := by
  obtain ⟨s, n, hn⟩ := h
  obtain ⟨q, -, hm⟩ := value?_bind_iff.1 (outcome_eq_some_some_iff.1 (hn n (Nat.le_refl n)))
  cases hm
  exact ⟨_, q, rfl⟩

theorem IsPath.without_boundaries (h : u.IsPath m) : { m with boundaries := .empty } = m := by
  obtain ⟨s, q, rfl⟩ := h.exists_eq
  rfl

end IsPath

inductive NamedUnder (ρ : Bindings) : SymName → Prop
  | literal (v : String) : NamedUnder ρ (.literal v)
  | symbol (s : SymbolId) (h : ρ.lookup (u.fullName s) = none) : NamedUnder ρ (u.symName s)
  | placeholder {x p : String} (h : ρ.lookup x = some p) : NamedUnder ρ (.type p)
  | typeMember {m : String} (h : R.typeMember m) : NamedUnder ρ (.type m)

/-- A descriptor whose names are chosen under the bindings, and whose type functions are at the
level `k` or further inside. Nothing is said of what the paths to terms start from. -/
inductive Scoped : Nat → Bindings → Descriptor → Prop
  | plain {k : Nat} {ρ : Bindings} {d : Descriptor} (applied : d.isApplied = true)
    (named : ∀ s ∈ d.symName?, u.NamedUnder R ρ s) (parts : ∀ e ∈ d.parts, Scoped k ρ e) :
    Scoped k ρ d
  | path {k : Nat} {ρ : Bindings} {s : SymbolId} {m : NameRef Descriptor}
    {b : Boundaries Descriptor} (term : R.term s) (isPath : u.IsPathTo s m)
    (bounds : ∀ e ∈ b.types, Scoped k ρ e) : Scoped k ρ (.name { m with boundaries := b })
  | lambda {k level : Nat} {ρ : Bindings} {params : List SymbolId} {body : Descriptor}
    (deep : k ≤ level)
    (inside : Scoped (level + 1) (ρ.bindAll (u.placeholders level params)) body) :
    Scoped k ρ (.lambda ((u.placeholders level params).map (·.2)) body)

namespace Scoped

variable {u R} {k : Nat} {ρ : Bindings} {d : Descriptor}

theorem mono {j : Nat} (hjk : j ≤ k) (h : u.Scoped R k ρ d) : u.Scoped R j ρ d := by
  induction h generalizing j with
  | plain applied named _ ih => exact .plain applied named fun e he ↦ ih e he hjk
  | path term isPath _ ih => exact .path term isPath fun e he ↦ ih e he hjk
  | lambda deep inside _ => exact .lambda (hjk.trans deep) inside

/-- Induction that goes on into what the paths to terms start from, where these are described as if
they stood alone. -/
@[elab_as_elim]
theorem induction_of_paths (hpaths : ∀ m, u.IsPath m → ∀ q ∈ m.qualifier, u.Scoped R 1 [] q)
    {P : ∀ k ρ d, u.Scoped R k ρ d → Prop}
    (plain : ∀ k ρ d (applied : d.isApplied = true) (named : ∀ s ∈ d.symName?, u.NamedUnder R ρ s)
      (parts : ∀ e ∈ d.parts, u.Scoped R k ρ e), (∀ e he, P k ρ e (parts e he)) →
        P k ρ d (.plain applied named parts))
    (path : ∀ k ρ s m (b : Boundaries Descriptor) (term : R.term s) (isPath : u.IsPathTo s m)
      (bounds : ∀ e ∈ b.types, u.Scoped R k ρ e), (∀ e he, P k ρ e (bounds e he)) →
        (∀ q hq, P 1 [] q (hpaths m ⟨s, isPath⟩ q hq)) → P k ρ _ (.path term isPath bounds))
    (lambda : ∀ k level ρ params body (deep : k ≤ level)
      (inside : u.Scoped R (level + 1) (ρ.bindAll (u.placeholders level params)) body),
        P _ _ body inside → P k ρ _ (.lambda deep inside))
    {k : Nat} {ρ : Bindings} {d : Descriptor} (h : u.Scoped R k ρ d) : P k ρ d h := by
  induction d using Descriptor.parts_induction generalizing k ρ with
  | step d ih =>
    cases h with
    | plain applied named parts =>
      exact plain k ρ d applied named parts fun e he ↦ ih e he (parts e he)
    | @path _ _ s m b term isPath bounds =>
      refine path k ρ s m b term isPath bounds ?_ fun q hq ↦ ?_
      · exact fun e he ↦ ih e (List.mem_append_left _ he) (bounds e he)
      · exact ih q (List.mem_append_right _ (Option.mem_toList.2 hq)) (hpaths m ⟨s, isPath⟩ q hq)
    | lambda deep inside =>
      exact lambda k _ ρ _ _ deep inside (ih _ List.mem_cons_self inside)

theorem named {m : NameRef Descriptor} (hname : u.NamedUnder R ρ m.name)
    (htypes : ∀ e ∈ m.types, u.Scoped R k ρ e) : u.Scoped R k ρ (.name m) :=
  .plain rfl (by rintro _ ⟨rfl⟩; exact hname) htypes

theorem full {s : SymName} {as : List (TypeArg Descriptor)} {q : Option Descriptor}
    (hname : u.NamedUnder R ρ s) (hargs : ∀ a ∈ as, u.Scoped R k ρ a.reference)
    (hqualifier : ∀ d ∈ q, u.Scoped R k ρ d) : u.Scoped R k ρ (.full s as q) := by
  refine .plain rfl (by rintro _ ⟨rfl⟩; exact hname) fun e he ↦ ?_
  rcases List.mem_append.1 he with he | he
  · obtain ⟨a, ha, rfl⟩ := List.mem_map.1 he
    exact hargs a ha
  · exact hqualifier e (Option.mem_toList.1 he)

theorem typeName {x p : String} (h : ρ.lookup x = some p) : u.Scoped R k ρ (.typeName p) :=
  .named (.placeholder h) fun _ he ↦ nomatch he

theorem of_intersection {ds : List Descriptor} (h : u.Scoped R k ρ (.intersection ds)) :
    ∀ e ∈ ds, u.Scoped R k ρ e := by
  cases h with
  | plain _ _ parts => exact parts

theorem intersect {ds : List Descriptor} (h : ∀ e ∈ ds, u.Scoped R k ρ e) :
    u.Scoped R k ρ (.intersect ds) := by
  obtain ⟨opened, hparts, heq⟩ := Descriptor.intersect_cases ds
  have hopened : ∀ e ∈ opened, u.Scoped R k ρ e := by
    intro e he
    rcases hparts e he with he | ⟨es, hes, he⟩
    · exact h e he
    · exact (h _ hes).of_intersection e he
  rcases heq with heq | heq
  · exact hopened _ (heq ▸ List.mem_singleton_self _)
  · rw [heq]
    exact .plain rfl (fun _ hs ↦ nomatch hs) hopened

theorem refinement {ds : List (Decl Descriptor)} (hparent : u.Scoped R k ρ d)
    (hdecls : ∀ c ∈ ds, ∀ e ∈ c.types, u.Scoped R k ρ e) : u.Scoped R k ρ (.refinement d ds) := by
  refine .plain rfl (fun _ hs ↦ nomatch hs) fun e he ↦ ?_
  rcases List.mem_cons.1 he with rfl | he
  · exact hparent
  · obtain ⟨c, hc, he⟩ := List.mem_flatMap.1 he
    exact hdecls c hc e he

end Scoped

structure Scoping (r : Recursion) : Prop where
  nested : ∀ {trail ρ t d}, t.Obeys R → (r.nested trail ρ t).value? = some d →
    u.Scoped R trail.depth ρ d
  termName : ∀ {s m}, (u.termName r s).value? = some m → u.IsPathTo s m

section Describe

variable {u R} (hu : u.Obeys R) {r : Recursion} (hr : u.Scoping R r) {n : Nat}
  {trail : Trail Measured} {ρ : Bindings} {t : Ty}

theorem placeholder?_eq_some {p : String} (h : u.placeholder? ρ t = some p) :
    ∃ x, ρ.lookup x = some p := by
  obtain ⟨s, -, h⟩ := Option.bind_eq_some_iff.1 h
  exact ⟨u.fullName s, h⟩

theorem namedUnder_symName (h : u.placeholder? ρ t = none) {s : SymbolId}
    (hs : t.symbol? = some s) : u.NamedUnder R ρ (u.symName s) := by
  rw [placeholder?, hs] at h
  exact .symbol s h

include hr

theorem describeQualifier_scoped {q : Ty} (hq : q.Obeys R) {d : Descriptor}
    (h : (describeQualifier r trail ρ t q).value? = some d) : u.Scoped R trail.depth ρ d :=
  hr.nested hq (describeQualifier_value? h).1

theorem describeBounds_scoped {l h : Ty} (hl : l.Obeys R)
    (hh : h.Obeys R) {b : Boundaries Descriptor}
    (hb : (u.describeBounds r trail ρ l h).value? = some b) :
    ∀ e ∈ b.types, u.Scoped R trail.depth ρ e :=
  fun e he ↦ (describeBounds_types hb e he).elim (hr.nested hl) (hr.nested hh)

theorem nameOf_scoped (ht : t.Obeys R) (hfree : u.placeholder? ρ t = none)
    {b : Boundaries Descriptor} (hb : ∀ e ∈ b.types, u.Scoped R trail.depth ρ e)
    {q : Option Descriptor} (hq : ∀ d ∈ q, u.Scoped R trail.depth ρ d) {m : NameRef Descriptor}
    (h : (u.nameOf r t b q).value? = some m) :
    u.Scoped R trail.depth ρ (.name m) ∧ (t.args ≠ [] → u.NamedUnder R ρ m.name) := by
  have htypes (s : SymName) : ∀ e ∈ (NameRef.mk s b q).types, u.Scoped R trail.depth ρ e := by
    intro e he
    exact (List.mem_append.1 he).elim (hb e) fun he ↦ hq e (Option.mem_toList.1 he)
  unfold nameOf at h
  split at h
  · cases h
    exact ⟨.named (.literal _) (htypes _), fun _ ↦ .literal _⟩
  · obtain ⟨m', hm', h⟩ := value?_bind_iff.1 h
    cases h
    cases ht with
    | single _ hs _ => exact ⟨.path hs (hr.termName hm') hb, fun hargs ↦ absurd rfl hargs⟩
  · split at h
    · next s hs =>
      cases h
      have hname := namedUnder_symName (R := R) hfree hs
      exact ⟨.named hname (htypes _), fun _ ↦ hname⟩
    · cases h

theorem describeArgs_scoped (ht : t.Obeys R)
    {as : List (TypeArg Descriptor)} (h : (u.describeArgs n r trail ρ t).value? = some as) :
    ∀ a ∈ as, u.Scoped R trail.depth ρ a.reference := by
  intro a ha
  obtain ⟨x, hx, hxa⟩ := describeArgs_types h ha
  exact hr.nested (ht.of_args x hx) hxa

theorem describeSignatureType_scoped {m : String} (ht : t.Obeys R)
    {d : Descriptor} (h : (describeSignatureType r trail ρ m t).value? = some d) :
    u.Scoped R trail.depth ρ d :=
  hr.nested ht (describeSignatureType_value? h).1

theorem describeMember_scoped {m : Member Ty} (hname : ∀ n t, m = .type n t → R.typeMember n)
    (ht : ∀ t ∈ m.types, t.Obeys R) {ds : List (Decl Descriptor)}
    (h : (u.describeMember r trail ρ m).value? = some ds) :
    ∀ c ∈ ds, ∀ e ∈ c.types, u.Scoped R trail.depth ρ e := by
  cases m with
  | method m lists result =>
    obtain ⟨d, hd, h⟩ := value?_bind_iff.1 h
    have hd := describeSignatureType_scoped hr (ht result List.mem_cons_self) hd
    split at h
    · cases h
      simpa [Decl.types] using hd
    · intro c hc e he
      obtain ⟨ps, hps, hb⟩ := Build.exists_of_mem_value?_mapM h hc
      obtain ⟨es, hes, hb⟩ := value?_bind_iff.1 hb
      cases hb
      rcases List.mem_append.1 he with he | he
      · obtain ⟨p, hp, he⟩ := Build.exists_of_mem_value?_mapM hes he
        have hmem : p ∈ (Member.method m lists result).types :=
          List.mem_cons_of_mem result (List.mem_flatten_of_mem hps hp)
        exact describeSignatureType_scoped hr (ht p hmem) he
      · rw [List.mem_singleton.1 he]
        exact hd
  | type m t =>
    unfold describeMember at h
    dsimp only at h
    have ht := ht t (List.mem_singleton_self t)
    have hsingle {d : Descriptor} (hd : u.Scoped R trail.depth ρ d) :
        ∀ c ∈ [Decl.typeMember m d], ∀ e ∈ c.types, u.Scoped R trail.depth ρ e := by
      simpa [Decl.types] using hd
    split at h
    · obtain ⟨b, hb, h⟩ := value?_bind_iff.1 h
      cases h
      cases ht with
      | bounds lower upper =>
        refine hsingle (.named (.typeMember (hname m _ rfl)) fun e he ↦ ?_)
        rcases List.mem_append.1 he with he | he
        · exact describeBounds_scoped hr lower upper hb e he
        · cases he
    · obtain ⟨d, hd, h⟩ := value?_bind_iff.1 h
      cases h
      exact hsingle (hr.nested ht hd)

include hu

theorem qualifierOf_scoped (ht : t.Obeys R) {q : Option Descriptor}
    (h : (u.qualifierOf r trail ρ t).value? = some q) : ∀ d ∈ q, u.Scoped R trail.depth ρ d := by
  have hqualifier := ht.of_qualifier
  have hnone : ∀ d ∈ (none : Option Descriptor), u.Scoped R trail.depth ρ d := nofun
  unfold qualifierOf at h
  split at h
  · cases h
    exact hnone
  · next q' heq =>
    have hq' := hqualifier q' heq
    split at h
    · cases h
      exact hnone
    · split at h
      · dsimp only at h
        split at h
        · cases h
          exact hnone
        · obtain ⟨d, hd, h⟩ := value?_bind_iff.1 h
          cases h
          rintro _ ⟨rfl⟩
          exact describeQualifier_scoped hr (hu.symbolType _) hd
      · obtain ⟨m, hm, h⟩ := value?_bind_iff.1 h
        cases h
        rintro _ ⟨rfl⟩
        have hpath := hr.termName hm
        rw [← IsPath.without_boundaries ⟨_, hpath⟩]
        cases hq' with
        | single _ hs _ => exact .path hs hpath (by simp [Boundaries.types])
      · obtain ⟨d, hd, h⟩ := value?_bind_iff.1 h
        cases h
        rintro _ ⟨rfl⟩
        exact describeQualifier_scoped hr hq' hd

theorem describeCut_scoped (ht : t.Obeys R) {d : Descriptor}
    (h : (u.describeCut r trail ρ t).value? = some d) : u.Scoped R trail.depth ρ d := by
  obtain ⟨p, hp, rfl⟩ | ⟨hfree, q, m, hq, hm, rfl⟩ := describeCut_cases h
  · obtain ⟨x, hx⟩ := placeholder?_eq_some hp
    exact .typeName hx
  · have hq := qualifierOf_scoped hu hr ht hq
    exact (nameOf_scoped hr ht hfree (by simp [Boundaries.types]) hq hm).1

theorem boundariesOf_scoped {b : Boundaries Descriptor}
    (h : (u.boundariesOf r trail ρ t).value? = some b) :
    ∀ e ∈ b.types, u.Scoped R trail.depth ρ e := by
  unfold boundariesOf at h
  split at h
  · next l u' heq =>
    obtain ⟨s, hs, hsig⟩ := Option.map_eq_some_iff.1 heq
    obtain ⟨rfl, rfl⟩ := signature_eq_bounds hsig
    obtain ⟨hl, hh⟩ := hu.boundsOf s
    exact describeBounds_scoped hr hl hh h
  · cases h
    exact fun e he ↦ nomatch he

theorem headName_scoped (ht : t.Obeys R) {q : Option Descriptor}
    (hq : ∀ d ∈ q, u.Scoped R trail.depth ρ d) {m : NameRef Descriptor}
    (h : (u.headName r trail ρ t q).value? = some m) :
    u.Scoped R trail.depth ρ (.name m) ∧ (t.args ≠ [] → u.NamedUnder R ρ m.name) := by
  obtain ⟨p, hp, rfl⟩ | ⟨hfree, b, hb, hm⟩ := headName_cases h
  · obtain ⟨x, hx⟩ := placeholder?_eq_some hp
    exact ⟨.typeName hx, fun _ ↦ .placeholder hx⟩
  · exact nameOf_scoped hr ht hfree (boundariesOf_scoped hu hr hb) hq hm

theorem describeNamed_scoped (ht : t.Obeys R) {d : Descriptor}
    (h : (u.describeNamed n r trail ρ t).value? = some d) : u.Scoped R trail.depth ρ d := by
  obtain ⟨e, q, m, he, hq, hm, h⟩ := describeNamed_cases h
  have ht := hu.keeps.dealiasResult ht he
  have hq := qualifierOf_scoped hu hr ht hq
  obtain ⟨hm, hhead⟩ := headName_scoped hu hr ht hq hm
  obtain ⟨-, rfl⟩ | ⟨hargs, as, has, rfl⟩ := h
  · exact hm
  · exact .full (hhead hargs) (describeArgs_scoped hr ht has) hq

theorem describeProper_scoped (ht : t.Obeys R) {d : Descriptor}
    (h : (u.describeProper n r trail ρ t).value? = some d) : u.Scoped R trail.depth ρ d := by
  obtain ⟨p, e, hf, he, h⟩ | ⟨ps, ms, ds, hf, hds, h⟩ := describeProper_cases h
  · have hp := hu.keeps.flatten_single ht hf
    exact describeNamed_scoped hu hr (hu.keeps.leaf hp he) h
  · cases hu.flatten_compound ht hf with
    | refined hparents hnames hmembers =>
      have hparent : u.Scoped R trail.depth ρ (.intersect ds) := by
        refine .intersect fun d hd ↦ ?_
        obtain ⟨p, hp, hd⟩ := Build.exists_of_mem_value?_mapM hds hd
        exact hr.nested (hparents p hp) hd
      obtain ⟨-, rfl⟩ | ⟨-, decls, hdecls, rfl⟩ := h
      · exact hparent
      · refine .refinement hparent fun c hc ↦ ?_
        obtain ⟨cs, hcs, hc⟩ := List.mem_flatten.1 (SortedSet.mem_ofList_iff.1 hc)
        obtain ⟨m, hm, hcs⟩ := Build.exists_of_mem_value?_mapM hdecls hcs
        exact describeMember_scoped hr (fun n t heq ↦ hnames n t (heq ▸ hm)) (hmembers m hm)
          hcs c hc

theorem describeBody_scoped {result : Ty} (ht : result.Obeys R) {d : Descriptor}
    (h : (u.describeBody n r trail ρ t result).value? = some d) : u.Scoped R trail.depth ρ d := by
  unfold describeBody at h
  split at h
  · exact describeProper_scoped hu hr ht h
  · exact hr.nested ht h

theorem describeLambda_scoped {level : Nat} (hlevel : trail.depth = level + 1)
    (ht : t.Obeys R) {d : Descriptor}
    (h : (u.describeLambda n r trail ρ t).value? = some d) : u.Scoped R level ρ d := by
  obtain ⟨result, body, hresult, hbody, rfl⟩ := describeLambda_value? h
  have hresult := hu.keeps.dealiasResult_etaExpand ht hresult
  have hbody := describeBody_scoped hu hr hresult hbody
  have heq : trail.level = level := by
    rw [Trail.level, hlevel, Nat.add_sub_cancel]
  rw [heq, hlevel] at hbody
  rw [heq]
  exact .lambda (Nat.le_refl level) hbody

theorem describe_scoped {level : Nat} (hlevel : trail.depth = level + 1)
    (ht : t.Obeys R) {d : Descriptor}
    (h : (u.describe n r trail ρ false t).value? = some d) : u.Scoped R level ρ d := by
  obtain ⟨-, h⟩ | ⟨-, h⟩ := describe_cases h
  · exact describeLambda_scoped hu hr hlevel ht h
  · have hd := describeProper_scoped hu hr ht h
    exact hd.mono (hlevel ▸ Nat.le_succ level)

theorem describeNested_scoped (ht : t.Obeys R) {d : Descriptor}
    (h : (u.describeNested n r trail ρ t).value? = some d) : u.Scoped R trail.depth ρ d := by
  obtain ⟨-, h⟩ | ⟨-, h⟩ := describeNested_cases h
  · exact describeCut_scoped hu hr ht h
  · exact describe_scoped hu hr rfl ht h

end Describe

section Builds

variable {u R} (hu : u.Obeys R) {n : Nat} {ρ : Bindings} {t : Ty}
  (ht : t.Obeys R) {d : Descriptor}

include hu

theorem Obeys.scoping (n : Nat) : u.Scoping R (u.recursion n) := by
  have htermName (n : Nat) {s : SymbolId} {m : NameRef Descriptor}
      (h : (u.termName (u.recursion n) s).value? = some m) : u.IsPathTo s m :=
    (steady_termName s).ends (outcome_eq_some_some_iff.2 h)
  induction n with
  | zero =>
    refine ⟨@fun trail ρ t _ _ h ↦ ?_, htermName 0⟩
    obtain ⟨m, hm, -⟩ := nested_cases h
    cases hm
  | succ n ih =>
    refine ⟨@fun trail ρ t _ ht h ↦ ?_, htermName (n + 1)⟩
    obtain ⟨m, hm, h⟩ := nested_cases h
    cases hm
    exact describeNested_scoped hu ih ht h

theorem Obeys.scoped_of_isPath (hterm : ∀ s, R.term s) {m : NameRef Descriptor}
    (hm : u.IsPath m) : ∀ q ∈ m.qualifier, u.Scoped R 1 [] q := by
  obtain ⟨s, n, hn⟩ := hm
  obtain ⟨q, hq, hm⟩ := value?_bind_iff.1 (outcome_eq_some_some_iff.1 (hn n (Nat.le_refl n)))
  cases hm
  have hsingle : (u.single (u.resolveTerm s)).Obeys R :=
    .single (hu.qualified _) (hterm _) (hu.qualifier _)
  have hq : (u.termQualifier n (u.resolveTerm s)).value? = some q := hq
  cases n with
  | zero =>
    rw [termQualifier] at hq
    cases hq
  | succ n =>
    rw [termQualifier] at hq
    exact qualifierOf_scoped hu (hu.scoping n) hsingle hq

include ht

theorem describeAlone_scoped (h : (u.describeAlone n ρ false t).value? = some d) :
    u.Scoped R 0 ρ d :=
  describe_scoped hu (hu.scoping n) rfl ht h

theorem describeAlone_force_scoped (h : (u.describeAlone n ρ true t).value? = some d) :
    ∃ body, d = .lambda (ρ.map (·.2)) body ∧ u.Scoped R 1 ρ body := by
  obtain ⟨body, hbody, rfl⟩ := describe_force_value? h
  exact ⟨body, rfl, describeProper_scoped hu (hu.scoping n) ht hbody⟩

end Builds

end SymbolTable

end TypeTag
