import TypeTag.Proofs.SymbolTable.Expansion
import TypeTag.Proofs.SymbolTable.Hierarchy

namespace TypeTag.SymbolTable

open Relation

variable {u : SymbolTable}

section Forms

variable {b c : SymbolId} {n : Nat} {visiting : List SymbolId} {t f : Ty}

theorem IsApplied.substitute {p p' : Ty} (hp : u.IsApplied b p) {params : List SymbolId}
    (hparams : ∀ x ∈ params, u.kind x = .typeParam) {args : List Ty}
    (h : p.substitute n params args = some p') : u.IsApplied b p' := by
  obtain ⟨hb, as, rfl, hlen⟩ := hp
  have hne : ∀ x ∈ params, u.kind x ≠ .package := fun x hx ↦ by simp [hparams x hx]
  have hclass : b ∉ params := fun hmem ↦ by simp [hparams b hmem] at hb
  rcases Ty.substitute_cases h with ⟨-, rfl⟩ | ⟨beta, -, h⟩
  · exact ⟨hb, as, rfl, hlen⟩
  · rw [instantiate_applied hne hclass] at h
    obtain ⟨bs, hbs, rfl⟩ := Option.map_eq_some_iff.1 h
    exact ⟨hb, bs, rfl, (length_mapM hbs).trans hlen⟩

theorem isApplied_symbolType (hc : u.kind c = .cls) : u.IsApplied c (u.symbolType c) :=
  ⟨hc, _, symbolType_class hc, List.length_map _⟩

/-- A type comes down to a class, from without or from within. -/
def Refers (u : SymbolTable) (c : SymbolId) (t : Ty) : Prop :=
  u.Shows t (.ref c) ∨ u.Shows t (.self c)

theorem findBase_ne_none_of_shows (hc : u.kind c = .cls) {i : Head} (hi : i = .ref c ∨ i = .self c)
    (ht : u.Shows t i) : u.findBase c n visiting t ≠ some none := by
  intro h
  induction n generalizing visiting t with
  | zero => cases h
  | succ n ih =>
    obtain ⟨d, hd, h⟩ := Option.bind_eq_some_iff.1 h
    cases d with
    | ref q s as =>
      obtain rfl := (shows_ref_iff hd).1 ht
      obtain rfl : s = c := by simpa using hi
      dsimp only at h
      rw [if_pos rfl] at h
      cases h
    | self s =>
      obtain rfl := (shows_self_iff hd).1 ht
      obtain rfl : s = c := by simpa using hi
      dsimp only at h
      rw [if_pos rfl] at h
      cases h
    | single q s =>
      rcases (shows_single_iff hd).1 ht with ⟨-, rfl⟩ | ⟨hk, hsingle, ht⟩
      · simp at hi
      · have hne : s ≠ c := by
          rintro rfl
          rw [hc] at hk
          cases hk
        dsimp only at h
        rw [if_neg hne, findAboveSingle, if_pos hk] at h
        dsimp only at h
        rw [hsingle, if_neg Bool.false_ne_true] at h
        exact ih ht h
    | refined ps ms =>
      obtain ⟨p, hp, ht⟩ := (shows_refined_iff hd).1 ht
      exact ih ht (findSomeM?_eq_none h hp)
    | poly ps r => exact ih ((shows_poly_iff hd).1 ht) h
    | constant v => exact not_shows_constant hd ht
    | bounds l r => exact not_shows_bounds hd ht

theorem findBase_ne_none (hc : u.kind c = .cls) (ht : u.Refers c t) :
    u.findBase c n visiting t ≠ some none :=
  ht.elim (findBase_ne_none_of_shows hc (.inl rfl)) (findBase_ne_none_of_shows hc (.inr rfl))

theorem shows_of_symbol? (hc : u.kind c = .cls) (ht : t.Obeys u.defaultNodes)
    (hs : t.symbol? = some c) :
    (∀ i, u.Shows t i → i = .ref c ∨ i = .self c) ∧ u.Refers c t := by
  induction ht with
  | @ref q s as =>
    cases hs
    have hd : u.dealias 0 (.ref q c as) = some (.ref q c as) :=
      dealias_of_kind_ne (by simp [hc]) 0
    exact ⟨fun i hi ↦ .inl ((shows_ref_iff hd).1 hi), .inl (.ref hd)⟩
  | single _ hs' =>
    cases hs
    exact absurd hc hs'
  | self s =>
    cases hs
    have hd : u.dealias 0 (.self c) = some (.self c) := dealias_of_aliasRedex?_eq_none rfl 0
    exact ⟨fun i hi ↦ .inr ((shows_self_iff hd).1 hi), .inr (.self hd)⟩
  | @poly ps r _ _ ih =>
    have hd : u.dealias 0 (.poly ps r) = some (.poly ps r) := dealias_of_aliasRedex?_eq_none rfl 0
    obtain ⟨honly, href⟩ := ih hs
    exact ⟨fun i hi ↦ honly i ((shows_poly_iff hd).1 hi),
      href.imp (shows_poly_iff hd).2 (shows_poly_iff hd).2⟩
  | constant | refined | bounds => cases hs

namespace Nominal

variable (h : u.Nominal) (hu : u.Constructible)

include h hu

theorem looksInto_applied (hc : u.kind c = .cls) {q : Option Ty} {as : List Ty} {t : Ty}
    (hinto : u.LooksInto n (.ref q c as) t) : ∃ x, u.IsApplied x t := by
  cases hinto with
  | bound hk => simp [hc] at hk
  | @specialised _ _ _ p p' _ hp hp' =>
    obtain ⟨x, hx⟩ := h.parents c hc p hp
    refine ⟨x, ?_⟩
    unfold specialise at hp'
    dsimp only at hp'
    split at hp'
    · exact hx.substitute (hu.paramsAreParams c) hp'
    · cases hp'
      exact hx

theorem findBase_applied {x : SymbolId} (ht : u.IsApplied x t)
    (hf : u.findBase b n visiting t = some (some f)) : u.IsApplied b f := by
  have hdealias (n : Nat) (t d : Ty) (ht : ∃ x, u.IsApplied x t) (hd : u.dealias n t = some d) :
      ∃ x, u.IsApplied x d := by
    obtain ⟨x, hx, as, rfl, hlen⟩ := ht
    cases (dealias_of_kind_ne (u := u) (by simp [hx]) n).symm.trans hd
    exact ⟨x, hx, as, rfl, hlen⟩
  obtain ⟨d, ⟨y, hy, as, rfl, hlen⟩, hfound⟩ := findBase_induction hdealias
    (fun _ _ _ ⟨_, hx, _, heq, _⟩ hinto ↦ h.looksInto_applied hu hx (heq ▸ hinto)) ⟨x, ht⟩ hf
  obtain ⟨q, as', heq, rfl⟩ | ⟨q, heq, -⟩ | ⟨heq, -⟩ := hfound
  · cases heq
    exact ⟨hy, as, rfl, hlen⟩
  · cases heq
  · cases heq

/-- Above a class, every class has an applied form. -/
theorem findBase_above (hc : u.kind c = .cls) (ht : t.Obeys u.defaultNodes)
    (hs : t.symbol? = some c) (hne : c ≠ b) (hf : u.findBase b n visiting t = some (some f)) :
    u.IsApplied b f := by
  induction n generalizing visiting t with
  | zero => cases hf
  | succ n ih =>
    obtain ⟨m, d, hm, hd, hfound⟩ := findBase_cases hf
    cases hm
    have hother : ¬u.FoundAt b t f :=
      fun hfound ↦ hne (Option.some.inj (hs.symm.trans hfound.symbol?))
    cases ht with
    | ref =>
      cases hs
      cases (dealias_of_kind_ne (u := u) (by simp [hc]) n).symm.trans hd
      obtain ⟨visiting', t', hinto, hf⟩ := hfound.resolve_left hother
      obtain ⟨x, hx⟩ := h.looksInto_applied hu hc hinto
      exact h.findBase_applied hu hx hf
    | single _ hs' =>
      cases hs
      exact absurd hc hs'
    | self s =>
      cases hs
      cases (dealias_of_aliasRedex?_eq_none (u := u) rfl n).symm.trans hd
      obtain ⟨visiting', t', hinto, hf⟩ := hfound.resolve_left hother
      cases hinto
      exact h.findBase_applied hu (isApplied_symbolType hc) hf
    | poly _ hr =>
      cases (dealias_of_aliasRedex?_eq_none (u := u) rfl n).symm.trans hd
      obtain ⟨visiting', t', hinto, hf⟩ := hfound.resolve_left hother
      cases hinto
      exact ih hr hs hf
    | constant | refined | bounds => cases hs

end Nominal

end Forms

section Refers

variable {c : SymbolId} {n : Nat} {t d : Ty}

theorem refers_dealias_iff (hd : u.dealias n t = some d) : u.Refers c d ↔ u.Refers c t :=
  or_congr (shows_dealias_iff hd) (shows_dealias_iff hd)

theorem refers_dealiasResult_iff (hd : u.dealiasResult n t = some d) :
    u.Refers c d ↔ u.Refers c t := by
  obtain ⟨e, he, hd⟩ := Option.bind_eq_some_iff.1 hd
  rw [refers_dealias_iff hd, ← refers_dealias_iff he]
  cases e with
  | poly ps r =>
    have hpoly : u.dealias 0 (.poly ps r) = some (.poly ps r) :=
      dealias_of_aliasRedex?_eq_none rfl 0
    exact (or_congr (shows_poly_iff hpoly) (shows_poly_iff hpoly)).symm
  | _ => exact Iff.rfl

end Refers

section Ancestors

variable {b c : SymbolId} {n : Nat} {t d : Ty} {forms : List Ty}

theorem ancestors_eq_some (h : u.ancestors n t = some forms) :
    ∃ d bases, u.dealiasResult n (u.etaExpand t) = some d ∧ u.baseClasses n d = some bases ∧
      (∀ b ∈ bases, u.isUniversal b = false → d.symbol? ≠ some b → ∃ o, u.baseType n d b = some o) ∧
      ∀ f, f ∈ forms ↔ f ≠ d ∧ ∃ b ∈ bases, u.isUniversal b = false ∧ d.symbol? ≠ some b ∧
        u.baseType n d b = some (some f) := by
  obtain ⟨d, hd, h⟩ := Option.bind_eq_some_iff.1 h
  obtain ⟨bases, hbases, h⟩ := Option.bind_eq_some_iff.1 h
  obtain ⟨found, hfound, h⟩ := Option.bind_eq_some_iff.1 h
  cases h
  have hmem (b : SymbolId) : b ∈ bases.filter (fun b ↦ !u.isUniversal b && d.symbol? != some b) ↔
      b ∈ bases ∧ u.isUniversal b = false ∧ d.symbol? ≠ some b := by
    simp [List.mem_filter]
  refine ⟨d, bases, hd, hbases, fun b hb huniversal hne ↦ ?_, fun f ↦ ?_⟩
  · obtain ⟨o, -, ho⟩ := mapM_mem hfound ((hmem b).2 ⟨hb, huniversal, hne⟩)
    exact ⟨o, ho⟩
  · have hsome : f ∈ found.filterMap id ↔ some f ∈ found := by simp
    rw [List.mem_filter, hsome, decide_eq_true_iff, and_comm]
    refine and_congr_right fun _ ↦ ⟨fun hf ↦ ?_, fun ⟨b, hb, huniversal, hne, hf⟩ ↦ ?_⟩
    · obtain ⟨b, hb, hf⟩ := mem_mapM hfound hf
      obtain ⟨hb, huniversal, hne⟩ := (hmem b).1 hb
      exact ⟨b, hb, huniversal, hne, hf⟩
    · obtain ⟨o, ho, hform⟩ := mapM_mem hfound ((hmem b).2 ⟨hb, huniversal, hne⟩)
      cases hf.symm.trans hform
      exact ho

theorem baseType_eq_some_iff (hb : u.isUniversal b = false) {o : Option Ty} :
    u.baseType n t b = some o ↔ u.findBase b n [] t = some o := by
  unfold baseType
  rcases u.findBase b n [] t with _ | _ | f <;> simp [hb]

theorem exists_ancestor_of_refers (hc : u.kind c = .cls) (huniversal : u.isUniversal c = false)
    (hd : u.dealiasResult n (u.etaExpand t) = some d) (hrefers : u.Refers c d)
    (hne : d.symbol? ≠ some c) (h : u.ancestors n t = some forms) :
    ∃ f ∈ forms, f.symbol? = some c := by
  obtain ⟨d', bases, hd', hbases, hends, hmem⟩ := ancestors_eq_some h
  cases hd.symm.trans hd'
  have hbase : c ∈ bases := by
    rw [mem_baseClasses_iff huniversal hbases]
    rcases hrefers with hs | hs
    · exact ⟨_, c, 0, hs, rfl, .here (.inl hc)⟩
    · exact ⟨_, c, 0, hs, rfl, .here (.inl hc)⟩
  obtain ⟨o, ho⟩ := hends c hbase huniversal hne
  have hfind := (baseType_eq_some_iff huniversal).1 ho
  cases o with
  | none => exact absurd hfind (findBase_ne_none hc hrefers)
  | some f =>
    have hf : f.symbol? = some c := by
      rcases findBase_form hfind with ⟨q, as, rfl⟩ | ⟨q, rfl⟩ | rfl
      · rfl
      · rfl
      · obtain ⟨-, as, heq, -⟩ := isApplied_symbolType hc
        rw [heq]
        rfl
    refine ⟨f, (hmem f).2 ⟨?_, c, hbase, huniversal, hne, ho⟩, hf⟩
    rintro rfl
    exact hne hf

theorem Nominal.mem_baseClasses_of_symbol? (h : u.Nominal) (hc : u.kind c = .cls)
    (hobeys : d.Obeys u.defaultNodes) (hs : d.symbol? = some c) {bases : List SymbolId}
    (hbases : u.baseClasses n d = some bases) (hb : u.isUniversal b = false) :
    b ∈ bases ↔ ReflTransGen u.Extends c b := by
  obtain ⟨honly, hrefers⟩ := shows_of_symbol? hc hobeys hs
  have hanchor {i : Head} (hi : u.Shows d i) : u.anchor? i = some c := by
    rcases honly i hi with rfl | rfl <;> rfl
  rw [mem_baseClasses_iff hb hbases, ← h.climbs_iff hc]
  constructor
  · rintro ⟨i, s, k, hi, ha, hk⟩
    cases (hanchor hi).symm.trans ha
    exact ⟨k, hk⟩
  · rintro ⟨k, hk⟩
    rcases hrefers with hi | hi
    · exact ⟨_, c, k, hi, rfl, hk⟩
    · exact ⟨_, c, k, hi, rfl, hk⟩

theorem Nominal.findBase_ne_none_of_extends (h : u.Nominal) (hu : u.Constructible)
    (hc : u.kind c = .cls) (hobeys : d.Obeys u.defaultNodes) (hs : d.symbol? = some c)
    (hpath : ReflTransGen u.Extends c b) : u.findBase b n [] d ≠ some none := by
  intro hfind
  obtain ⟨honly, hrefers⟩ := shows_of_symbol? hc hobeys hs
  obtain ⟨k, hk⟩ := (h.climbs_iff hc).2 hpath
  have hup (i : Head) (hi : u.Shows d i) : u.AgreesUp i := by
    rcases honly i hi with rfl | rfl
    · exact h.agreesUp_ref hu hc
    · exact h.agreesUp_self hu hc
  rcases hrefers with hi | hi
  · exact findBase_complete hfind hup hi rfl hk (fails_nil k)
  · exact findBase_complete hfind hup hi rfl hk (fails_nil k)

/-- The ancestors of a type with the symbol of a class are the applied classes above that class. -/
theorem Nominal.ancestors_of_symbol? (h : u.Nominal) (hu : u.Constructible) (hc : u.kind c = .cls)
    (hd : u.dealiasResult n (u.etaExpand t) = some d) (hobeys : d.Obeys u.defaultNodes)
    (hs : d.symbol? = some c) (hforms : u.ancestors n t = some forms) :
    (∀ f ∈ forms, ∃ b, u.isUniversal b = false ∧ b ≠ c ∧ ReflTransGen u.Extends c b ∧
      u.IsApplied b f) ∧
    ∀ b, u.isUniversal b = false → b ≠ c → ReflTransGen u.Extends c b →
      ∃ f ∈ forms, u.IsApplied b f := by
  obtain ⟨d', bases, hd', hbases, hends, hmem⟩ := ancestors_eq_some hforms
  cases hd.symm.trans hd'
  have hform {b : SymbolId} (hb : u.isUniversal b = false) (hne : b ≠ c) {f : Ty}
      (hf : u.baseType n d b = some (some f)) : u.IsApplied b f :=
    h.findBase_above hu hc hobeys hs hne.symm ((baseType_eq_some_iff hb).1 hf)
  constructor
  · intro f hf
    obtain ⟨-, b, hb, huniversal, hne, hf⟩ := (hmem f).1 hf
    have hne : b ≠ c := fun heq ↦ hne (hs.trans (congrArg some heq.symm))
    have hpath := (h.mem_baseClasses_of_symbol? hc hobeys hs hbases huniversal).1 hb
    exact ⟨b, huniversal, hne, hpath, hform huniversal hne hf⟩
  · intro b huniversal hne hpath
    have hb := (h.mem_baseClasses_of_symbol? hc hobeys hs hbases huniversal).2 hpath
    have hsymbol : d.symbol? ≠ some b := fun heq ↦ hne (Option.some.inj (heq.symm.trans hs))
    obtain ⟨o, ho⟩ := hends b hb huniversal hsymbol
    have hfind := (baseType_eq_some_iff huniversal).1 ho
    cases o with
    | none => exact absurd hfind (h.findBase_ne_none_of_extends hu hc hobeys hs hpath)
    | some f =>
      have happlied := hform huniversal hne ho
      refine ⟨f, (hmem f).2 ⟨?_, b, hb, huniversal, hsymbol, ho⟩, happlied⟩
      obtain ⟨-, as, rfl, -⟩ := happlied
      rintro rfl
      exact hsymbol rfl

end Ancestors

end TypeTag.SymbolTable
