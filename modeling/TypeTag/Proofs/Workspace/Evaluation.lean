import TypeTag.Proofs.SymbolTable.Within
import TypeTag.Workspace.Expr

namespace TypeTag

theorem Except.bind_eq_ok_iff {ε α β : Type} {x : Except ε α} {f : α → Except ε β} {b : β} :
    x >>= f = .ok b ↔ ∃ a, x = .ok a ∧ f a = .ok b := by
  rcases x with e | a
  · exact ⟨fun h ↦ (nomatch h), fun ⟨_, h, _⟩ ↦ (nomatch h)⟩
  · exact ⟨fun h ↦ ⟨a, rfl, h⟩, fun ⟨_, h, hf⟩ ↦ by cases h; exact hf⟩

namespace TypeExpr

structure Env.Valid (env : Env) : Prop where
  table : env.table.WellFormed
  symbols : ∀ p ∈ env.symbols, p.2 < env.table.size
  vars : ∀ p ∈ env.vars, p.2.type.Within env.table.size
  samples : ∀ s ∈ env.standard, ∀ p ∈ s.samples, p.2.Within env.table.size

/-- If the expression has a value, it is a type of the table. -/
def StaysWithin (env : Env) (e : TypeExpr) : Prop :=
  ∀ v, e.eval env = .ok v → v.type.Within env.table.size

theorem mem_of_lookup {β : Type} {l : List (String × β)} {k : String} {b : β}
    (h : l.lookup k = some b) : (k, b) ∈ l := by
  obtain ⟨l₁, l₂, rfl, -⟩ := List.lookup_eq_some_iff.1 h
  simp

theorem within_repeat {n : Nat} {f : Ty → Ty} (hf : ∀ t, t.Within n → (f t).Within n) {t : Ty}
    (ht : t.Within n) : ∀ k : Nat, (k.repeat f t).Within n
  | 0 => ht
  | k + 1 => hf _ (within_repeat hf ht k)

variable {env : Env}

section Parts

theorem evalQualifier_within {q : Option TypeExpr} (hq : ∀ e ∈ q, e.StaysWithin env)
    {r : Option Ty × List ObjectId} (h : evalQualifier env q = .ok r) :
    ∀ t ∈ r.1, t.Within env.table.size := by
  cases q with
  | none =>
    cases h
    simp
  | some e =>
    obtain ⟨v, hv, h⟩ := Except.bind_eq_ok_iff.1 h
    cases h
    rintro t ⟨rfl⟩
    exact hq e rfl v hv

theorem evalList_within {es : List TypeExpr} (hes : ∀ e ∈ es, e.StaysWithin env)
    {r : List Ty × List ObjectId} (h : evalList env es = .ok r) :
    ∀ t ∈ r.1, t.Within env.table.size := by
  induction es generalizing r with
  | nil =>
    cases h
    simp
  | cons e es ih =>
    obtain ⟨v, hv, h⟩ := Except.bind_eq_ok_iff.1 h
    obtain ⟨⟨ts, ks⟩, hts, h⟩ := Except.bind_eq_ok_iff.1 h
    cases h
    obtain ⟨he, hes⟩ := List.forall_mem_cons.1 hes
    exact List.forall_mem_cons.2 ⟨he v hv, ih hes hts⟩

theorem evalLists_within {ess : List (List TypeExpr)} (hess : ∀ e ∈ ess.flatten, e.StaysWithin env)
    {r : List (List Ty) × List ObjectId} (h : evalLists env ess = .ok r) :
    ∀ t ∈ r.1.flatten, t.Within env.table.size := by
  induction ess generalizing r with
  | nil =>
    cases h
    simp
  | cons es ess ih =>
    obtain ⟨⟨ts, ks⟩, hts, h⟩ := Except.bind_eq_ok_iff.1 h
    obtain ⟨⟨tss, ls⟩, htss, h⟩ := Except.bind_eq_ok_iff.1 h
    cases h
    obtain ⟨hes, hess⟩ := List.forall_mem_append.1 hess
    exact List.forall_mem_append.2 ⟨evalList_within hes hts, ih hess htss⟩

theorem evalMember_within {m : Member TypeExpr} (hm : ∀ e ∈ m.types, e.StaysWithin env)
    {r : Member Ty × List ObjectId} (h : evalMember env m = .ok r) :
    ∀ t ∈ r.1.types, t.Within env.table.size := by
  cases m with
  | method m ess e =>
    obtain ⟨⟨tss, ks⟩, htss, h⟩ := Except.bind_eq_ok_iff.1 h
    obtain ⟨v, hv, h⟩ := Except.bind_eq_ok_iff.1 h
    cases h
    obtain ⟨he, hess⟩ := List.forall_mem_cons.1 hm
    exact List.forall_mem_cons.2 ⟨he v hv, evalLists_within hess htss⟩
  | type m e =>
    obtain ⟨v, hv, h⟩ := Except.bind_eq_ok_iff.1 h
    cases h
    exact List.forall_mem_singleton.2 (hm e List.mem_cons_self v hv)

theorem evalMembers_within {ms : List (Member TypeExpr)}
    (hms : ∀ m ∈ ms, ∀ e ∈ m.types, e.StaysWithin env) {r : List (Member Ty) × List ObjectId}
    (h : evalMembers env ms = .ok r) : ∀ m ∈ r.1, ∀ t ∈ m.types, t.Within env.table.size := by
  induction ms generalizing r with
  | nil =>
    cases h
    simp
  | cons m ms ih =>
    obtain ⟨⟨n, ks⟩, hn, h⟩ := Except.bind_eq_ok_iff.1 h
    obtain ⟨⟨ns, ls⟩, hns, h⟩ := Except.bind_eq_ok_iff.1 h
    cases h
    obtain ⟨hm, hms⟩ := List.forall_mem_cons.1 hms
    exact List.forall_mem_cons.2 ⟨evalMember_within hm hn, ih hms hns⟩

theorem refined_within {ps : List TypeExpr} {ms : List (Member TypeExpr)}
    (hps : ∀ e ∈ ps, e.StaysWithin env) (hms : ∀ m ∈ ms, ∀ e ∈ m.types, e.StaysWithin env) :
    (refined ps ms).StaysWithin env := by
  intro v h
  obtain ⟨⟨ts, ks⟩, hts, h⟩ := Except.bind_eq_ok_iff.1 h
  obtain ⟨⟨ns, ls⟩, hns, h⟩ := Except.bind_eq_ok_iff.1 h
  cases h
  exact Ty.within_refined_iff.2 ⟨evalList_within hps hts, evalMembers_within hms hns⟩

theorem constant_within (c : String) : (constant c).StaysWithin env := by
  intro v h
  cases h
  exact Ty.within_constant c

theorem malformed_within : malformed.StaysWithin env := by
  intro v h
  cases h

theorem bounds_within {l u : TypeExpr} (hl : l.StaysWithin env) (hu : u.StaysWithin env) :
    (bounds l u).StaysWithin env := by
  intro v h
  obtain ⟨a, ha, h⟩ := Except.bind_eq_ok_iff.1 h
  obtain ⟨b, hb, h⟩ := Except.bind_eq_ok_iff.1 h
  cases h
  exact Ty.within_bounds_iff.2 ⟨hl a ha, hu b hb⟩

end Parts

section Valid

variable (henv : env.Valid)

include henv

theorem Env.Valid.symbol {x : String} {s : SymbolId} (h : env.symbol x = .ok s) :
    s < env.table.size := by
  unfold Env.symbol at h
  split at h
  · next hs =>
    cases h
    exact henv.symbols _ (mem_of_lookup hs)
  · cases h

theorem Env.Valid.symbols_mapM {xs : List String} {ss : List SymbolId}
    (h : xs.mapM env.symbol = .ok ss) : ∀ s ∈ ss, s < env.table.size := by
  induction xs generalizing ss with
  | nil =>
    cases h
    simp
  | cons x xs ih =>
    rw [List.mapM_cons] at h
    obtain ⟨s, hs, h⟩ := Except.bind_eq_ok_iff.1 h
    obtain ⟨ss, hss, h⟩ := Except.bind_eq_ok_iff.1 h
    cases h
    exact List.forall_mem_cons.2 ⟨henv.symbol hs, ih hss⟩

theorem ref_within {s : String} {as : List TypeExpr} (has : ∀ e ∈ as, e.StaysWithin env) :
    (ref s as).StaysWithin env := by
  intro v h
  obtain ⟨⟨ts, ks⟩, hts, h⟩ := Except.bind_eq_ok_iff.1 h
  obtain ⟨s, hs, h⟩ := Except.bind_eq_ok_iff.1 h
  cases h
  exact henv.table.applied (henv.symbol hs) (evalList_within has hts)

theorem select_within {q : Option TypeExpr} {s : String} {as : List TypeExpr}
    (hq : ∀ e ∈ q, e.StaysWithin env) (has : ∀ e ∈ as, e.StaysWithin env) :
    (select q s as).StaysWithin env := by
  intro v h
  obtain ⟨⟨ts, ks⟩, hts, h⟩ := Except.bind_eq_ok_iff.1 h
  obtain ⟨⟨q', ls⟩, hq', h⟩ := Except.bind_eq_ok_iff.1 h
  obtain ⟨s, hs, h⟩ := Except.bind_eq_ok_iff.1 h
  cases h
  exact Ty.within_ref_iff.2
    ⟨henv.symbol hs, evalQualifier_within hq hq', evalList_within has hts⟩

theorem single_within (s : String) : (single s).StaysWithin env := by
  intro v h
  obtain ⟨s, hs, h⟩ := Except.bind_eq_ok_iff.1 h
  cases h
  exact henv.table.single (henv.symbol hs)

theorem selectSingle_within {q : Option TypeExpr} {s : String} (hq : ∀ e ∈ q, e.StaysWithin env) :
    (selectSingle q s).StaysWithin env := by
  intro v h
  obtain ⟨⟨q', ls⟩, hq', h⟩ := Except.bind_eq_ok_iff.1 h
  obtain ⟨s, hs, h⟩ := Except.bind_eq_ok_iff.1 h
  cases h
  exact Ty.within_single_iff.2 ⟨henv.symbol hs, evalQualifier_within hq hq'⟩

theorem self_within (s : String) : (self s).StaysWithin env := by
  intro v h
  obtain ⟨s, hs, h⟩ := Except.bind_eq_ok_iff.1 h
  cases h
  exact Ty.within_self_iff.2 (henv.symbol hs)

theorem poly_within {ps : List String} {r : TypeExpr} (hr : r.StaysWithin env) :
    (poly ps r).StaysWithin env := by
  intro v h
  obtain ⟨ss, hss, h⟩ := Except.bind_eq_ok_iff.1 h
  obtain ⟨w, hw, h⟩ := Except.bind_eq_ok_iff.1 h
  cases h
  exact Ty.within_poly_iff.2 ⟨henv.symbols_mapM hss, hr w hw⟩

theorem var_within (x : String) : (var x).StaysWithin env := by
  intro v h
  rw [eval] at h
  split at h
  · next hx =>
    cases h
    exact henv.vars _ (mem_of_lookup hx)
  · cases h

theorem sample_within (name : String) : (sample name).StaysWithin env := by
  intro v h
  rw [eval] at h
  split at h
  · cases h
  · next s hs =>
    split at h
    · next t ht =>
      cases h
      exact henv.samples s hs _ (mem_of_lookup ht)
    · cases h

theorem nest_within {s : String} {depth : Nat} {e : TypeExpr} (he : e.StaysWithin env) :
    (nest s depth e).StaysWithin env := by
  intro v h
  obtain ⟨s, hs, h⟩ := Except.bind_eq_ok_iff.1 h
  obtain ⟨w, hw, h⟩ := Except.bind_eq_ok_iff.1 h
  have hw' := he w hw
  split at h
  · cases h
    exact hw'
  · cases h
    refine within_repeat (fun t ht ↦ henv.table.applied (henv.symbol hs) ?_) hw' depth
    exact List.forall_mem_singleton.2 ht

theorem eval_within : ∀ e : TypeExpr, e.StaysWithin env
  | .ref _ as => ref_within henv fun e _ ↦ eval_within e
  | .select q _ as => select_within henv (fun e _ ↦ eval_within e) fun e _ ↦ eval_within e
  | .single s => single_within henv s
  | .selectSingle q _ => selectSingle_within henv fun e _ ↦ eval_within e
  | .self s => self_within henv s
  | .constant c => constant_within c
  | .refined ps ms => refined_within (fun e _ ↦ eval_within e) fun m hm e he ↦
    have : sizeOf e < sizeOf ms :=
      (Member.sizeOf_lt_of_mem_types he).trans (List.sizeOf_lt_of_mem hm)
    eval_within e
  | .poly _ r => poly_within henv (eval_within r)
  | .bounds l u => bounds_within (eval_within l) (eval_within u)
  | .var x => var_within henv x
  | .sample name => sample_within henv name
  | .nest _ _ e => nest_within henv (eval_within e)
  | .malformed => malformed_within
termination_by e => sizeOf e
decreasing_by
  all_goals first
    | (rw [refined.sizeOf_spec]; omega)
    | decreasing_tactic

end Valid

end TypeExpr

end TypeTag
