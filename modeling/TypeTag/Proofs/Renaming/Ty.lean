import TypeTag.Proofs.Ty.Structure
import TypeTag.Ty.Size
import TypeTag.Ty.Substitution
import Mathlib.Logic.Function.Basic

namespace TypeTag

namespace Ty

section Rename

variable (f : SymbolId → SymbolId)

mutual

def rename : Ty → Ty
  | ref q s as => ref (renameQualifier q) (f s) (renameList as)
  | single q s => single (renameQualifier q) (f s)
  | self s => self (f s)
  | constant v => constant v
  | refined ps ms => refined (renameList ps) (renameMembers ms)
  | poly ps r => poly (ps.map f) (rename r)
  | bounds l u => bounds (rename l) (rename u)

def renameQualifier : Option Ty → Option Ty
  | none => none
  | some q => some (rename q)

def renameList : List Ty → List Ty
  | [] => []
  | t :: ts => rename t :: renameList ts

def renameLists : List (List Ty) → List (List Ty)
  | [] => []
  | ts :: tss => renameList ts :: renameLists tss

def renameMember : Member Ty → Member Ty
  | .method n pss r => .method n (renameLists pss) (rename r)
  | .type n t => .type n (rename t)

def renameMembers : List (Member Ty) → List (Member Ty)
  | [] => []
  | m :: ms => renameMember m :: renameMembers ms

end

theorem renameQualifier_eq (q : Option Ty) : renameQualifier f q = q.map (rename f) := by
  cases q <;> rfl

theorem renameList_eq (ts : List Ty) : renameList f ts = ts.map (rename f) := by
  induction ts with
  | nil => rfl
  | cons t ts ih => rw [renameList, ih, List.map_cons]

theorem renameLists_eq (tss : List (List Ty)) :
    renameLists f tss = tss.map (·.map (rename f)) := by
  induction tss with
  | nil => rfl
  | cons ts tss ih => rw [renameLists, ih, renameList_eq, List.map_cons]

theorem renameMember_eq (m : Member Ty) : renameMember f m = m.map (rename f) := by
  cases m with
  | method n pss r => rw [renameMember, renameLists_eq, Member.map]
  | type n t => rfl

theorem renameMembers_eq (ms : List (Member Ty)) :
    renameMembers f ms = ms.map (Member.map (rename f)) := by
  induction ms with
  | nil => rfl
  | cons m ms ih => rw [renameMembers, ih, renameMember_eq, List.map_cons]

@[simp]
theorem rename_ref (q : Option Ty) (s : SymbolId) (as : List Ty) :
    rename f (ref q s as) = ref (q.map (rename f)) (f s) (as.map (rename f)) := by
  rw [rename, renameQualifier_eq, renameList_eq]

@[simp]
theorem rename_single (q : Option Ty) (s : SymbolId) :
    rename f (single q s) = single (q.map (rename f)) (f s) := by
  rw [rename, renameQualifier_eq]

@[simp]
theorem rename_self (s : SymbolId) : rename f (self s) = self (f s) := rfl

@[simp]
theorem rename_constant (v : String) : rename f (constant v) = constant v := rfl

@[simp]
theorem rename_refined (ps : List Ty) (ms : List (Member Ty)) :
    rename f (refined ps ms) = refined (ps.map (rename f)) (ms.map (Member.map (rename f))) := by
  rw [rename, renameList_eq, renameMembers_eq]

@[simp]
theorem rename_poly (ps : List SymbolId) (r : Ty) :
    rename f (poly ps r) = poly (ps.map f) (rename f r) := rfl

@[simp]
theorem rename_bounds (l u : Ty) : rename f (bounds l u) = bounds (rename f l) (rename f u) := rfl

end Rename

section Laws

variable {f g : SymbolId → SymbolId}

theorem rename_congr {t : Ty} (h : ∀ s ∈ t.symbols, f s = g s) : t.rename f = t.rename g := by
  induction t with
  | ref q s as hq has =>
    have hs : f s = g s := h s (by simp [symbols])
    have hq' : q.map (rename f) = q.map (rename g) := Option.map_congr fun t ht ↦ hq t ht
      fun x hx ↦ h x (by simp only [symbols, List.cons_append, List.mem_cons, List.mem_append,
        mem_symbolsQualifier]; exact .inr (.inl ⟨t, ht, hx⟩))
    have has' : as.map (rename f) = as.map (rename g) := List.map_congr_left fun t ht ↦ has t ht
      fun x hx ↦ h x (by simp only [symbols, List.cons_append, List.mem_cons, List.mem_append,
        mem_symbolsList]; exact .inr (.inr ⟨t, ht, hx⟩))
    rw [rename_ref, rename_ref, hs, hq', has']
  | single q s hq =>
    have hs : f s = g s := h s (by simp [symbols])
    have hq' : q.map (rename f) = q.map (rename g) := Option.map_congr fun t ht ↦ hq t ht
      fun x hx ↦ h x (by simp only [symbols, List.mem_cons, mem_symbolsQualifier]
                         exact .inr ⟨t, ht, hx⟩)
    rw [rename_single, rename_single, hs, hq']
  | self s => rw [rename_self, rename_self, h s (by simp [symbols])]
  | constant v => rfl
  | refined ps ms hps hms =>
    have hps' : ps.map (rename f) = ps.map (rename g) := List.map_congr_left fun t ht ↦ hps t ht
      fun x hx ↦ h x (by simp only [symbols, List.mem_append, mem_symbolsList]
                         exact .inl ⟨t, ht, hx⟩)
    have hms' : ms.map (Member.map (rename f)) = ms.map (Member.map (rename g)) :=
      List.map_congr_left fun m hm ↦ Member.map_congr fun t ht ↦ hms m hm t ht
        fun x hx ↦ h x (by simp only [symbols, List.mem_append, mem_symbolsMembers]
                           exact .inr ⟨m, hm, t, ht, hx⟩)
    rw [rename_refined, rename_refined, hps', hms']
  | poly ps r hr =>
    have hps : ps.map f = ps.map g := List.map_congr_left fun p hp ↦ h p (by simp [symbols, hp])
    rw [rename_poly, rename_poly, hps, hr fun x hx ↦ h x (by simp [symbols, hx])]
  | bounds l u hl hu =>
    rw [rename_bounds, rename_bounds, hl fun x hx ↦ h x (by simp [symbols, hx]),
      hu fun x hx ↦ h x (by simp [symbols, hx])]

theorem rename_id (t : Ty) : t.rename id = t := by
  induction t with
  | ref q s as hq has =>
    rw [rename_ref, Option.map_congr hq, List.map_congr_left has]
    simp
  | single q s hq =>
    rw [rename_single, Option.map_congr hq]
    simp
  | self s => rfl
  | constant v => rfl
  | refined ps ms hps hms =>
    have hms' : ms.map (Member.map (rename id)) = ms.map id := List.map_congr_left fun m hm ↦
      (Member.map_congr (g := id) (hms m hm)).trans m.map_id
    rw [rename_refined, List.map_congr_left hps, hms', List.map_id, List.map_id']
  | poly ps r hr => rw [rename_poly, hr, List.map_id]
  | bounds l u hl hu => rw [rename_bounds, hl, hu]

theorem rename_rename (t : Ty) : (t.rename f).rename g = t.rename (g ∘ f) := by
  induction t with
  | ref q s as hq has =>
    have hq' : q.map (rename g ∘ rename f) = q.map (rename (g ∘ f)) := Option.map_congr hq
    have has' : as.map (rename g ∘ rename f) = as.map (rename (g ∘ f)) := List.map_congr_left has
    simp only [rename_ref, Option.map_map, List.map_map, hq', has', Function.comp_apply]
  | single q s hq =>
    have hq' : q.map (rename g ∘ rename f) = q.map (rename (g ∘ f)) := Option.map_congr hq
    simp only [rename_single, Option.map_map, hq', Function.comp_apply]
  | self s => rfl
  | constant v => rfl
  | refined ps ms hps hms =>
    have hps' : ps.map (rename g ∘ rename f) = ps.map (rename (g ∘ f)) := List.map_congr_left hps
    have hms' : ms.map (Member.map (rename g) ∘ Member.map (rename f)) =
        ms.map (Member.map (rename (g ∘ f))) := List.map_congr_left fun m hm ↦
      (Member.map_map _ _ m).trans (Member.map_congr (hms m hm))
    simp only [rename_refined, List.map_map, hps', hms']
  | poly ps r hr => rw [rename_poly, rename_poly, rename_poly, hr, List.map_map]
  | bounds l u hl hu => simp only [rename_bounds, hl, hu]

theorem rename_injective (hf : Function.Injective f) : Function.Injective (rename f) := by
  obtain ⟨g, hg⟩ := hf.hasLeftInverse
  have hid : g ∘ f = id := funext hg
  exact Function.LeftInverse.injective (g := rename g) fun t ↦ by
    rw [rename_rename, hid, rename_id]

end Laws

section Accessors

variable (f : SymbolId → SymbolId) (t : Ty)

@[simp]
theorem args_rename : (t.rename f).args = t.args.map (rename f) := by
  cases t <;> simp [args]

@[simp]
theorem qualifier?_rename : (t.rename f).qualifier? = t.qualifier?.map (rename f) := by
  cases t <;> simp [qualifier?]

@[simp]
theorem symbol?_rename : (t.rename f).symbol? = t.symbol?.map f := by
  induction t with
  | poly ps r hr => simpa [symbol?] using hr
  | _ => simp [symbol?]

@[simp]
theorem resultType_rename : (t.rename f).resultType = t.resultType.rename f := by
  cases t <;> simp [resultType]

@[simp]
theorem isRefined_rename : (t.rename f).isRefined = t.isRefined := by
  cases t <;> simp [isRefined]

@[simp]
theorem isSingle_rename : (t.rename f).isSingle = t.isSingle := by
  cases t <;> simp [isSingle]

@[simp]
theorem isPoly_rename : (t.rename f).isPoly = t.isPoly := by
  cases t <;> simp [isPoly]

@[simp]
theorem parents_rename : (t.rename f).parents = t.parents.map (rename f) := by
  cases t <;> simp [parents]

end Accessors

section Size

variable (f : SymbolId → SymbolId)

theorem sizeQualifier_rename {q : Option Ty} (h : ∀ t ∈ q, (rename f t).size = t.size) :
    sizeQualifier (q.map (rename f)) = sizeQualifier q := by
  cases q with
  | none => rfl
  | some q => exact h q rfl

theorem sizeList_rename {ts : List Ty} (h : ∀ t ∈ ts, (rename f t).size = t.size) :
    sizeList (ts.map (rename f)) = sizeList ts := by
  induction ts with
  | nil => rfl
  | cons t ts ih =>
    rw [List.map_cons, sizeList, sizeList, h t (by simp), ih fun t ht ↦ h t (by simp [ht])]

theorem sizeMember_rename {m : Member Ty} (h : ∀ t ∈ m.types, (rename f t).size = t.size) :
    sizeMember (m.map (rename f)) = sizeMember m := by
  cases m with
  | method n pss r =>
    have hp : sizeLists (pss.map (·.map (rename f))) = sizeLists pss := by
      have h' : ∀ t ∈ pss.flatten, (rename f t).size = t.size :=
        fun t ht ↦ h t (by simp only [Member.types, List.mem_cons]; exact .inr ht)
      clear h
      induction pss with
      | nil => rfl
      | cons ps pss ih =>
        rw [List.map_cons, sizeLists, sizeLists, ih fun t ht ↦ h' t (by simp_all),
          sizeList_rename f fun t ht ↦ h' t (by simp [ht])]
    rw [Member.map, sizeMember, sizeMember, hp, h r (by simp [Member.types])]
  | type n t => rw [Member.map, sizeMember, sizeMember, h t (by simp [Member.types])]

theorem sizeMembers_rename {ms : List (Member Ty)}
    (h : ∀ m ∈ ms, ∀ t ∈ m.types, (rename f t).size = t.size) :
    sizeMembers (ms.map (Member.map (rename f))) = sizeMembers ms := by
  induction ms with
  | nil => rfl
  | cons m ms ih =>
    rw [List.map_cons, sizeMembers, sizeMembers, sizeMember_rename f (h m (by simp)),
      ih fun m hm ↦ h m (by simp [hm])]

@[simp]
theorem size_rename (t : Ty) : (t.rename f).size = t.size := by
  induction t with
  | ref q s as hq has =>
    rw [rename_ref, size, size, sizeQualifier_rename f hq, sizeList_rename f has]
  | single q s hq => rw [rename_single, size, size, sizeQualifier_rename f hq]
  | self s => rfl
  | constant v => rfl
  | refined ps ms hps hms =>
    rw [rename_refined, size, size, sizeList_rename f hps, sizeMembers_rename f hms]
  | poly ps r hr => rw [rename_poly, size, size, hr]
  | bounds l u hl hu => rw [rename_bounds, size, size, hl, hu]

end Size

section Substitution

variable {f : SymbolId → SymbolId}

theorem idxOf?_map (hf : Function.Injective f) (ps : List SymbolId) (s : SymbolId) :
    (ps.map f).idxOf? (f s) = ps.idxOf? s := by
  induction ps with
  | nil => rfl
  | cons p ps ih =>
    rw [List.map_cons, List.idxOf?_cons, List.idxOf?_cons, ih]
    simp [hf.eq_iff]

variable (hf : Function.Injective f) {apply apply' : Ty → List Ty → Option Ty}
  (ha : ∀ c as, apply' (c.rename f) (as.map (rename f)) = (apply c as).map (rename f))
  (params : List SymbolId) (args : List Ty)

include hf ha

set_option linter.unusedSectionVars false

mutual

theorem instantiate_rename : ∀ t, instantiate apply' (params.map f) (args.map (rename f)) (rename f t) =
    (instantiate apply params args t).map (rename f)
  | ref q s as => by
    rw [rename_ref, instantiate, instantiate, instantiateList_rename as]
    cases instantiateList apply params args as with
    | none => rfl
    | some bs =>
      rw [idxOf?_map hf]
      cases params.idxOf? s with
      | some i =>
        cases hc : args[i]? with
        | none => simp [hc]
        | some c =>
          cases bs with
          | nil => simp [hc]
          | cons b bs => simpa [hc] using ha c (b :: bs)
      | none =>
        simp [instantiateQualifier_rename q]
        cases instantiateQualifier apply params args q <;> simp
  | single q _ => by
    rw [rename_single, instantiate, instantiate, instantiateQualifier_rename q]
    cases instantiateQualifier apply params args q <;> simp
  | self _ => rfl
  | constant _ => rfl
  | refined ps ms => by
    rw [rename_refined, instantiate, instantiate, instantiateList_rename ps,
      instantiateMembers_rename ms]
    cases instantiateList apply params args ps <;>
      cases instantiateMembers apply params args ms <;> simp
  | poly _ r => by
    rw [rename_poly, instantiate, instantiate, instantiate_rename r]
    cases instantiate apply params args r <;> simp
  | bounds l u => by
    rw [rename_bounds, instantiate, instantiate, instantiate_rename l, instantiate_rename u]
    cases instantiate apply params args l <;> cases instantiate apply params args u <;> simp

theorem instantiateQualifier_rename : ∀ q : Option Ty,
    instantiateQualifier apply' (params.map f) (args.map (rename f)) (q.map (rename f)) =
      (instantiateQualifier apply params args q).map (Option.map (rename f))
  | none => rfl
  | some q => by
    rw [Option.map_some, instantiateQualifier, instantiateQualifier, instantiate_rename q]
    cases instantiate apply params args q <;> simp

theorem instantiateList_rename : ∀ ts,
    instantiateList apply' (params.map f) (args.map (rename f)) (ts.map (rename f)) =
      (instantiateList apply params args ts).map (List.map (rename f))
  | [] => rfl
  | t :: ts => by
    rw [List.map_cons, instantiateList, instantiateList, instantiate_rename t,
      instantiateList_rename ts]
    cases instantiate apply params args t <;> cases instantiateList apply params args ts <;> simp

theorem instantiateLists_rename : ∀ tss,
    instantiateLists apply' (params.map f) (args.map (rename f)) (tss.map (·.map (rename f))) =
      (instantiateLists apply params args tss).map (List.map (List.map (rename f)))
  | [] => rfl
  | ts :: tss => by
    rw [List.map_cons, instantiateLists, instantiateLists, instantiateList_rename ts,
      instantiateLists_rename tss]
    cases instantiateList apply params args ts <;>
      cases instantiateLists apply params args tss <;> simp

theorem instantiateMember_rename : ∀ m : Member Ty,
    instantiateMember apply' (params.map f) (args.map (rename f)) (m.map (rename f)) =
      (instantiateMember apply params args m).map (Member.map (rename f))
  | .method _ pss r => by
    rw [Member.map, instantiateMember, instantiateMember, instantiateLists_rename pss,
      instantiate_rename r]
    cases instantiateLists apply params args pss <;>
      cases instantiate apply params args r <;> simp [Member.map]
  | .type _ t => by
    rw [Member.map, instantiateMember, instantiateMember, instantiate_rename t]
    cases instantiate apply params args t <;> simp [Member.map]

theorem instantiateMembers_rename : ∀ ms : List (Member Ty),
    instantiateMembers apply' (params.map f) (args.map (rename f)) (ms.map (Member.map (rename f))) =
      (instantiateMembers apply params args ms).map (List.map (Member.map (rename f)))
  | [] => rfl
  | m :: ms => by
    rw [List.map_cons, instantiateMembers, instantiateMembers, instantiateMember_rename m,
      instantiateMembers_rename ms]
    cases instantiateMember apply params args m <;>
      cases instantiateMembers apply params args ms <;> simp

end

omit ha

theorem applyConstructor_rename {beta beta' : List SymbolId → List Ty → Ty → Option Ty}
    (hb : ∀ ps as t, beta' (ps.map f) (as.map (rename f)) (t.rename f) =
      (beta ps as t).map (rename f)) (c : Ty) (args : List Ty) :
    applyConstructor beta' (c.rename f) (args.map (rename f)) =
      (applyConstructor beta c args).map (rename f) := by
  cases c with
  | ref q s as => cases as <;> simp [applyConstructor]
  | poly ps r => simpa [applyConstructor] using hb ps args r
  | _ => simp [applyConstructor]

theorem substitute_rename (n : Nat) (params : List SymbolId) (args : List Ty) (t : Ty) :
    substitute n (params.map f) (args.map (rename f)) (t.rename f) =
      (substitute n params args t).map (rename f) := by
  induction n generalizing params args t with
  | zero =>
    unfold substitute
    simp only [List.isEmpty_map]
    split
    · rfl
    · exact instantiate_rename hf (applyConstructor_rename hf fun _ _ _ ↦ rfl) params args t
  | succ n ih =>
    unfold substitute
    simp only [List.isEmpty_map]
    split
    · rfl
    · exact instantiate_rename hf (applyConstructor_rename hf ih) params args t

end Substitution

end Ty

namespace Measured

def rename (f : SymbolId → SymbolId) (m : Measured) : Measured :=
  ⟨m.size, m.type.rename f⟩

variable {f : SymbolId → SymbolId}

theorem rename_injective (hf : Function.Injective f) : Function.Injective (rename f) := by
  rintro ⟨n, t⟩ ⟨m, v⟩ h
  obtain ⟨hn, ht⟩ := mk.inj h
  exact congrArg₂ mk hn (Ty.rename_injective hf ht)

@[simp]
theorem measured_rename (t : Ty) : (t.rename f).measured = t.measured.rename f := by
  simp [Ty.measured, rename]

theorem contains_rename (hf : Function.Injective f) (seen : List Measured) (m : Measured) :
    (seen.map (rename f)).contains (m.rename f) = seen.contains m := by
  simp [(rename_injective hf).eq_iff]

end Measured

end TypeTag
