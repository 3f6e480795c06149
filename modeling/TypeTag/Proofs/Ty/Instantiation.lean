import TypeTag.Proofs.Steps.Loops
import TypeTag.Proofs.Ty.Structure
import TypeTag.Ty.Substitution

namespace TypeTag.Ty

section MapChildren

/-- Replaces the types directly inside a type. -/
def mapChildren (g : Ty → Ty) : Ty → Ty
  | ref q s as => ref (q.map g) s (as.map g)
  | single q s => single (q.map g) s
  | self s => self s
  | constant v => constant v
  | refined ps ms => refined (ps.map g) (ms.map (·.map g))
  | poly ps r => poly ps (g r)
  | bounds l u => bounds (g l) (g u)

theorem children_mapChildren (g : Ty → Ty) (t : Ty) :
    (t.mapChildren g).children = t.children.map g := by
  cases t with
  | ref q s as => cases q <;> simp [mapChildren, children]
  | single q s => cases q <;> simp [mapChildren, children]
  | refined ps ms => simp [mapChildren, children, List.flatMap_map, List.map_flatMap, Member.types_map]
  | _ => rfl

theorem mapChildren_id (t : Ty) : t.mapChildren id = t := by
  have hmembers (ms : List (Member Ty)) : ms.map (·.map id) = ms :=
    (List.map_congr_left fun m _ ↦ m.map_id).trans (List.map_id ms)
  cases t <;> simp [mapChildren, hmembers]

end MapChildren

section Instantiate

variable {apply : Ty → List Ty → Option Ty} {params : List SymbolId} {args : List Ty} {t t' : Ty}

theorem instantiateList_eq_mapM (ts : List Ty) :
    instantiateList apply params args ts = ts.mapM (instantiate apply params args) := by
  induction ts with
  | nil => rfl
  | cons t ts ih =>
    rw [instantiateList, List.mapM_cons, ih]

theorem instantiateLists_eq_mapM (tss : List (List Ty)) :
    instantiateLists apply params args tss = tss.mapM (·.mapM (instantiate apply params args)) := by
  induction tss with
  | nil => rfl
  | cons ts tss ih => rw [instantiateLists, List.mapM_cons, ih, instantiateList_eq_mapM]

theorem instantiateMembers_eq_mapM (ms : List (Member Ty)) :
    instantiateMembers apply params args ms = ms.mapM (instantiateMember apply params args) := by
  induction ms with
  | nil => rfl
  | cons m ms ih => rw [instantiateMembers, List.mapM_cons, ih]

theorem mem_instantiateList {ts us : List Ty} (h : instantiateList apply params args ts = some us)
    {x : Ty} (hx : x ∈ us) : ∃ t ∈ ts, t.instantiate apply params args = some x :=
  mem_mapM (instantiateList_eq_mapM ts ▸ h) hx

theorem length_instantiateList {ts us : List Ty}
    (h : instantiateList apply params args ts = some us) : us.length = ts.length :=
  length_mapM (instantiateList_eq_mapM ts ▸ h)

theorem mem_instantiateLists {tss uss : List (List Ty)}
    (h : instantiateLists apply params args tss = some uss) {x : Ty} (hx : x ∈ uss.flatten) :
    ∃ t ∈ tss.flatten, t.instantiate apply params args = some x := by
  rw [instantiateLists_eq_mapM] at h
  obtain ⟨us, hus, hx⟩ := List.mem_flatten.1 hx
  obtain ⟨ts, hts, hus⟩ := mem_mapM h hus
  obtain ⟨t, ht, hx⟩ := mem_mapM hus hx
  exact ⟨t, List.mem_flatten.2 ⟨ts, hts, ht⟩, hx⟩

theorem mem_types_of_instantiateMember {m m' : Member Ty}
    (h : instantiateMember apply params args m = some m') {x : Ty} (hx : x ∈ m'.types) :
    ∃ t ∈ m.types, t.instantiate apply params args = some x := by
  cases m with
  | method n pss r =>
    obtain ⟨qss, hqss, h⟩ := Option.bind_eq_some_iff.1 h
    obtain ⟨r', hr', h⟩ := Option.bind_eq_some_iff.1 h
    cases h
    rcases List.mem_cons.1 hx with rfl | hx
    · exact ⟨r, List.mem_cons_self, hr'⟩
    · obtain ⟨t, ht, hx⟩ := mem_instantiateLists hqss hx
      exact ⟨t, List.mem_cons_of_mem r ht, hx⟩
  | type n t =>
    obtain ⟨t', ht', h⟩ := Option.bind_eq_some_iff.1 h
    cases h
    exact ⟨t, List.mem_singleton_self t, List.mem_singleton.1 hx ▸ ht'⟩

theorem mem_instantiateMembers {ms ns : List (Member Ty)}
    (h : instantiateMembers apply params args ms = some ns) {m' : Member Ty} (hm' : m' ∈ ns) :
    ∃ m ∈ ms, instantiateMember apply params args m = some m' :=
  mem_mapM (instantiateMembers_eq_mapM ms ▸ h) hm'

section Children

variable {g : Ty → Ty}

theorem instantiateQualifier_map {q : Option Ty}
    (h : ∀ c ∈ q, c.instantiate apply params args = some (g c)) :
    instantiateQualifier apply params args q = some (q.map g) := by
  cases q with
  | none => rfl
  | some q => rw [instantiateQualifier, h q rfl]; rfl

theorem instantiateList_map {ts : List Ty}
    (h : ∀ c ∈ ts, c.instantiate apply params args = some (g c)) :
    instantiateList apply params args ts = some (ts.map g) :=
  (instantiateList_eq_mapM ts).trans (mapM_eq_some_map h)

theorem instantiateMember_map {m : Member Ty}
    (h : ∀ c ∈ m.types, c.instantiate apply params args = some (g c)) :
    instantiateMember apply params args m = some (m.map g) := by
  cases m with
  | method n pss r =>
    have hpss : pss.mapM (·.mapM (instantiate apply params args)) = some (pss.map (·.map g)) :=
      mapM_eq_some_map fun ps hps ↦ mapM_eq_some_map fun p hp ↦
        h p (List.mem_cons_of_mem r (List.mem_flatten.2 ⟨ps, hps, hp⟩))
    rw [instantiateMember, instantiateLists_eq_mapM, hpss, h r List.mem_cons_self]
    rfl
  | type n t => rw [instantiateMember, h t List.mem_cons_self]; rfl

theorem instantiate_mapChildren (hhead : ∀ q s as, t = ref q s as → s ∉ params)
    (h : ∀ c ∈ t.children, c.instantiate apply params args = some (g c)) :
    t.instantiate apply params args = some (t.mapChildren g) := by
  cases t with
  | ref q s as =>
    have hs : params.idxOf? s = none := List.idxOf?_eq_none_iff.2 (hhead q s as rfl)
    have hq := instantiateQualifier_map fun c hc ↦
      h c (List.mem_append_left as (Option.mem_toList.2 hc))
    rw [instantiate, instantiateList_map fun c hc ↦ h c (List.mem_append_right _ hc), hs, hq]
    rfl
  | single q s =>
    rw [instantiate, instantiateQualifier_map fun c hc ↦ h c (Option.mem_toList.2 hc)]
    rfl
  | refined ps ms =>
    have hmembers := mapM_eq_some_map fun m hm ↦ instantiateMember_map fun c hc ↦
      h c (List.mem_append_right ps (List.mem_flatMap.2 ⟨m, hm, hc⟩))
    rw [instantiate, instantiateList_map fun c hc ↦ h c (List.mem_append_left _ hc),
      instantiateMembers_eq_mapM, hmembers]
    rfl
  | poly ps r => rw [instantiate, h r List.mem_cons_self]; rfl
  | bounds l u =>
    rw [instantiate, h l List.mem_cons_self, h u (List.mem_cons_of_mem l List.mem_cons_self)]
    rfl
  | _ => rfl

end Children

section Inside

variable {c : Ty}

theorem exists_instantiate_of_mem {ts us : List Ty}
    (h : ts.mapM (instantiate apply params args) = some us) (hc : c ∈ ts) :
    ∃ d, c.instantiate apply params args = some d := by
  obtain ⟨d, -, hd⟩ := mapM_mem h hc
  exact ⟨d, hd⟩

theorem exists_instantiate_of_mem_qualifier {q q' : Option Ty}
    (h : instantiateQualifier apply params args q = some q') (hc : c ∈ q.toList) :
    ∃ d, c.instantiate apply params args = some d := by
  obtain rfl := Option.mem_toList.1 hc
  obtain ⟨d, hd, -⟩ := Option.bind_eq_some_iff.1 h
  exact ⟨d, hd⟩

theorem exists_instantiate_of_mem_types {m m' : Member Ty}
    (h : instantiateMember apply params args m = some m') (hc : c ∈ m.types) :
    ∃ d, c.instantiate apply params args = some d := by
  cases m with
  | method n pss r =>
    rw [instantiateMember, instantiateLists_eq_mapM] at h
    obtain ⟨qss, hqss, h⟩ := Option.bind_eq_some_iff.1 h
    obtain ⟨r', hr', -⟩ := Option.bind_eq_some_iff.1 h
    rcases List.mem_cons.1 hc with rfl | hc
    · exact ⟨r', hr'⟩
    · obtain ⟨ps, hps, hc⟩ := List.mem_flatten.1 hc
      obtain ⟨qs, -, hqs⟩ := mapM_mem hqss hps
      exact exists_instantiate_of_mem hqs hc
  | type n t =>
    obtain ⟨t', ht', -⟩ := Option.bind_eq_some_iff.1 h
    exact ⟨t', List.mem_singleton.1 hc ▸ ht'⟩

theorem exists_instantiate_of_mem_children (hhead : ∀ q s as, t = ref q s as → s ∉ params)
    (h : t.instantiate apply params args = some t') (hc : c ∈ t.children) :
    ∃ d, c.instantiate apply params args = some d := by
  cases t with
  | ref q s as =>
    rw [instantiate, List.idxOf?_eq_none_iff.2 (hhead q s as rfl), instantiateList_eq_mapM] at h
    obtain ⟨bs, hbs, h⟩ := Option.bind_eq_some_iff.1 h
    obtain ⟨q', hq', -⟩ := Option.bind_eq_some_iff.1 h
    exact (List.mem_append.1 hc).elim (exists_instantiate_of_mem_qualifier hq')
      (exists_instantiate_of_mem hbs)
  | single q s =>
    obtain ⟨q', hq', -⟩ := Option.bind_eq_some_iff.1 h
    exact exists_instantiate_of_mem_qualifier hq' hc
  | self s => cases hc
  | constant v => cases hc
  | refined ps ms =>
    rw [instantiate, instantiateList_eq_mapM, instantiateMembers_eq_mapM] at h
    obtain ⟨ps', hps', h⟩ := Option.bind_eq_some_iff.1 h
    obtain ⟨ms', hms', -⟩ := Option.bind_eq_some_iff.1 h
    rcases List.mem_append.1 hc with hc | hc
    · exact exists_instantiate_of_mem hps' hc
    · obtain ⟨m, hm, hc⟩ := List.mem_flatMap.1 hc
      obtain ⟨m', -, hm'⟩ := mapM_mem hms' hm
      exact exists_instantiate_of_mem_types hm' hc
  | poly ps r =>
    obtain ⟨r', hr', -⟩ := Option.bind_eq_some_iff.1 h
    exact ⟨r', List.mem_singleton.1 hc ▸ hr'⟩
  | bounds l u =>
    obtain ⟨l', hl', h⟩ := Option.bind_eq_some_iff.1 h
    obtain ⟨u', hu', -⟩ := Option.bind_eq_some_iff.1 h
    rcases List.mem_cons.1 hc with rfl | hc
    · exact ⟨l', hl'⟩
    · exact ⟨u', List.mem_singleton.1 hc ▸ hu'⟩

end Inside

theorem instantiate_eq_some_iff (hhead : ∀ q s as, t = ref q s as → s ∉ params) :
    t.instantiate apply params args = some t' ↔ ∃ g, t.mapChildren g = t' ∧
      ∀ c ∈ t.children, c.instantiate apply params args = some (g c) := by
  constructor
  · intro h
    have hchildren : ∀ c ∈ t.children, c.instantiate apply params args =
        some ((c.instantiate apply params args).getD c) := by
      intro c hc
      obtain ⟨d, hd⟩ := exists_instantiate_of_mem_children hhead h hc
      rw [hd, Option.getD_some]
    exact ⟨_, Option.some.inj ((instantiate_mapChildren hhead hchildren).symm.trans h), hchildren⟩
  · rintro ⟨g, rfl, h⟩
    exact instantiate_mapChildren hhead h

/-- The node of a type with an instance stays, with the instances of what is inside, or is a reference
to a parameter. That becomes its argument, applied to the instances of what the parameter is applied
to, and stays as it is if the parameter has no argument. -/
theorem instantiate_cases (h : t.instantiate apply params args = some t') :
    ((∀ q s as, t = ref q s as → s ∉ params) ∧ ∃ g, t.mapChildren g = t' ∧
        ∀ c ∈ t.children, c.instantiate apply params args = some (g c)) ∨
      ∃ q s as i, t = ref q s as ∧ params.idxOf? s = some i ∧ (args[i]? = none ∧ t' = t ∨
        ∃ c bs, args[i]? = some c ∧ instantiateList apply params args as = some bs ∧
          (bs = [] ∧ t' = c ∨ bs ≠ [] ∧ apply c bs = some t')) := by
  by_cases hhead : ∃ q s as i, t = ref q s as ∧ params.idxOf? s = some i
  · obtain ⟨q, s, as, i, rfl, hi⟩ := hhead
    refine .inr ⟨q, s, as, i, rfl, hi, ?_⟩
    rw [instantiate, hi] at h
    obtain ⟨bs, hbs, h⟩ := Option.bind_eq_some_iff.1 h
    dsimp only at h
    split at h
    · next c hc =>
      refine .inr ⟨c, bs, hc, hbs, ?_⟩
      split at h
      · next hnil =>
        cases h
        exact .inl ⟨List.isEmpty_iff.1 hnil, rfl⟩
      · next hne => exact .inr ⟨fun hnil ↦ hne (List.isEmpty_iff.2 hnil), h⟩
    · next hnone =>
      cases h
      exact .inl ⟨hnone, rfl⟩
  · have hother (q : Option Ty) (s : SymbolId) (as : List Ty) (ht : t = ref q s as) :
        s ∉ params := by
      rw [← List.idxOf?_eq_none_iff, Option.eq_none_iff_forall_ne_some]
      exact fun i hi ↦ hhead ⟨q, s, as, i, ht, hi⟩
    exact .inl ⟨hother, (instantiate_eq_some_iff hother).1 h⟩

theorem applyConstructor_cases {beta : List SymbolId → List Ty → Ty → Option Ty} {c d : Ty}
    {as : List Ty} (h : applyConstructor beta c as = some d) :
    (∃ q s, c = ref q s [] ∧ d = ref q s as) ∨ (∃ ps r, c = poly ps r ∧ beta ps as r = some d) ∨
      d = c := by
  unfold applyConstructor at h
  split at h
  · next q s =>
    cases h
    exact .inl ⟨q, s, rfl, rfl⟩
  · next ps r => exact .inr (.inl ⟨ps, r, rfl, h⟩)
  · cases h
    exact .inr (.inr rfl)

theorem substitute_cases {n : Nat} {t t' : Ty} (h : t.substitute n params args = some t') :
    (params = [] ∨ args = []) ∧ t' = t ∨ ∃ beta,
      (∀ ps as r d, beta ps as r = some d → ∃ k < n, r.substitute k ps as = some d) ∧
        t.instantiate (Ty.applyConstructor beta) params args = some t' := by
  unfold Ty.substitute at h
  split at h
  · next hnil =>
    cases h
    exact .inl ⟨by simpa using hnil, rfl⟩
  · refine .inr ?_
    cases n with
    | zero => exact ⟨_, fun _ _ _ _ h ↦ (by cases h), h⟩
    | succ n => exact ⟨_, fun ps as r d h ↦ ⟨n, Nat.lt_succ_self n, h⟩, h⟩

end Instantiate

end TypeTag.Ty
