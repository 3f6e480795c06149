import TypeTag.Ty.Basic

namespace TypeTag

namespace Member

variable {α β : Type}

def map (f : α → β) : Member α → Member β
  | method n pss r => method n (pss.map (·.map f)) (f r)
  | type n t => type n (f t)

def types : Member α → List α
  | method _ pss r => r :: pss.flatten
  | type _ t => [t]

theorem map_id (m : Member α) : m.map id = m := by
  cases m <;> simp [map]

theorem map_map {γ : Type} (f : α → β) (g : β → γ) (m : Member α) :
    (m.map f).map g = m.map (g ∘ f) := by
  cases m <;> simp [map]

theorem types_map (f : α → β) (m : Member α) : (m.map f).types = m.types.map f := by
  cases m <;> simp [map, types, List.map_flatten]

theorem map_congr {f g : α → β} {m : Member α} (h : ∀ t ∈ m.types, f t = g t) :
    m.map f = m.map g := by
  cases m with
  | method n pss r =>
    have hr : f r = g r := h r (by simp [types])
    have hp : pss.map (·.map f) = pss.map (·.map g) :=
      List.map_congr_left fun ps hps ↦ List.map_congr_left fun p hp ↦
        h p (by simp only [types, List.mem_cons, List.mem_flatten]; exact .inr ⟨ps, hps, hp⟩)
    rw [map, map, hr, hp]
  | type n t => rw [map, map, h t (by simp [types])]

theorem sizeOf_lt_of_mem_types [SizeOf α] {t : α} {m : Member α} (h : t ∈ m.types) :
    sizeOf t < sizeOf m := by
  cases m with
  | method n pss r =>
    simp only [method.sizeOf_spec]
    rcases List.mem_cons.1 h with rfl | h
    · omega
    · obtain ⟨ps, hps, ht⟩ := List.mem_flatten.1 h
      have hlists := List.sizeOf_lt_of_mem hps
      have hlist := List.sizeOf_lt_of_mem ht
      omega
  | type n t =>
    obtain rfl := List.mem_singleton.1 h
    simp only [type.sizeOf_spec]
    omega

end Member

namespace Ty

@[elab_as_elim, induction_eliminator]
theorem structural {P : Ty → Prop}
    (ref : ∀ q s as, (∀ t ∈ q, P t) → (∀ t ∈ as, P t) → P (ref q s as))
    (single : ∀ q s, (∀ t ∈ q, P t) → P (single q s))
    (self : ∀ s, P (self s))
    (constant : ∀ v, P (constant v))
    (refined : ∀ ps ms, (∀ t ∈ ps, P t) → (∀ m ∈ ms, ∀ t ∈ m.types, P t) → P (refined ps ms))
    (poly : ∀ ps r, P r → P (poly ps r))
    (bounds : ∀ l u, P l → P u → P (bounds l u)) (t : Ty) : P t := by
  refine Ty.rec (motive_1 := P) (motive_2 := fun q ↦ ∀ t ∈ q, P t) (motive_3 := fun ts ↦ ∀ t ∈ ts, P t)
    (motive_4 := fun ms ↦ ∀ m ∈ ms, ∀ t ∈ m.types, P t) (motive_5 := fun m ↦ ∀ t ∈ m.types, P t)
    (motive_6 := fun tss ↦ ∀ ts ∈ tss, ∀ t ∈ ts, P t)
    ref single self constant refined poly bounds ?_ ?_ ?_ ?_ ?_ ?_ ?_ ?_ ?_ ?_ t
  · simp
  · simp
  · simp
  · intro t ts ht hts
    simpa using ⟨ht, hts⟩
  · simp
  · intro m ms hm hms
    simpa using ⟨hm, hms⟩
  · intro n pss r hps hr
    simpa [Member.types] using ⟨hr, fun t ts hts ht ↦ hps ts hts t ht⟩
  · intro n t ht
    simpa [Member.types] using ht
  · simp
  · intro ts tss hts htss
    simpa using ⟨hts, htss⟩

/-- The types directly inside a type. -/
def children : Ty → List Ty
  | ref q _ as => q.toList ++ as
  | single q _ => q.toList
  | self _ | constant _ => []
  | refined ps ms => ps ++ ms.flatMap Member.types
  | poly _ r => [r]
  | bounds l u => [l, u]

section Children

/-- Induction with one hypothesis for all types directly inside a type. -/
@[elab_as_elim]
theorem inside {P : Ty → Prop} (node : ∀ t, (∀ c ∈ t.children, P c) → P t) (t : Ty) : P t := by
  have hqualifier {q : Option Ty} (ih : ∀ t ∈ q, P t) : ∀ c ∈ q.toList, P c :=
    fun c hc ↦ ih c (Option.mem_toList.1 hc)
  induction t with
  | ref q s as ihq ihas =>
    exact node _ fun c hc ↦ (List.mem_append.1 hc).elim (hqualifier ihq c) (ihas c)
  | single q s ihq => exact node _ (hqualifier ihq)
  | self s => exact node _ fun c hc ↦ nomatch hc
  | constant v => exact node _ fun c hc ↦ nomatch hc
  | refined ps ms ihps ihms =>
    refine node _ fun c hc ↦ (List.mem_append.1 hc).elim (ihps c) fun hc ↦ ?_
    obtain ⟨m, hm, hc⟩ := List.mem_flatMap.1 hc
    exact ihms m hm c hc
  | poly ps r ih => exact node _ (List.forall_mem_singleton.2 ih)
  | bounds l u ihl ihu => exact node _ (by simp [children, ihl, ihu])

variable {t x : Ty}

theorem mem_children_of_args (h : x ∈ t.args) : x ∈ t.children := by
  cases t with
  | ref q s as => exact List.mem_append_right _ h
  | _ => cases h

theorem mem_children_of_qualifier? (h : t.qualifier? = some x) : x ∈ t.children := by
  cases t with
  | ref q s as => exact List.mem_append_left _ (Option.mem_toList.2 h)
  | single q s => exact Option.mem_toList.2 h
  | _ => cases h

theorem mem_children_of_parents (h : x ∈ t.parents) : x ∈ t.children := by
  cases t with
  | refined ps ms => exact List.mem_append_left _ h
  | _ => cases h

theorem mem_children_of_members {m : Member Ty} (hm : m ∈ t.members) (h : x ∈ m.types) :
    x ∈ t.children := by
  cases t with
  | refined ps ms => exact List.mem_append_right _ (List.mem_flatMap.2 ⟨m, hm, h⟩)
  | _ => cases hm

theorem sizeOf_lt_of_mem_children {c t : Ty} (h : c ∈ t.children) : sizeOf c < sizeOf t := by
  have hqualifier {q : Option Ty} (h : c ∈ q.toList) : sizeOf c < sizeOf q := by
    obtain rfl := Option.mem_toList.1 h
    simp only [Option.some.sizeOf_spec]
    omega
  cases t with
  | ref q s as =>
    simp only [ref.sizeOf_spec]
    rcases List.mem_append.1 h with h | h
    · have hlt := hqualifier h
      omega
    · have hlt := List.sizeOf_lt_of_mem h
      omega
  | single q s =>
    have hlt := hqualifier h
    simp only [single.sizeOf_spec]
    omega
  | self s => cases h
  | constant v => cases h
  | refined ps ms =>
    simp only [refined.sizeOf_spec]
    rcases List.mem_append.1 h with h | h
    · have hlt := List.sizeOf_lt_of_mem h
      omega
    · obtain ⟨m, hm, h⟩ := List.mem_flatMap.1 h
      have hlist := List.sizeOf_lt_of_mem hm
      have hlt := Member.sizeOf_lt_of_mem_types h
      omega
  | poly ps r =>
    obtain rfl := List.mem_singleton.1 h
    simp only [poly.sizeOf_spec]
    omega
  | bounds l u =>
    simp only [bounds.sizeOf_spec]
    rcases List.mem_cons.1 h with rfl | h
    · omega
    · obtain rfl := List.mem_singleton.1 h
      omega

end Children

section Symbols

mutual

def symbols : Ty → List SymbolId
  | ref q s as => s :: symbolsQualifier q ++ symbolsList as
  | single q s => s :: symbolsQualifier q
  | self s => [s]
  | constant _ => []
  | refined ps ms => symbolsList ps ++ symbolsMembers ms
  | poly ps r => ps ++ symbols r
  | bounds l u => symbols l ++ symbols u

def symbolsQualifier : Option Ty → List SymbolId
  | none => []
  | some q => symbols q

def symbolsList : List Ty → List SymbolId
  | [] => []
  | t :: ts => symbols t ++ symbolsList ts

def symbolsLists : List (List Ty) → List SymbolId
  | [] => []
  | ts :: tss => symbolsList ts ++ symbolsLists tss

def symbolsMember : Member Ty → List SymbolId
  | .method _ pss r => symbols r ++ symbolsLists pss
  | .type _ t => symbols t

def symbolsMembers : List (Member Ty) → List SymbolId
  | [] => []
  | m :: ms => symbolsMember m ++ symbolsMembers ms

end

theorem mem_symbolsQualifier {x : SymbolId} {q : Option Ty} :
    x ∈ symbolsQualifier q ↔ ∃ t ∈ q, x ∈ symbols t := by
  cases q <;> simp [symbolsQualifier]

theorem mem_symbolsList {x : SymbolId} {ts : List Ty} :
    x ∈ symbolsList ts ↔ ∃ t ∈ ts, x ∈ symbols t := by
  induction ts with
  | nil => simp [symbolsList]
  | cons t ts ih => simp [symbolsList, ih]

theorem mem_symbolsLists {x : SymbolId} {tss : List (List Ty)} :
    x ∈ symbolsLists tss ↔ ∃ ts ∈ tss, ∃ t ∈ ts, x ∈ symbols t := by
  induction tss with
  | nil => simp [symbolsLists]
  | cons ts tss ih => simp [symbolsLists, mem_symbolsList, ih]

theorem mem_symbolsMembers {x : SymbolId} {ms : List (Member Ty)} :
    x ∈ symbolsMembers ms ↔ ∃ m ∈ ms, ∃ t ∈ m.types, x ∈ symbols t := by
  induction ms with
  | nil => simp [symbolsMembers]
  | cons m ms ih =>
    have hm : x ∈ symbolsMember m ↔ ∃ t ∈ m.types, x ∈ symbols t := by
      cases m with
      | method n pss r => simp [symbolsMember, Member.types, mem_symbolsLists]; grind
      | type n t => simp [symbolsMember, Member.types]
    simp [symbolsMembers, hm, ih]

theorem mem_symbols_of_mem_children {p : SymbolId} {c t : Ty} (hc : c ∈ t.children)
    (hp : p ∈ c.symbols) :
    p ∈ t.symbols := by
  cases t with
  | ref q s as =>
    simp only [symbols, List.cons_append, List.mem_cons, List.mem_append, mem_symbolsQualifier,
      mem_symbolsList]
    exact .inr ((List.mem_append.1 hc).imp (fun hc ↦ ⟨c, Option.mem_toList.1 hc, hp⟩)
      fun hc ↦ ⟨c, hc, hp⟩)
  | single q s =>
    exact List.mem_cons_of_mem s (mem_symbolsQualifier.2 ⟨c, Option.mem_toList.1 hc, hp⟩)
  | self s => cases hc
  | constant v => cases hc
  | refined ps ms =>
    refine List.mem_append.2 ((List.mem_append.1 hc).imp
      (fun hc ↦ mem_symbolsList.2 ⟨c, hc, hp⟩) fun hc ↦ mem_symbolsMembers.2 ?_)
    obtain ⟨m, hm, hc⟩ := List.mem_flatMap.1 hc
    exact ⟨m, hm, c, hc, hp⟩
  | poly ps r => exact List.mem_append_right _ (List.mem_singleton.1 hc ▸ hp)
  | bounds l u =>
    rcases List.mem_cons.1 hc with rfl | hc
    · exact List.mem_append_left _ hp
    · exact List.mem_append_right _ (List.mem_singleton.1 hc ▸ hp)

end Symbols

end Ty

end TypeTag
