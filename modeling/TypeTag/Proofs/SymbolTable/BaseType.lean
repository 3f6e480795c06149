import Mathlib.Logic.Relation
import TypeTag.Proofs.SymbolTable.BaseClasses
import TypeTag.Proofs.SymbolTable.Constructible
import TypeTag.Proofs.SymbolTable.Search
import TypeTag.Proofs.Ty.Rules
import TypeTag.SymbolTable.Standard

namespace TypeTag.SymbolTable

section Agreement

variable (u : SymbolTable)

def Above (h h' : Head) : Prop :=
  ∃ s t, u.anchor? h = some s ∧ u.Leads s t ∧ u.Shows t h'

def Meets (t : Ty) (h : Head) : Prop :=
  ∃ h₀, u.Shows t h₀ ∧ Relation.ReflTransGen u.Above h₀ h

/-- Whatever arguments a class is given, its parents show the heads that they are declared with; so
it does not inherit through its parameters. -/
def Stable (s : SymbolId) : Prop :=
  ∀ p ∈ (u.entry s).parents, ∀ args : List Ty, args.length = (u.entry s).typeParams.length →
    ∀ n p', p.substitute n (u.entry s).typeParams args = some p' →
      ∀ h, u.Shows p' h ↔ u.Shows p h

structure RefAgrees (s : SymbolId) : Prop where
  leads : u.kind s = .object ∨ u.kind s = .typeAlias → ∀ t, ¬u.Leads s t
  stable : u.kind s = .cls ∨ u.kind s = .refinement → u.Stable s

/-- A head from which the classes and the form of a class are found in the same way. The type of a
symbol seen from within is a reference to it, or else shows what the symbol leads to. -/
def Agrees : Head → Prop
  | .ref s => u.RefAgrees s
  | .single s => u.kind s = .object
  | .self s =>
    (u.RefAgrees s ∧ ∀ h, u.Shows (u.symbolType s) h ↔ h = .ref s) ∨
      ∀ h, u.Shows (u.symbolType s) h ↔ ∃ t, u.Leads s t ∧ u.Shows t h

def AgreesUp (h : Head) : Prop :=
  ∀ h', Relation.ReflTransGen u.Above h h' → u.Agrees h'

variable {u}

theorem AgreesUp.agrees {h : Head} (hh : u.AgreesUp h) : u.Agrees h :=
  hh h .refl

theorem AgreesUp.above {h h' : Head} (hh : u.AgreesUp h) (ha : u.Above h h') : u.AgreesUp h' :=
  fun i hi ↦ hh i (.head ha hi)

theorem AgreesUp.ref {s : SymbolId} (hh : u.AgreesUp (.self s)) (hs : u.RefAgrees s) :
    u.AgreesUp (.ref s) := by
  intro h' hr
  rcases hr.cases_head with rfl | ⟨i, ha, hi⟩
  · exact hs
  · exact hh h' (.head ha hi)

end Agreement

variable {u : SymbolTable} {c : SymbolId}

theorem AgreesUp.leads {h : Head} (hh : u.AgreesUp h) {s : SymbolId} (ha : u.anchor? h = some s)
    {p : Ty} (hp : u.Leads s p) (i : Head) (hi : u.Shows p i) : u.AgreesUp i :=
  hh.above ⟨s, p, ha, hp, hi⟩

theorem leads_iff_of_isClass {s : SymbolId} (hs : u.IsClass s) {t : Ty} :
    u.Leads s t ↔ t ∈ (u.entry s).parents := by
  unfold Leads
  rcases hs with hk | hk | hk <;> rw [hk]

def Sound (u : SymbolTable) (c : SymbolId) (find : List SymbolId → Ty → Option (Option Ty)) :
    Prop :=
  ∀ {visiting t b}, find visiting t = some (some b) → (∀ h, u.Shows t h → u.AgreesUp h) →
    ∃ h s k, u.Shows t h ∧ u.anchor? h = some s ∧ u.Climbs c k s

/-- A search that misses nothing, but for the ways through the symbols that it is visiting. -/
def Complete (u : SymbolTable) (c : SymbolId) (find : List SymbolId → Ty → Option (Option Ty)) :
    Prop :=
  ∀ {visiting t h s k}, find visiting t = some none → (∀ h, u.Shows t h → u.AgreesUp h) →
    u.Shows t h → u.anchor? h = some s → u.Climbs c k s → ¬u.Fails c k visiting

section Above

variable {find : List SymbolId → Ty → Option (Option Ty)} {visiting : List SymbolId}
  {s : SymbolId} {n k : Nat} {args : List Ty} {b : Ty}

section Parents

variable {specialise : Ty → Option Ty} (hs : u.IsClass s)
  (hspec : ∀ p ∈ (u.entry s).parents, ∀ p', specialise p = some p' →
    ∀ h, u.Shows p' h ↔ u.Shows p h)
  (hup : ∀ p ∈ (u.entry s).parents, ∀ h, u.Shows p h → u.AgreesUp h)

include hs hspec hup

theorem findInParents_complete (hfind : Complete u c find) (hne : s ≠ c)
    (h : u.findInParents find visiting s specialise = some none) (hk : u.Climbs c k s) :
    ¬u.Fails c k visiting := by
  intro hv
  obtain ⟨hmem, ⟨rfl, -⟩ | ⟨j, p, h', s', -, hp, hh, ha, hs', hfails⟩⟩ := hk.shortest hv
  · exact hne rfl
  · unfold findInParents at h
    rw [if_neg (by simpa using hmem)] at h
    have hp := (leads_iff_of_isClass hs).1 hp
    obtain ⟨p', hp', h⟩ := Option.bind_eq_some_iff.1 (findSomeM?_eq_none h hp)
    have hsame := hspec p hp p' hp'
    exact hfind h (fun i hi ↦ hup p hp i ((hsame i).1 hi)) ((hsame h').2 hh) ha hs' hfails

end Parents

theorem RefAgrees.shows_specialise (hs : u.RefAgrees s)
    (hk : u.kind s = .cls ∨ u.kind s = .refinement) {p p' : Ty} (hp : p ∈ (u.entry s).parents)
    (h : u.specialise n s args p = some p') (i : Head) : u.Shows p' i ↔ u.Shows p i := by
  unfold specialise at h
  dsimp only at h
  split at h
  · next hlen => exact hs.stable hk p hp args hlen n p' h i
  · cases h
    rfl

section Ref

variable (hagree : u.AgreesUp (.ref s))

include hagree

theorem findAboveRef_complete (hfind : Complete u c find) (hne : s ≠ c)
    (h : u.findAboveRef find n visiting s args = some none) (hs : u.Climbs c k s) :
    ¬u.Fails c k visiting := by
  have href : u.RefAgrees s := hagree.agrees
  unfold findAboveRef at h
  cases hk : u.kind s with
  | cls | refinement =>
    rw [hk] at h
    have hclass : u.IsClass s := by simp [IsClass, hk]
    refine findInParents_complete hclass (fun p hp p' hp' ↦ ?_) (fun p hp ↦ ?_) hfind hne h hs
    · exact href.shows_specialise (by simp [hk]) hp hp'
    · exact hagree.leads rfl ((leads_iff_of_isClass hclass).2 hp)
  | typeParam | abstractType =>
    rw [hk] at h
    cases hs with
    | here => exact absurd rfl hne
    | @up _ _ _ p _ hleads hh ha hs' =>
      have hbound : p = (u.boundsOf s).2 := by simpa [Leads, hk] using hleads
      rw [← hbound] at h
      exact fun hv ↦ hfind h (hagree.leads rfl hleads) hh ha hs' (hv.mono (Nat.le_succ _))
  | object | typeAlias =>
    cases hs with
    | here => exact absurd rfl hne
    | up hleads => exact absurd hleads (href.leads (by simp [hk]) _)
  | package | term =>
    cases hs with
    | here => exact absurd rfl hne
    | up hleads => simp [Leads, hk] at hleads

end Ref

section Object

variable (hagree : u.AgreesUp (.single s)) (hk : u.kind s = .object)

include hagree hk

theorem findAboveSingle_complete (hfind : Complete u c find) (hne : s ≠ c)
    (h : u.findAboveSingle find visiting s = some none) (hs : u.Climbs c k s) :
    ¬u.Fails c k visiting := by
  have hclass : u.IsClass s := .inr (.inl hk)
  have hanchor : u.anchor? (.single s) = some s := if_pos hk
  unfold findAboveSingle at h
  rw [hk] at h
  refine findInParents_complete hclass (fun p hp p' hp' i ↦ ?_) (fun p hp ↦ ?_) hfind hne h hs
  · cases hp'
    rfl
  · exact hagree.leads hanchor ((leads_iff_of_isClass hclass).2 hp)

end Object

section Self

variable (hagree : u.AgreesUp (.self s))

include hagree

theorem AgreesUp.symbolType (i : Head) (hi : u.Shows (u.symbolType s) i) : u.AgreesUp i := by
  rcases hagree.agrees with ⟨href, hown⟩ | hown
  · rw [(hown i).1 hi]
    exact hagree.ref href
  · obtain ⟨p, hp, hi⟩ := (hown i).1 hi
    exact hagree.leads rfl hp i hi

theorem climbs_symbolType {h : Head} {s' : SymbolId} (hh : u.Shows (u.symbolType s) h)
    (ha : u.anchor? h = some s') (hk : u.Climbs c k s') : ∃ k, u.Climbs c k s := by
  rcases hagree.agrees with ⟨-, hown⟩ | hown
  · rw [(hown h).1 hh] at ha
    cases ha
    exact ⟨k, hk⟩
  · obtain ⟨p, hp, hh⟩ := (hown h).1 hh
    exact ⟨k + 1, .up hp hh ha hk⟩

theorem symbolType_climbs (hne : s ≠ c) (hk : u.Climbs c k s) :
    ∃ h s' j, j ≤ k ∧ u.Shows (u.symbolType s) h ∧ u.anchor? h = some s' ∧ u.Climbs c j s' := by
  rcases hagree.agrees with ⟨-, hown⟩ | hown
  · exact ⟨.ref s, s, k, Nat.le_refl k, (hown _).2 rfl, rfl, hk⟩
  · cases hk with
    | here => exact absurd rfl hne
    | @up j _ s' p h hp hh ha hs' =>
      exact ⟨h, s', j, Nat.le_succ j, (hown h).2 ⟨p, hp, hh⟩, ha, hs'⟩

end Self

end Above

section FindBase

variable {n : Nat}

theorem FoundAt.climbs (hc : u.IsClass c) {t d b : Ty} (hd : u.dealias n t = some d)
    (hup : ∀ h, u.Shows t h → u.AgreesUp h) (h : u.FoundAt c d b) :
    ∃ h s k, u.Shows t h ∧ u.anchor? h = some s ∧ u.Climbs c k s := by
  obtain ⟨q, as, rfl, -⟩ | ⟨q, rfl, -⟩ | ⟨rfl, -⟩ := h
  · exact ⟨.ref c, c, 0, .ref hd, rfl, .here hc⟩
  · have hterm : u.kind c ≠ .term := by rcases hc with hk | hk | hk <;> simp [hk]
    have hhead : u.Shows t (.single c) := .single hd hterm
    have hobj : u.kind c = .object := (hup _ hhead).agrees
    exact ⟨.single c, c, 0, hhead, if_pos hobj, .here hc⟩
  · exact ⟨.self c, c, 0, .self hd, rfl, .here hc⟩

theorem LooksInto.climbs {t d t' : Ty} (hd : u.dealias n t = some d)
    (hup : ∀ h, u.Shows t h → u.AgreesUp h) (hinto : u.LooksInto n d t') :
    (∀ h, u.Shows t' h → u.AgreesUp h) ∧ ∀ h s k, u.Shows t' h → u.anchor? h = some s →
      u.Climbs c k s → ∃ h s k, u.Shows t h ∧ u.anchor? h = some s ∧ u.Climbs c k s := by
  cases hinto with
  | @bound q s as hk =>
    have hhead : u.Shows t (.ref s) := .ref hd
    have hleads : u.Leads s (u.boundsOf s).2 := by rcases hk with hk | hk <;> simp [Leads, hk]
    exact ⟨(hup _ hhead).leads rfl hleads, fun h s' k hh ha hs' ↦
      ⟨.ref s, s, k + 1, hhead, rfl, .up hleads hh ha hs'⟩⟩
  | @specialised q s as p p' hk hp hp' =>
    have hhead : u.Shows t (.ref s) := .ref hd
    have hagree := hup _ hhead
    have href : u.RefAgrees s := hagree.agrees
    have hsame := href.shows_specialise hk hp hp'
    have hleads : u.Leads s p := (leads_iff_of_isClass (hk.imp_right .inr)).2 hp
    exact ⟨fun i hi ↦ hagree.leads rfl hleads i ((hsame i).1 hi), fun h s' k hh ha hs' ↦
      ⟨.ref s, s, k + 1, hhead, rfl, .up hleads ((hsame h).1 hh) ha hs'⟩⟩
  | declared hk hsingle =>
    exact ⟨fun i hi ↦ hup i (.term hd hk hsingle hi), fun h s' k hh ha hs' ↦
      ⟨h, s', k, .term hd hk hsingle hh, ha, hs'⟩⟩
  | @parent q s _ hk hp =>
    have hhead : u.Shows t (.single s) := .single hd hk
    have hobj : u.kind s = .object := (hup _ hhead).agrees
    have hanchor : u.anchor? (.single s) = some s := if_pos hobj
    have hleads : u.Leads s t' := (leads_iff_of_isClass (.inr (.inl hobj))).2 hp
    exact ⟨(hup _ hhead).leads hanchor hleads, fun h s' k hh ha hs' ↦
      ⟨.single s, s, k + 1, hhead, hanchor, .up hleads hh ha hs'⟩⟩
  | own s =>
    have hhead : u.Shows t (.self s) := .self hd
    refine ⟨(hup _ hhead).symbolType, fun h s' k hh ha hs' ↦ ?_⟩
    obtain ⟨j, hj⟩ := climbs_symbolType (hup _ hhead) hh ha hs'
    exact ⟨.self s, s, j, hhead, rfl, hj⟩
  | part hp =>
    exact ⟨fun i hi ↦ hup i (.refined hd hp hi), fun h s' k hh ha hs' ↦
      ⟨h, s', k, .refined hd hp hh, ha, hs'⟩⟩
  | result ps r =>
    exact ⟨fun i hi ↦ hup i (.poly hd hi), fun h s' k hh ha hs' ↦
      ⟨h, s', k, .poly hd hh, ha, hs'⟩⟩

theorem findBase_sound (hc : u.IsClass c) : Sound u c (u.findBase c n) := by
  induction n with
  | zero => exact fun h ↦ nomatch h
  | succ n ih =>
    intro visiting t b h hup
    obtain ⟨m, d, hm, hd, hfound | ⟨visiting', t', hinto, h⟩⟩ := findBase_cases h
    · exact hfound.climbs hc hd hup
    · cases hm
      obtain ⟨hup', hback⟩ := hinto.climbs hd hup
      obtain ⟨h', s', k, hh, ha, hk⟩ := ih h hup'
      exact hback h' s' k hh ha hk

theorem findBase_complete : Complete u c (u.findBase c n) := by
  induction n with
  | zero => exact fun h ↦ nomatch h
  | succ n ih =>
    intro visiting t hd s k h hup hh ha hk hv
    obtain ⟨d, hd, h⟩ := Option.bind_eq_some_iff.1 h
    cases d with
    | ref q s args =>
      have hagree := hup _ hh
      cases (shows_ref_iff hd).1 hh
      cases ha
      dsimp only at h
      split at h
      · cases h
      · next hne => exact findAboveRef_complete hagree ih hne h hk hv
    | self s =>
      have hagree := hup _ hh
      cases (shows_self_iff hd).1 hh
      cases ha
      dsimp only at h
      split at h
      · cases h
      · next hne =>
        -- This step does not mark `s` as visited, so the way must not get longer by it.
        obtain ⟨h', s', j, hj, hh, ha, hk⟩ := symbolType_climbs hagree hne hk
        exact ih h hagree.symbolType hh ha hk (hv.mono hj)
    | single q s =>
      have hagree := hup _ hh
      dsimp only at h
      split at h
      · cases h
      · next hne =>
        rcases (shows_single_iff hd).1 hh with ⟨hterm, rfl⟩ | ⟨hterm, hsingle, hshows⟩
        · have hobj : u.kind s = .object := hagree.agrees
          have hanchor : u.anchor? (.single s) = some s := if_pos hobj
          cases hanchor.symm.trans ha
          exact findAboveSingle_complete hagree hobj ih hne h hk hv
        · rw [findAboveSingle, if_pos hterm] at h
          dsimp only at h
          rw [hsingle, if_neg Bool.false_ne_true] at h
          exact ih h (fun i hi ↦ hup i (.term hd hterm hsingle hi)) hshows ha hk hv
    | constant v => exact not_shows_constant hd hh
    | bounds l r => exact not_shows_bounds hd hh
    | refined ps ms =>
      obtain ⟨p, hp, hh⟩ := (shows_refined_iff hd).1 hh
      exact ih (findSomeM?_eq_none h hp) (fun i hi ↦ hup i (.refined hd hp hi)) hh ha hk hv
    | poly ps r =>
      exact ih h (fun i hi ↦ hup i (.poly hd hi)) ((shows_poly_iff hd).1 hh) ha hk hv

end FindBase

section ClassParents

/-- A parent of `s` that is a reference to a class, and not through a parameter of `s`. -/
def IsClassParent (u : SymbolTable) (s : SymbolId) : Ty → Prop
  | .ref _ s' _ => u.kind s' = .cls ∧ s' ∉ (u.entry s).typeParams
  | _ => False

instance (u : SymbolTable) (s : SymbolId) : DecidablePred (u.IsClassParent s)
  | .ref .. => inferInstanceAs (Decidable (_ ∧ _))
  | .single .. | .self _ | .constant _ | .refined .. | .poly .. | .bounds .. =>
    inferInstanceAs (Decidable False)

theorem IsClassParent.exists_ref {s : SymbolId} {p : Ty} (h : u.IsClassParent s p) :
    ∃ q s' as, p = .ref q s' as ∧ u.kind s' = .cls ∧ s' ∉ (u.entry s).typeParams := by
  cases p with
  | ref q s' as => exact ⟨q, s', as, rfl, h⟩
  | _ => cases h

theorem substitute_ref {q : Option Ty} {s : SymbolId} {as args : List Ty} {params : List SymbolId}
    (hs : s ∉ params) {n : Nat} {t : Ty} (h : (Ty.ref q s as).substitute n params args = some t) :
    ∃ q' as', t = .ref q' s as' := by
  have hhead (q' : Option Ty) (s' : SymbolId) (as' : List Ty) (heq : Ty.ref q s as = .ref q' s' as') :
      s' ∉ params :=
    (Ty.ref.inj heq).2.1 ▸ hs
  rcases Ty.substitute_cases h with ⟨-, rfl⟩ | ⟨beta, -, h⟩
  · exact ⟨q, as, rfl⟩
  · obtain ⟨g, rfl, -⟩ := (Ty.instantiate_eq_some_iff hhead).1 h
    exact ⟨q.map g, as.map g, rfl⟩

theorem stable_of_class_parents {s : SymbolId}
    (h : ∀ p ∈ (u.entry s).parents, u.IsClassParent s p) : u.Stable s := by
  intro p hp args _ n p' hp' i
  obtain ⟨q, s', as, rfl, hk, hs'⟩ := (h p hp).exists_ref
  obtain ⟨q', as', rfl⟩ := substitute_ref hs' hp'
  have hne : u.kind s' ≠ .typeAlias := by simp [hk]
  rw [shows_ref_iff (dealias_of_kind_ne hne 0), shows_ref_iff (dealias_of_kind_ne hne 0)]

theorem agrees_of_class_parents
    (h : ∀ s, u.kind s = .cls → ∀ p ∈ (u.entry s).parents, u.IsClassParent s p)
    {q : Option Ty} {s : SymbolId} {as : List Ty} (hs : u.kind s = .cls) {i : Head}
    (hi : u.Meets (.ref q s as) i) : u.Agrees i := by
  obtain ⟨i₀, hi₀, hi⟩ := hi
  have hclass : ∃ s, i = .ref s ∧ u.kind s = .cls := by
    induction hi with
    | refl => exact ⟨s, (shows_class_iff hs).1 hi₀, hs⟩
    | tail _ habove ih =>
      obtain ⟨s, rfl, hs⟩ := ih
      obtain ⟨_, p, ha, hp, hi⟩ := habove
      cases ha
      have hparent := h s hs p ((leads_iff_of_isClass (.inl hs)).1 hp)
      obtain ⟨q, s', as, rfl, hs', -⟩ := hparent.exists_ref
      exact ⟨s', (shows_class_iff hs').1 hi, hs'⟩
  obtain ⟨s, rfl, hs⟩ := hclass
  exact ⟨by simp [hs], fun _ ↦ stable_of_class_parents (h s hs)⟩

end ClassParents

/-- Where all heads on the ways up from a type agree, the type inherits from a class in some form
just if the class is among its classes. -/
theorem mem_baseClasses_iff_baseType {n m : Nat} {t : Ty} {bases : List SymbolId} {b : Option Ty}
    (hc : u.IsClass c) (huniversal : u.isUniversal c = false)
    (hagree : ∀ h, u.Meets t h → u.Agrees h) (hbases : u.baseClasses n t = some bases)
    (hb : u.baseType m t c = some b) : c ∈ bases ↔ b.isSome := by
  have hup (h : Head) (hh : u.Shows t h) : u.AgreesUp h := fun h' hr ↦ hagree h' ⟨h, hh, hr⟩
  obtain ⟨found, hfound, hb⟩ := Option.bind_eq_some_iff.1 hb
  rw [mem_baseClasses_iff huniversal hbases]
  cases found with
  | some form =>
    cases hb
    exact ⟨fun _ ↦ rfl, fun _ ↦ findBase_sound hc hfound hup⟩
  | none =>
    rw [huniversal] at hb
    cases hb
    refine ⟨fun ⟨h, s, k, hh, ha, hk⟩ ↦ ?_, fun h ↦ (nomatch h)⟩
    exact absurd (fails_nil k) (findBase_complete hfound hup hh ha hk)

theorem list_baseClasses :
    let s := standard
    let t := s.table.applied s.list [s.table.typeRef s.int]
    ∃ bases b, s.table.baseClasses 10 t = some bases ∧ s.table.baseType 10 t s.iterable = some b ∧
      (s.iterable ∈ bases ↔ b.isSome) := by
  intro s t
  obtain ⟨hall, hlist, hiterable, huniversal, hbases, hb⟩ :
      (∀ c : Nat, c < s.table.size → s.table.kind c = .cls →
        ∀ p ∈ (s.table.entry c).parents, s.table.IsClassParent c p) ∧
      s.table.kind s.list = .cls ∧ s.table.IsClass s.iterable ∧
      s.table.isUniversal s.iterable = false ∧ (s.table.baseClasses 10 t).isSome ∧
      (s.table.baseType 10 t s.iterable).isSome := by decide +kernel
  have hparents (c : Nat) (hc : s.table.kind c = .cls) :
      ∀ p ∈ (s.table.entry c).parents, s.table.IsClassParent c p := by
    refine hall c (Nat.lt_of_not_le fun hle ↦ ?_) hc
    rw [kind, entry_of_size_le _ hle] at hc
    cases hc
  obtain ⟨bases, hbases⟩ := Option.isSome_iff_exists.1 hbases
  obtain ⟨b, hb⟩ := Option.isSome_iff_exists.1 hb
  refine ⟨bases, b, hbases, hb, ?_⟩
  exact mem_baseClasses_iff_baseType hiterable huniversal
    (fun h ↦ agrees_of_class_parents hparents hlist) hbases hb

/-- The class `A`; the object `O` and the alias `L[X]`, both an `A`; the class `B[T]`, a `T`; and
the class behind a refinement that is said to be an `A`. -/
def oddTypes : SymbolTable :=
  let (a, u) := initial.cls 1 "A"
  let (o, u) := u.object 1 "O"
  let u := u.setParents o [u.typeRef a]
  let (l, u) := u.typeAlias 1 "L"
  let (_, u) := u.typeParam l "X" .invariant
  let u := u.setBody l (u.typeRef a)
  let (b, u) := u.cls 1 "B"
  let (t, u) := u.typeParam b "T" .invariant
  let u := u.setParents b [u.typeRef t]
  (u.refinement 1 (u.typeRef a)).2

/-- The queries differ for a parameter itself, for an object referred to or seen from within, for an
alias without arguments, for the singleton type of a class, for a class behind a refinement that has
not its parents, and for a class that inherits through its parameter. -/
theorem oddTypes_disagree :
    let u := oddTypes
    ∀ e ∈ [(u.typeRef 10, 10), (u.typeRef 6, 5), (.self 6, 5), (u.typeRef 7, 5), (u.single 5, 5),
        (.self 11, 5), (u.applied 9 [u.typeRef 5], 5)],
      u.isUniversal e.2 = false ∧ ∃ bases b, u.baseClasses 10 e.1 = some bases ∧
        u.baseType 10 e.1 e.2 = some b ∧ ¬(e.2 ∈ bases ↔ b.isSome) := by
  intro u e he
  have hall : ∀ e ∈ [(u.typeRef 10, 10), (u.typeRef 6, 5), (.self 6, 5), (u.typeRef 7, 5),
      (u.single 5, 5), (.self 11, 5), (u.applied 9 [u.typeRef 5], 5)],
      u.isUniversal e.2 = false ∧
        ((u.baseClasses 10 e.1).bind fun bases ↦ (u.baseType 10 e.1 e.2).map fun b ↦
          decide ¬(e.2 ∈ bases ↔ b.isSome)) = some true := by
    decide
  obtain ⟨huniversal, h⟩ := hall e he
  obtain ⟨bases, hbases, h⟩ := Option.bind_eq_some_iff.1 h
  obtain ⟨b, hb, h⟩ := Option.map_eq_some_iff.1 h
  exact ⟨huniversal, bases, b, hbases, hb, of_decide_eq_true h⟩

end TypeTag.SymbolTable
