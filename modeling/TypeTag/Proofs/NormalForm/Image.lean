import TypeTag.Proofs.NormalForm.Basic
import TypeTag.Build.Reference

namespace TypeTag.SymbolTable

section Image

variable (u : SymbolTable) (ρ : Bindings)

def nameUnder (s : SymbolId) : SymName :=
  match ρ.lookup (u.fullName s) with
  | some p => .type p
  | none => u.symName s

mutual

/-- The descriptor that a normal form has where parameters are bound. -/
def imageUnder : Ty → Descriptor
  | .ref _ s es =>
    if es.isEmpty then .name { name := u.nameUnder ρ s }
    else .full (u.nameUnder ρ s) (imageArgs (u.entry s).typeParams 0 es) none
  | .single _ s => .name { name := u.symName s }
  | .constant v => .name { name := .literal v }
  | _ => default

def imageArgs (params : List SymbolId) (i : Nat) : List Ty → List (TypeArg Descriptor)
  | [] => []
  | e :: es => ⟨imageUnder e, u.argVariance params i⟩ :: imageArgs params (i + 1) es

end

def image : Ty → Descriptor :=
  u.imageUnder []

inductive Normal : Ty → Prop
  | applied {s : SymbolId} {es : List Ty} (hs : u.kind s = .cls ∨ u.kind s = .typeAlias)
    (hes : ∀ e ∈ es, Normal e) : Normal (u.applied s es)
  | single {s : SymbolId} (hs : u.kind s = .object) : Normal (u.single s)
  | constant (v : String) : Normal (.constant v)

end Image

variable {u : SymbolTable}

section Injective

theorem PackageOwned.symName_eq {s : SymbolId} (h : u.PackageOwned s) (hs : u.Declares s) :
    u.symName s =
      if u.kind s = .object then .term (u.fullName s) else .type (u.fullName s) := by
  obtain ⟨o, ho, hk⟩ := h
  unfold symName isTerm
  rcases hs with hs | hs | hs <;> simp [ho, hs, isTransparent, hk]

variable (hu : u.Plain)

include hu

omit hu in
theorem imageArgs_injective {params : List SymbolId} {i : Nat} {es es' : List Ty}
    (hes : ∀ e ∈ es, ∀ e' ∈ es', u.image e = u.image e' → e = e')
    (h : u.imageArgs [] params i es = u.imageArgs [] params i es') : es = es' := by
  induction es generalizing i es' with
  | nil =>
    cases es' with
    | nil => rfl
    | cons e' es' => cases h
  | cons e es ih =>
    cases es' with
    | nil => cases h
    | cons e' es' =>
      simp only [imageArgs, List.cons.injEq, TypeArg.mk.injEq, and_true] at h
      obtain ⟨he, hargs⟩ := h
      have hhead := hes e List.mem_cons_self e' List.mem_cons_self he
      have htail := ih (fun a ha b hb ↦ hes a (List.mem_cons_of_mem _ ha) b
        (List.mem_cons_of_mem _ hb)) hargs
      rw [hhead, htail]

omit hu in
theorem image_applied_injective {s : SymbolId} {es es' : List Ty}
    (hes : ∀ e ∈ es, ∀ e' ∈ es', u.image e = u.image e' → e = e')
    (h : u.image (u.applied s es) = u.image (u.applied s es')) : es = es' := by
  simp only [SymbolTable.applied, image, imageUnder, List.isEmpty_iff] at h
  split at h <;> split at h
  · next hnil hnil' => rw [hnil, hnil']
  · cases h
  · cases h
  · exact imageArgs_injective hes (Descriptor.full.inj h).2.1

theorem symName?_image_applied {s : SymbolId} (hs : u.kind s = .cls ∨ u.kind s = .typeAlias)
    (es : List Ty) : (u.image (u.applied s es)).symName? = some (.type (u.fullName s)) := by
  have hname : u.nameUnder [] s = .type (u.fullName s) := by
    have hdecl : u.Declares s := hs.imp_right .inr
    refine ((hu.vocabulary.owned s hdecl).symName_eq hdecl).trans (if_neg ?_)
    rcases hs with hs | hs <;> simp [hs]
  simp only [SymbolTable.applied, image, imageUnder, hname]
  split <;> rfl

theorem symName?_image_single {s : SymbolId} (hs : u.kind s = .object) :
    (u.image (u.single s)).symName? = some (.term (u.fullName s)) := by
  have hname : u.symName s = .term (u.fullName s) := by
    rw [(hu.vocabulary.owned s (.inr (.inl hs))).symName_eq (.inr (.inl hs)), if_pos hs]
  simp only [SymbolTable.single, image, imageUnder, hname]
  rfl

omit hu in
theorem symName?_image_constant (v : String) :
    (u.image (.constant v)).symName? = some (.literal v) :=
  rfl

theorem Normal.image_injective {e e' : Ty} (h : u.Normal e) (h' : u.Normal e')
    (himage : u.image e = u.image e') : e = e' := by
  have hname := congrArg Descriptor.symName? himage
  induction h generalizing e' with
  | @applied s es hs hes ih =>
    rw [symName?_image_applied hu hs] at hname
    cases h' with
    | @applied s' es' hs' hes' =>
      rw [symName?_image_applied hu hs', Option.some.injEq, SymName.type.injEq] at hname
      obtain rfl := hu.distinct s s' (hs.imp_right .inr) (hs'.imp_right .inr) hname
      rw [image_applied_injective (fun e he e' he' hsame ↦
        ih e he (hes' e' he') hsame (congrArg _ hsame)) himage]
    | single hs' => simp [symName?_image_single hu hs'] at hname
    | constant => simp [symName?_image_constant] at hname
  | @single s hs =>
    rw [symName?_image_single hu hs] at hname
    cases h' with
    | applied hs' => simp [symName?_image_applied hu hs'] at hname
    | @single s' hs' =>
      rw [symName?_image_single hu hs', Option.some.injEq, SymName.term.injEq] at hname
      rw [hu.distinct s s' (.inr (.inl hs)) (.inr (.inl hs')) hname]
    | constant => simp [symName?_image_constant] at hname
  | constant v =>
    rw [symName?_image_constant] at hname
    cases h' with
    | applied hs' => simp [symName?_image_applied hu hs'] at hname
    | single hs' => simp [symName?_image_single hu hs'] at hname
    | constant v' =>
      rw [symName?_image_constant, Option.some.injEq, SymName.literal.injEq] at hname
      rw [hname]

end Injective

end TypeTag.SymbolTable
