import TypeTag.Proofs.Renaming.Tags
import TypeTag.Proofs.SymbolTable.Constructible
import TypeTag.Proofs.Tags.Caching

namespace TypeTag

open Build

variable {u v : SymbolTable} {f g : SymbolId → SymbolId} {n : Nat}

theorem Ty.Within.rename_congr {t : Ty} (ht : t.Within n) (h : ∀ s : Nat, s < n → f s = g s) :
    t.rename f = t.rename g :=
  Ty.rename_congr fun s hs ↦ h s (ht s hs)

theorem SymbolEntry.Within.rename_congr {i : SymbolEntry} (hi : i.Within n)
    (h : ∀ s : Nat, s < n → f s = g s) : i.rename f = i.rename g := by
  have ht : ∀ t ∈ i.types, t.rename f = t.rename g := fun t ht ↦ (hi.types t ht).rename_congr h
  have howner : i.owner.map f = i.owner.map g := Option.map_congr fun o ho ↦ h o (hi.owner o ho)
  have hparams : i.typeParams.map f = i.typeParams.map g :=
    List.map_congr_left fun p hp ↦ h p (hi.typeParams p hp)
  have hparents : i.parents.map (Ty.rename f) = i.parents.map (Ty.rename g) :=
    List.map_congr_left fun t h ↦ ht t (by simp [SymbolEntry.types, h])
  have hbounds : i.bounds.map (fun b ↦ (b.1.rename f, b.2.rename f)) =
      i.bounds.map fun b ↦ (b.1.rename g, b.2.rename g) := Option.map_congr fun b hb ↦ by
    have hb' : i.bounds = some b := hb
    rw [ht b.1 (by simp [SymbolEntry.types, hb']), ht b.2 (by simp [SymbolEntry.types, hb'])]
  have hbody : i.body.map (Ty.rename f) = i.body.map (Ty.rename g) :=
    Option.map_congr fun t h ↦ ht t (by simp [SymbolEntry.types, show i.body = some t from h])
  unfold SymbolEntry.rename
  rw [howner, hparams, hparents, hbounds, hbody]

theorem SymbolEntry.rename_id (i : SymbolEntry) : i.rename id = i := by
  have hid : Ty.rename id = id := funext Ty.rename_id
  simp [rename, hid]

namespace SymbolTable

/-- `f` takes the symbols of `u` to symbols of `v` with the same entries. -/
structure Embedding (u v : SymbolTable) (f : SymbolId → SymbolId) : Prop where
  lt : ∀ s : Nat, s < u.size → f s < v.size
  injective : ∀ s : Nat, s < u.size → ∀ t : Nat, t < u.size → f s = f t → s = t
  entry : ∀ s : Nat, s < u.size → v.entry (f s) = (u.entry s).rename f
  root : v.root = f u.root
  any : v.any = f u.any
  anyRef : v.anyRef = f u.anyRef
  nothing : v.nothing = f u.nothing

/-- A map of the symbols of `u`, with the numbers that are no symbols of `u` moved behind `v`. -/
def extend (u v : SymbolTable) (f : SymbolId → SymbolId) (s : Nat) : SymbolId :=
  if s < u.size then f s else v.size + s

theorem extend_of_lt {s : Nat} (h : s < u.size) : extend u v f s = f s :=
  if_pos h

namespace Embedding

variable (h : Embedding u v f)

include h

theorem extend_injective : Function.Injective (extend u v f) := by
  intro s t hst
  unfold extend at hst
  have hs := h.lt s
  have ht := h.lt t
  split at hst <;> split at hst <;> rename_i h₁ h₂
  · exact h.injective s h₁ t h₂ hst
  · have := hs h₁
    exact absurd (hst ▸ this) (by simp)
  · have := ht h₂
    exact absurd (hst ▸ this) (by simp)
  · exact Nat.add_left_cancel hst

/-- Renumberings are total: an embedding of well-formed tables is the part of one that matters. -/
theorem toRenaming (hu : u.WellFormed) (hv : v.WellFormed) : Renaming u v (extend u v f) where
  injective := h.extend_injective
  entry s := by
    by_cases hs : s < u.size
    · rw [extend_of_lt hs, h.entry s hs]
      exact (hu.within s).rename_congr fun t ht ↦ (extend_of_lt ht).symm
    -- Behind both tables all entries are the default one, which names no symbols.
    · have hv' : v.size ≤ v.size + s := Nat.le_add_right _ _
      rw [extend, if_neg hs, entry_of_size_le v hv', entry_of_size_le u (Nat.le_of_not_lt hs)]
      rfl
  any := h.any.trans (extend_of_lt hu.any).symm
  anyRef := h.anyRef.trans (extend_of_lt hu.anyRef).symm
  nothing := h.nothing.trans (extend_of_lt hu.nothing).symm
  source := hu.ownersPrecede
  target := hv.ownersPrecede

theorem ends_rootDescriptor (hu : u.WellFormed) (hv : v.WellFormed) {t : Ty}
    (ht : t.Within u.size) {r : Option Descriptor} :
    Ends (v.rootDescriptor · (t.rename f)) r ↔ Ends (u.rootDescriptor · t) r := by
  have hg := h.toRenaming hu hv
  have htg : t.rename f = t.rename (extend u v f) :=
    ht.rename_congr fun s hs ↦ (extend_of_lt hs).symm
  have hsame (n : Nat) : (v.rootDescriptor n (t.rename (extend u v f))).outcome =
      (u.rootDescriptor n t).outcome := by rw [hg.rootDescriptor, outcome_rename]
  simp only [htg, Ends, hsame]

end Embedding

theorem embedding_add (u : SymbolTable) (i : SymbolEntry) : Embedding u (u.add i) id := by
  obtain ⟨hroot, hany, hanyRef, hnothing⟩ := root_add u i
  refine ⟨fun s hs ↦ ?_, fun _ _ _ _ h ↦ h, fun s hs ↦ ?_, hroot, hany, hanyRef, hnothing⟩
  · rw [size_add]
    exact Nat.lt_succ_of_lt hs
  · rw [id, entry_add_of_ne u (Nat.ne_of_lt hs), SymbolEntry.rename_id]

/-- A type and its image have the same descriptor and the same tag, or fail or go on for ever
together, through whatever caches they are asked for. -/
theorem tags_same_of_embedding (hu : u.Constructible) (hv : v.Constructible)
    (hf : Embedding u v f) {t : Ty} (ht : t.Within u.size) {c d : RootCache} (hc : c.Reached u)
    (hd : d.Reached v) (config config' : Config) (alive alive' : ObjectId → Bool)
    (o o' : ObjectId) :
    (∀ r : Option Descriptor,
      Ends (fun n ↦ (v.makeDescriptor n config' d alive' ⟨o', t.rename f⟩).1) r ↔
        Ends (fun n ↦ (u.makeDescriptor n config c alive ⟨o, t⟩).1) r) ∧
    ∀ r : Option Tag,
      Ends (fun n ↦ (v.makeTag n config' d alive' ⟨o', t.rename f⟩).1) r ↔
        Ends (fun n ↦ (u.makeTag n config c alive ⟨o, t⟩).1) r := by
  have hg := hf.toRenaming hu.wellFormed hv.wellFormed
  have htg : t.rename f = t.rename (extend u v f) :=
    ht.rename_congr fun s hs ↦ (extend_of_lt hs).symm
  constructor
  · intro r
    have hsame (n : Nat) : (v.rootDescriptor n (t.rename (extend u v f))).outcome =
        (u.rootDescriptor n t).outcome := by rw [hg.rootDescriptor, outcome_rename]
    rw [makeDescriptor_ends_iff hd.sound, makeDescriptor_ends_iff hc.sound, htg]
    simp only [Ends, hsame]
  · intro r
    have hsame (n : Nat) : (v.tag n (t.rename (extend u v f))).outcome =
        (u.tag n t).outcome := by rw [hg.tag, outcome_rename]
    rw [makeTag_ends_iff hd.sound, makeTag_ends_iff hc.sound, htg]
    simp only [Ends, hsame]

/-- The classes `Int` and `Box[+A]`, created after the other classes of their package. -/
def boxesAfter (others : List String) : SymbolTable :=
  let u := others.foldl (fun u name ↦ (u.cls 1 name).2) initial
  let (_, u) := u.cls 1 "Int"
  let (box, u) := u.cls 1 "Box"
  (u.typeParam box "A" .covariant).2

theorem constructible_boxesAfter (others : List String) : (boxesAfter others).Constructible := by
  have hcls {u : SymbolTable} (hu : u.Constructible) (hs : 1 < u.size) (name : String) :
      (u.cls 1 name).2.Constructible ∧ 1 < (u.cls 1 name).2.size :=
    ⟨hu.step (.cls 1 name hs), by simpa [cls, define] using Nat.lt_succ_of_lt hs⟩
  have hothers {u : SymbolTable} (hu : u.Constructible) (hs : 1 < u.size) :
      (others.foldl (fun u name ↦ (u.cls 1 name).2) u).Constructible ∧
        1 < (others.foldl (fun u name ↦ (u.cls 1 name).2) u).size := by
    induction others generalizing u with
    | nil => exact ⟨hu, hs⟩
    | cons name others ih => exact ih (hcls hu hs name).1 (hcls hu hs name).2
  obtain ⟨hu, hs⟩ := hothers .initial (by decide)
  obtain ⟨hu, hs⟩ := hcls hu hs "Int"
  refine (hcls hu hs "Box").1.step (.typeParam _ "A" .covariant ?_)
  simp [cls, define, nextId, size]

theorem box_tags_same :
    ∃ tag : Tag, ∀ o : ObjectId,
      Ends (fun n ↦ ((boxesAfter []).makeTag n {} .empty (fun _ ↦ true)
        ⟨o, (boxesAfter []).applied 6 [(boxesAfter []).typeRef 5]⟩).1) (some tag) ∧
      Ends (fun n ↦ ((boxesAfter ["Other"]).makeTag n {} .empty (fun _ ↦ true)
        ⟨o, ((boxesAfter []).applied 6 [(boxesAfter []).typeRef 5]).rename
          fun s : Nat ↦ if s < 5 then s else s + 1⟩).1) (some tag) := by
  have hf : Embedding (boxesAfter []) (boxesAfter ["Other"])
      fun s : Nat ↦ if s < 5 then s else s + 1 :=
    ⟨by decide, by decide, by decide, by decide,
      by decide, by decide, by decide⟩
  have ht : ((boxesAfter []).applied 6 [(boxesAfter []).typeRef 5]).Within
      (boxesAfter []).size := by
    unfold Ty.Within
    decide
  have hend : ((boxesAfter []).tag 10
      ((boxesAfter []).applied 6 [(boxesAfter []).typeRef 5])).value?.isSome := by decide +kernel
  obtain ⟨tag, htag⟩ := Option.isSome_iff_exists.1 hend
  refine ⟨tag, fun o ↦ ?_⟩
  have hsame := (tags_same_of_embedding (constructible_boxesAfter _) (constructible_boxesAfter _)
    hf ht .empty .empty {} {} (fun _ ↦ true) (fun _ ↦ true) o o).2 (some tag)
  have hsource := (makeTag_ends_iff RootCache.Reached.empty.sound {} (fun _ ↦ true) ⟨o, _⟩).2
    ((steady_tag _ _).ends (outcome_eq_some_some_iff.2 htag))
  exact ⟨hsource, hsame.2 hsource⟩

end SymbolTable

end TypeTag
