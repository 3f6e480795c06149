import TypeTag.Proofs.Descriptor.Mentions

namespace TypeTag

def SymName.isLiteral : SymName → Bool
  | literal _ => true
  | _ => false

def Decl.signatureTypes {α : Type} : Decl α → List α
  | signature _ ps r => ps ++ [r]
  | typeMember .. => []

namespace Descriptor

def Everywhere (P : Descriptor → Prop) (d : Descriptor) : Prop :=
  ∀ e : Descriptor, e.OccursIn d → P e

section Everywhere

variable {P Q : Descriptor → Prop} {d e : Descriptor}

theorem everywhere_iff : d.Everywhere P ↔ P d ∧ ∀ e ∈ d.parts, e.Everywhere P := by
  constructor
  · exact fun h ↦ ⟨h d (.refl d), fun e he f hf ↦ h f (hf.of_part he)⟩
  · rintro ⟨hd, hparts⟩ e he
    rcases occursIn_iff.1 he with rfl | ⟨a, ha, he⟩
    · exact hd
    · exact hparts a ha e he

theorem Everywhere.self (h : d.Everywhere P) : P d :=
  h d (.refl d)

theorem Everywhere.of_part (h : d.Everywhere P) (he : e ∈ d.parts) : e.Everywhere P :=
  (everywhere_iff.1 h).2 e he

theorem Everywhere.imp (hPQ : ∀ e, P e → Q e) (h : d.Everywhere P) : d.Everywhere Q :=
  fun e he ↦ hPQ e (h e he)

theorem Everywhere.intersect (hP : ∀ ps, P (intersection ps)) {ds : List Descriptor}
    (h : ∀ d ∈ ds, d.Everywhere P) : (Descriptor.intersect ds).Everywhere P := by
  obtain ⟨opened, hopened, hcases⟩ := intersect_parts ds
  have hall (d : Descriptor) (hd : d ∈ opened) : d.Everywhere P := by
    obtain ⟨p, hp, hd⟩ := (hopened d).1 hd
    cases p with
    | intersection es => exact (h _ hp).of_part hd
    | _ => exact List.mem_singleton.1 hd ▸ h _ hp
  rcases hcases with heq | ⟨-, heq⟩
  · exact hall _ (heq ▸ List.mem_singleton_self _)
  · rw [heq]
    exact everywhere_iff.2 ⟨hP opened, hall⟩

end Everywhere

def isIntersection : Descriptor → Bool
  | intersection _ => true
  | _ => false

def isRefinement : Descriptor → Bool
  | refinement .. => true
  | _ => false

/-- What the grammar asks of a descriptor, given what may be a part of an intersection and what may
be the parent of a refinement. Qualifiers and the types of methods are no type functions, a
refinement declares something, an applied name has arguments, and a literal is nothing but its
value. -/
def WellFormed (part parent : Descriptor → Prop) : Descriptor → Prop
  | name n => (∀ q ∈ n.qualifier, q.isApplied = true) ∧
      (n.name.isLiteral = true → n.qualifier = none ∧ n.boundaries = .empty)
  | full s as q => as ≠ [] ∧ (∀ d ∈ q, d.isApplied = true) ∧ s.isLiteral = false
  | lambda .. => True
  | intersection ps => ps.length ≠ 1 ∧ ∀ p ∈ ps, part p
  | refinement p ds => ds ≠ [] ∧ parent p ∧ ∀ c ∈ ds, ∀ d ∈ c.signatureTypes, d.isApplied = true

/-- Obeys the grammar at every depth: the parts of intersections are neither intersections nor
refinements, and the parents of refinements are no refinements. -/
def Grammatical : Descriptor → Prop :=
  Everywhere (WellFormed (fun p ↦ p.isIntersection = false ∧ p.isRefinement = false)
    fun p ↦ p.isRefinement = false)

def combined : Descriptor → List Descriptor
  | intersection ps => ps
  | refinement p _ => [p]
  | _ => []

section WellFormed

variable {part part' parent parent' : Descriptor → Prop} {d : Descriptor}

theorem WellFormed.imp (hpart : ∀ p, part p → part' p) (hparent : ∀ p, parent p → parent' p)
    (h : d.WellFormed part parent) : d.WellFormed part' parent' := by
  cases d with
  | intersection ps => exact ⟨h.1, fun p hp ↦ hpart p (h.2 p hp)⟩
  | refinement p ds => exact ⟨h.1, hparent p h.2.1, h.2.2⟩
  | _ => exact h

theorem WellFormed.of_mem_combined (h : d.WellFormed part parent) {p : Descriptor}
    (hp : p ∈ d.combined) : part p ∨ parent p := by
  cases d with
  | intersection ps => exact .inl (h.2 p hp)
  | refinement q ds => exact .inr (List.mem_singleton.1 hp ▸ h.2.1)
  | _ => cases hp

theorem intersect_wellFormed {ds : List Descriptor}
    (h : ∀ d ∈ ds, part d ∧ d.Everywhere (WellFormed part parent)) :
    (intersect ds).Everywhere (WellFormed part parent) ∧
      (part (intersect ds) ∨ (intersect ds).isIntersection = true) := by
  obtain ⟨opened, hopened, hcases⟩ := intersect_parts ds
  have hall : ∀ d ∈ opened, part d ∧ d.Everywhere (WellFormed part parent) := by
    intro d hd
    obtain ⟨p, hp, hd⟩ := (hopened d).1 hd
    cases p with
    | intersection es =>
      have hes := (h _ hp).2
      exact ⟨hes.self.2 d hd, hes.of_part hd⟩
    | _ => exact List.mem_singleton.1 hd ▸ h _ hp
  rcases hcases with heq | ⟨hlen, heq⟩
  · obtain ⟨hpart, hevery⟩ := hall _ (heq ▸ List.mem_singleton_self _)
    exact ⟨hevery, .inl hpart⟩
  · rw [heq]
    refine ⟨everywhere_iff.2 ⟨⟨hlen, fun p hp ↦ (hall p hp).1⟩, fun e he ↦ (hall e he).2⟩, .inr rfl⟩

end WellFormed

end Descriptor

end TypeTag
