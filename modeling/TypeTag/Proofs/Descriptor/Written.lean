import TypeTag.Proofs.Descriptor.Grammar
import TypeTag.Proofs.Descriptor.PlainNames

namespace TypeTag

open Text (intercalate_concat)

namespace Descriptor

/-- What the long text of a descriptor can be read back from: plain names, and no type function as a
qualifier, which would go on with the name behind it. -/
def PlainNode : Descriptor → Prop
  | name n => n.name.Plain ∧ ∀ q ∈ n.qualifier, q.isApplied = true
  | full s _ q => s.Plain ∧ ∀ d ∈ q, d.isApplied = true
  | lambda ps _ => ∀ p ∈ ps, IsNumbers p
  | intersection _ => True
  | refinement _ ds => ∀ c ∈ ds, IsWord c.name

def Plain : Descriptor → Prop :=
  Everywhere PlainNode

def written (d : Descriptor) : List Char :=
  d.longName.toList

def writtenBounds : Boundaries Descriptor → List Char
  | .empty => []
  | .defined l u => '|' :: '<' :: (l.written ++ '.' :: '.' :: (u.written ++ ['>']))

def writtenArg (a : TypeArg Descriptor) : List Char :=
  a.variance.marker :: a.reference.written

def writtenDecl : Decl Descriptor → List Char
  | .signature s ps r => "def ".toList ++ (s.toList ++ '(' ::
      ([',', ' '].intercalate (ps.map written) ++ ')' :: ':' :: ' ' :: r.written))
  | .typeMember s r => "type ".toList ++ (s.toList ++ ' ' :: '=' :: ' ' :: r.written)

def writtenTail : Descriptor → List Char
  | name n => writtenBounds n.boundaries
  | full _ as _ => '[' :: ([',', ' '].intercalate (as.map writtenArg) ++ [']'])
  | _ => []

def unqualified : Descriptor → Descriptor
  | name n => name { n with qualifier := none }
  | full s as _ => full s as none
  | d => d

section Written

variable {d q : Descriptor} {s : SymName}

theorem longName_name (n : NameRef Descriptor) :
    (name n).longName = renderName .long (n.map longName) :=
  fold_name _ n

theorem longName_full (s : SymName) (as : List (TypeArg Descriptor)) (q : Option Descriptor) :
    (full s as q).longName =
      (rendering .long).full s (as.map (TypeArg.map longName)) (q.map longName) :=
  fold_full _ s as q

theorem toList_renderDecl (c : Decl Descriptor) :
    (renderDecl (c.map longName)).toList = writtenDecl c := by
  cases c with
  | signature s ps r =>
    simp only [Decl.map, renderDecl, String.toList_append, String.toList_intercalate, List.map_map,
      writtenDecl, List.append_assoc]
    rfl
  | typeMember s r =>
    simp only [Decl.map, renderDecl, String.toList_append, writtenDecl, List.append_assoc]
    rfl

theorem written_named (hs : d.symName? = some s) (hq : d.qualifier? = none) :
    d.written = s.chars ++ d.writtenTail := by
  cases d with
  | name n =>
    obtain ⟨m, b, q⟩ := n
    cases hs
    cases hq
    cases b <;> simp [written, longName_name, renderName, renderQualifier, NameRef.map,
      Boundaries.map, writtenTail, writtenBounds, SymName.chars]
  | full m as q =>
    cases hs
    cases hq
    have harg : String.toList ∘ (fun a ↦ a.variance.marker.toString ++ a.reference) ∘
        TypeArg.map longName = writtenArg := by
      funext a
      simp [TypeArg.map, writtenArg, written]
    simp only [written, longName_full, rendering, renderQualifier, Option.map_none,
      String.toList_append, String.toList_intercalate, List.map_map, harg, SymName.chars,
      writtenTail, List.append_assoc]
    rfl
  | _ => cases hs

theorem written_qualified (hq : d.qualifier? = some q) :
    d.written = q.written ++ ([':', ':'] ++ d.unqualified.written) := by
  cases d with
  | name n =>
    obtain ⟨m, b, r⟩ := n
    cases hq
    cases b <;> simp [written, longName_name, renderName, renderQualifier, NameRef.map,
      Boundaries.map, unqualified]
  | full m as r =>
    cases hq
    simp [written, longName_full, rendering, renderQualifier, unqualified]
  | _ => cases hq

theorem written_lambda (ps : List String) (b : Descriptor) :
    (lambda ps b).written =
      'λ' :: ' ' :: ([','].intercalate (ps.map fun p ↦ '%' :: p.toList) ++
        ' ' :: '→' :: ' ' :: b.written) := by
  have hparam : (String.toList ∘ fun p ↦ "%" ++ p) = fun p ↦ '%' :: p.toList := by
    funext p
    simp
  have h : (lambda ps b).longName =
      "λ " ++ ",".intercalate (ps.map ("%" ++ ·)) ++ " → " ++ b.longName := fold_lambda _ ps b
  simp only [written, h, String.toList_append, String.toList_intercalate, List.map_map, hparam,
    List.append_assoc]
  rfl

theorem written_intersection (ps : List Descriptor) :
    (intersection ps).written =
      '\x7b' :: ([' ', '&', ' '].intercalate (ps.map written) ++ ['\x7d']) := by
  have h : (intersection ps).longName =
      "\x7b" ++ " & ".intercalate (ps.map longName) ++ "\x7d" := fold_intersection _ ps
  simp only [written, h, String.toList_append, String.toList_intercalate, List.map_map,
    List.append_assoc]
  rfl

theorem written_refinement (p : Descriptor) (ds : List (Decl Descriptor)) :
    (refinement p ds).written = '(' :: (p.written ++ ')' :: '\x7b' ::
      ([';', ' '].intercalate (ds.map writtenDecl) ++ ['\x7d'])) := by
  have h : (refinement p ds).longName = "(" ++ p.longName ++ ")\x7b" ++
      "; ".intercalate ((ds.map (Decl.map longName)).map renderDecl) ++ "\x7d" :=
    fold_refinement _ p ds
  have hdecl : String.toList ∘ renderDecl ∘ Decl.map longName = writtenDecl :=
    funext toList_renderDecl
  simp only [written, h, String.toList_append, String.toList_intercalate, List.map_map, hdecl,
    List.append_assoc]
  rfl

end Written

section Chain

variable {c d e q : Descriptor}

theorem mem_parts_of_qualifier? (h : d.qualifier? = some q) : q ∈ d.parts := by
  cases d with
  | name n => exact List.mem_append_right _ (Option.mem_toList.2 h)
  | full s as r => exact List.mem_append_right _ (Option.mem_toList.2 h)
  | _ => cases h

theorem isApplied_of_qualifier? (h : d.qualifier? = some q) : d.isApplied = true := by
  cases d with
  | lambda ps b => cases h
  | _ => rfl

theorem Plain.qualifier (hd : d.Plain) (h : d.qualifier? = some q) :
    q.Plain ∧ q.isApplied = true := by
  refine ⟨hd.of_part (mem_parts_of_qualifier? h), ?_⟩
  cases d with
  | name n => exact hd.self.2 q h
  | full s as r => exact hd.self.2 q h
  | _ => cases h

theorem mem_parts_of_unqualified (h : c ∈ d.unqualified.parts) : c ∈ d.parts := by
  cases d with
  | name n =>
    rcases List.mem_append.1 h with h | h
    · exact List.mem_append_left _ h
    · cases h
  | full s as q =>
    rcases List.mem_append.1 h with h | h
    · exact List.mem_append_left _ h
    · cases h
  | _ => exact h

theorem Plain.link (hd : d.Plain) (ha : d.isApplied = true) : d.unqualified.Plain ∧
    d.unqualified.isApplied = true ∧ d.unqualified.qualifier? = none := by
  have hparts (e : Descriptor) (he : e ∈ d.unqualified.parts) : e.Everywhere PlainNode :=
    hd.of_part (mem_parts_of_unqualified he)
  cases d with
  | name n =>
    exact ⟨everywhere_iff.2 ⟨⟨hd.self.1, fun q hq ↦ by cases hq⟩, hparts⟩, rfl, rfl⟩
  | full s as q =>
    exact ⟨everywhere_iff.2 ⟨⟨hd.self.1, fun q hq ↦ by cases hq⟩, hparts⟩, rfl, rfl⟩
  | lambda ps b => cases ha
  | _ => exact ⟨hd, rfl, rfl⟩

theorem unqualified_of_none (h : d.qualifier? = none) : d.unqualified = d := by
  cases d with
  | name n =>
    obtain ⟨s, b, r⟩ := n
    cases h
    rfl
  | full s as r =>
    cases h
    rfl
  | _ => rfl

theorem eq_of_unqualified (hq : d.qualifier? = e.qualifier?) (h : d.unqualified = e.unqualified) :
    d = e := by
  cases d with
  | name m =>
    cases e with
    | name n =>
      obtain ⟨s, b, r⟩ := m
      obtain ⟨s', b', r'⟩ := n
      cases hq
      cases h
      rfl
    | _ => cases h
  | full s as r =>
    cases e with
    | full s' as' r' =>
      cases hq
      cases h
      rfl
    | _ => cases h
  | _ => cases e <;> first | exact h | cases h

/-- The descriptor behind its qualifiers, the outermost first, each without its own. -/
def chain (d : Descriptor) : List Descriptor :=
  match _h : d.qualifier? with
  | none => [d.unqualified]
  | some q => q.chain ++ [d.unqualified]
termination_by sizeOf d
decreasing_by exact sizeOf_lt_of_mem_parts (mem_parts_of_qualifier? ‹_›)

theorem chain_of_none (h : d.qualifier? = none) : d.chain = [d.unqualified] := by
  rw [chain]
  split
  · rfl
  · next hq => cases h.symm.trans hq

theorem chain_of_some (h : d.qualifier? = some q) : d.chain = q.chain ++ [d.unqualified] := by
  rw [chain]
  split
  · next hq => cases h.symm.trans hq
  · next hq => rw [Option.some.inj (h.symm.trans hq)]

theorem Plain.of_mem_chain (hd : d.Plain) (ha : d.isApplied = true) (hc : c ∈ d.chain) :
    c.Plain ∧ c.isApplied = true ∧ c.qualifier? = none := by
  induction d using parts_induction with
  | step d ih =>
    cases h : d.qualifier? with
    | none =>
      rw [chain_of_none h] at hc
      rw [List.mem_singleton.1 hc]
      exact hd.link ha
    | some q =>
      rw [chain_of_some h] at hc
      rcases List.mem_append.1 hc with hc | hc
      · obtain ⟨hq, haq⟩ := hd.qualifier h
        exact ih q (mem_parts_of_qualifier? h) hq haq hc
      · rw [List.mem_singleton.1 hc]
        exact hd.link ha

theorem chain_ne_nil (d : Descriptor) : d.chain ≠ [] := by
  cases h : d.qualifier? with
  | none => simp [chain_of_none h]
  | some q => simp [chain_of_some h]

theorem chain_ne_of_qualifier (hd : d.qualifier? = some q) (he : e.qualifier? = none) :
    d.chain ≠ e.chain := by
  intro h
  have hlen := congrArg List.length h
  rw [chain_of_some hd, chain_of_none he, List.length_append] at hlen
  exact chain_ne_nil q (List.length_eq_zero_iff.1 (Nat.add_right_cancel (m := 1) hlen))

theorem chain_inj (h : d.chain = e.chain) : d = e := by
  induction d using parts_induction generalizing e with
  | step d ih =>
    cases hd : d.qualifier? with
    | none =>
      cases he : e.qualifier? with
      | none =>
        rw [chain_of_none hd, chain_of_none he] at h
        exact eq_of_unqualified (hd.trans he.symm) (List.cons.inj h).1
      | some q =>
        exact absurd h.symm (chain_ne_of_qualifier he hd)
    | some q =>
      cases he : e.qualifier? with
      | none => exact absurd h (chain_ne_of_qualifier hd he)
      | some q' =>
        rw [chain_of_some hd, chain_of_some he] at h
        obtain ⟨hchain, hlast⟩ := List.append_inj' h rfl
        have hq : q = q' := ih q (mem_parts_of_qualifier? hd) hchain
        exact eq_of_unqualified (by rw [hd, he, hq]) (List.cons.inj hlast).1

theorem intercalate_chain (d : Descriptor) :
    [':', ':'].intercalate (d.chain.map written) = d.written := by
  induction d using parts_induction with
  | step d ih =>
    cases h : d.qualifier? with
    | none =>
      rw [chain_of_none h, unqualified_of_none h, List.map_singleton, List.intercalate_singleton]
    | some q =>
      have hne : q.chain.map written ≠ [] := by simpa using chain_ne_nil q
      rw [chain_of_some h, List.map_append, List.map_singleton, intercalate_concat hne,
        ih q (mem_parts_of_qualifier? h), written_qualified h]

end Chain

end Descriptor

end TypeTag
