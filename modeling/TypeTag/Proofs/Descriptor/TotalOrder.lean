import TypeTag.Proofs.Descriptor.Order

namespace TypeTag

open Std

abbrev Word := List String

namespace Word

def ofQualifier : Option Word → Word
  | none => ["0"]
  | some q => "1" :: q

def ofList : List Word → Word
  | [] => ["0"]
  | w :: ws => "1" :: (w ++ ofList ws)

def ofTexts (l : List String) : Word :=
  ofList (l.map fun s ↦ [s])

end Word

def Variance.word : Variance → Word
  | .invariant => ["0"]
  | .covariant => ["1"]
  | .contravariant => ["2"]

def SymName.word : SymName → Word
  | .term s => ["0", s]
  | .type s => ["1", s]
  | .literal s => ["2", s]

def Boundaries.word : Boundaries Word → Word
  | .empty => ["0"]
  | .defined l u => "1" :: (l ++ u)

def NameRef.word (n : NameRef Word) : Word :=
  n.name.word ++ (n.boundaries.word ++ Word.ofQualifier n.qualifier)

def TypeArg.word (a : TypeArg Word) : Word :=
  a.reference ++ a.variance.word

def Decl.word : Decl Word → Word
  | .signature s ps r => "0" :: ([s] ++ (Word.ofList ps ++ r))
  | .typeMember s r => "1" :: ([s] ++ r)

namespace Descriptor

def spelling : Algebra Word where
  name n := "0" :: n.word
  full s as q := "1" :: (s.word ++ (Word.ofList (as.map TypeArg.word) ++ Word.ofQualifier q))
  lambda ps b := "2" :: (Word.ofTexts ps ++ b)
  intersection ps := "3" :: Word.ofList ps
  refinement p ds := "4" :: (p ++ Word.ofList (ds.map Decl.word))

end Descriptor

/-- The words compare so, and where they are equal what follows them decides. -/
def Spells (o : Ordering) (v w : Word) : Prop :=
  ∀ xs ys : Word, compare (v ++ xs) (w ++ ys) = o.then (compare xs ys)

namespace Spells

variable {o p : Ordering} {s t : String} {v w v' w' : Word}

theorem append (h : Spells o v w) (h' : Spells p v' w') :
    Spells (o.then p) (v ++ v') (w ++ w') := by
  intro xs ys
  rw [List.append_assoc, List.append_assoc, h, h', Ordering.then_assoc]

theorem text (s t : String) : Spells (compare s t) [s] [t] := by
  intro xs ys
  simp [List.compare_cons_cons]

theorem nil : Spells .eq [] [] := by
  intro xs ys
  simp

theorem cons (h : Spells o v w) : Spells o (s :: v) (s :: w) := by
  intro xs ys
  simp [List.compare_cons_cons, h xs ys]

theorem lt (h : compare s t = .lt) : Spells .lt (s :: v) (t :: w) := by
  intro xs ys
  simp [List.compare_cons_cons, h]

theorem gt (h : compare s t = .gt) : Spells .gt (s :: v) (t :: w) := by
  intro xs ys
  simp [List.compare_cons_cons, h]

theorem compare_eq (h : Spells o v w) : compare v w = o := by
  simpa using h [] []

theorem variance (v w : Variance) : Spells (compare v w) v.word w.word := by
  cases v <;> cases w <;> first
    | exact nil.cons
    | exact lt (by decide)
    | exact gt (by decide)

theorem symName (s t : SymName) : Spells (compare s t) s.word t.word := by
  cases s <;> cases t <;> first
    | exact (text _ _).cons
    | exact lt (by decide)
    | exact gt (by decide)

theorem texts (l m : List String) :
    Spells (compare l m) (Word.ofTexts l) (Word.ofTexts m) := by
  induction l generalizing m with
  | nil =>
    cases m with
    | nil => exact nil.cons
    | cons t m => exact lt (by decide)
  | cons s l ih =>
    cases m with
    | nil => exact gt (by decide)
    | cons t m =>
      rw [List.compare_cons_cons]
      exact ((text s t).append (ih m)).cons

end Spells

namespace Descriptor

open Spells

variable {d e : Descriptor}

theorem spells_of_rank_ne (h : d.rank ≠ e.rank) :
    Spells (cmp d e) (fold spelling d) (fold spelling e) := by
  cases d <;> cases e <;> first
    | exact absurd rfl h
    | simp only [cmp, rank, fold_name, fold_full, fold_lambda, fold_intersection, fold_refinement]
      first
        | exact lt (by decide)
        | exact gt (by decide)

mutual

theorem spells_cmp : ∀ d e : Descriptor, Spells (cmp d e) (fold spelling d) (fold spelling e)
  | name m, e => by
    cases e with
    | name n =>
      rw [fold_name, fold_name, cmp]
      exact (spells_cmpName m n).cons
    | _ => exact spells_of_rank_ne (by simp [rank])
  | full s as p, e => by
    cases e with
    | full t bs q =>
      rw [fold_full, fold_full, cmp]
      exact ((symName s t).append ((spells_cmpArgs as bs).append (spells_cmpQualifier p q))).cons
    | _ => exact spells_of_rank_ne (by simp [rank])
  | lambda ps b, e => by
    cases e with
    | lambda qs c =>
      rw [fold_lambda, fold_lambda, cmp]
      exact ((texts ps qs).append (spells_cmp b c)).cons
    | _ => exact spells_of_rank_ne (by simp [rank])
  | intersection ps, e => by
    cases e with
    | intersection qs =>
      rw [fold_intersection, fold_intersection, cmp]
      exact (spells_cmpList ps qs).cons
    | _ => exact spells_of_rank_ne (by simp [rank])
  | refinement p ds, e => by
    cases e with
    | refinement q es =>
      rw [fold_refinement, fold_refinement, cmp]
      exact ((spells_cmp p q).append (spells_cmpDecls ds es)).cons
    | _ => exact spells_of_rank_ne (by simp [rank])

theorem spells_cmpName : ∀ m n : NameRef Descriptor,
    Spells (cmpName m n) (m.map (fold spelling)).word (n.map (fold spelling)).word
  | ⟨s, b, p⟩, ⟨t, c, q⟩ => by
    rw [cmpName]
    exact (symName s t).append ((spells_cmpBoundaries b c).append (spells_cmpQualifier p q))

theorem spells_cmpBoundaries : ∀ b c : Boundaries Descriptor,
    Spells (cmpBoundaries b c) (b.map (fold spelling)).word (c.map (fold spelling)).word
  | .empty, c => by
    cases c <;> rw [cmpBoundaries]
    case empty => exact nil.cons
    case defined => exact lt (by decide)
  | .defined l u, c => by
    cases c <;> rw [cmpBoundaries]
    case empty => exact gt (by decide)
    case defined m v => exact ((spells_cmp l m).append (spells_cmp u v)).cons

theorem spells_cmpQualifier : ∀ p q : Option Descriptor,
    Spells (cmpQualifier p q) (.ofQualifier (p.map (fold spelling)))
      (.ofQualifier (q.map (fold spelling)))
  | none, q => by
    cases q <;> rw [cmpQualifier]
    case none => exact nil.cons
    case some => exact lt (by decide)
  | some p, q => by
    cases q <;> rw [cmpQualifier]
    case none => exact gt (by decide)
    case some q => exact (spells_cmp p q).cons

theorem spells_cmpArgs : ∀ as bs : List (TypeArg Descriptor),
    Spells (cmpArgs as bs) (.ofList ((as.map (TypeArg.map (fold spelling))).map TypeArg.word))
      (.ofList ((bs.map (TypeArg.map (fold spelling))).map TypeArg.word))
  | [], bs => by
    cases bs <;> rw [cmpArgs]
    case nil => exact nil.cons
    case cons => exact lt (by decide)
  | ⟨r, v⟩ :: as, bs => by
    cases bs <;> rw [cmpArgs]
    case nil => exact gt (by decide)
    case cons b bs =>
      exact (((spells_cmp r b.reference).append (variance v b.variance)).append
        (spells_cmpArgs as bs)).cons

theorem spells_cmpList : ∀ ds es : List Descriptor,
    Spells (cmpList ds es) (.ofList (ds.map (fold spelling))) (.ofList (es.map (fold spelling)))
  | [], es => by
    cases es <;> rw [cmpList]
    case nil => exact nil.cons
    case cons => exact lt (by decide)
  | d :: ds, es => by
    cases es <;> rw [cmpList]
    case nil => exact gt (by decide)
    case cons e es => exact ((spells_cmp d e).append (spells_cmpList ds es)).cons

theorem spells_cmpDecl : ∀ d e : Decl Descriptor,
    Spells (cmpDecl d e) (d.map (fold spelling)).word (e.map (fold spelling)).word
  | .signature s ps r, e => by
    cases e <;> rw [cmpDecl]
    case signature t qs u =>
      exact ((text s t).append ((spells_cmpList ps qs).append (spells_cmp r u))).cons
    case typeMember => exact lt (by decide)
  | .typeMember s r, e => by
    cases e <;> rw [cmpDecl]
    case signature => exact gt (by decide)
    case typeMember t u => exact ((text s t).append (spells_cmp r u)).cons

theorem spells_cmpDecls : ∀ ds es : List (Decl Descriptor),
    Spells (cmpDecls ds es) (.ofList ((ds.map (Decl.map (fold spelling))).map Decl.word))
      (.ofList ((es.map (Decl.map (fold spelling))).map Decl.word))
  | [], es => by
    cases es <;> rw [cmpDecls]
    case nil => exact nil.cons
    case cons => exact lt (by decide)
  | d :: ds, es => by
    cases es <;> rw [cmpDecls]
    case nil => exact gt (by decide)
    case cons e es => exact ((spells_cmpDecl d e).append (spells_cmpDecls ds es)).cons

end

end Descriptor

/-- An order of things by their words is total. -/
theorem transCmp_of_spells {α : Type} {cmp : α → α → Ordering} (word : α → Word)
    (h : ∀ a b, Spells (cmp a b) (word a) (word b)) : TransCmp cmp where
  eq_swap {a b} := by
    rw [← (h a b).compare_eq, ← (h b a).compare_eq]
    exact OrientedCmp.eq_swap
  isLE_trans {a b c} := by
    rw [← (h a b).compare_eq, ← (h b c).compare_eq, ← (h a c).compare_eq]
    exact TransCmp.isLE_trans

namespace Descriptor

instance : TransOrd Descriptor :=
  transCmp_of_spells _ spells_cmp

instance : TransOrd (NameRef Descriptor) :=
  transCmp_of_spells _ spells_cmpName

instance : TransOrd (Decl Descriptor) :=
  transCmp_of_spells _ spells_cmpDecl

end Descriptor

end TypeTag
