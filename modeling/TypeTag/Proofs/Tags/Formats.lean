import Mathlib.Data.List.Nodup
import TypeTag.Proofs.Descriptor.Reading
import TypeTag.Proofs.Tags.RoundTrip

namespace TypeTag

theorem MultiMap.ofJson?_null {K V : Type} [Ord K] [Ord V] (key : Json → Option K)
    (value : Json → Option V) : MultiMap.ofJson? key value .null = none :=
  rfl

theorem Tag.ofJson?_eq (j : Json) : ofJson? j =
    (j.values? true ["reference", "stable_bases", "unapplied_inheritance"]).bind
      (readField Descriptor.ofJson? fun r ↦
        readField (MultiMap.ofJson? Descriptor.ofJson? Descriptor.ofJson?) fun s ↦
          readField (MultiMap.ofJson? NameRef.ofJson? NameRef.ofJson?) fun u ↦
            readEnd { reference := r, stableBases := s, unapplied := u }) := by
  rw [← Json.record?_eq]
  exact bind_fields₃ _ Descriptor.ofJson?_null (MultiMap.ofJson?_null _ _)
    (MultiMap.ofJson?_null _ _) mk

inductive Record where
  | bounds
  | nameRef
  | typeArg
  | full
  | lambda
  | intersection
  | refinement
  | signature
  | typeMember
  | tag

inductive Element where
  | descriptor
  | nameRef
  | decl

inductive Format where
  | text
  | symName
  | variance
  | boundaries
  | descriptor
  | decl
  | qualifier
  | record (r : Record)
  | list (f : Format)
  | set (e : Element)
  | multiMap (e : Element)

namespace Record

def fields : Record → List (String × Format)
  | bounds => [("lower", .descriptor), ("upper", .descriptor)]
  | nameRef => [("name", .symName), ("boundaries", .boundaries), ("prefix", .qualifier)]
  | typeArg => [("reference", .descriptor), ("variance", .variance)]
  | full =>
    [("name", .symName), ("parameters", .list (.record .typeArg)), ("prefix", .qualifier)]
  | lambda => [("params", .list .text), ("body", .descriptor)]
  | intersection => [("parts", .set .descriptor)]
  | refinement => [("parent", .descriptor), ("decls", .set .decl)]
  | signature => [("name", .text), ("params", .list .descriptor), ("result", .descriptor)]
  | typeMember => [("name", .text), ("reference", .descriptor)]
  | tag => [("reference", .descriptor), ("stable_bases", .multiMap .descriptor),
      ("unapplied_inheritance", .multiMap .nameRef)]

def names (r : Record) : List String :=
  r.fields.map (·.1)

def formats (r : Record) : List Format :=
  r.fields.map (·.2)

/-- Whether a record is read from the array of its fields: not where its fields are those of the
variant itself. -/
def asArray : Record → Bool
  | bounds | signature | typeMember => false
  | _ => true

end Record

namespace Element

def Value : Element → Type
  | descriptor => Descriptor
  | nameRef => NameRef Descriptor
  | decl => Decl Descriptor

instance (e : Element) : Ord e.Value :=
  match e with
  | descriptor => inferInstanceAs (Ord Descriptor)
  | nameRef => inferInstanceAs (Ord (NameRef Descriptor))
  | decl => inferInstanceAs (Ord (Decl Descriptor))

instance (e : Element) : Std.LawfulEqOrd e.Value :=
  match e with
  | descriptor => inferInstanceAs (Std.LawfulEqOrd Descriptor)
  | nameRef => inferInstanceAs (Std.LawfulEqOrd (NameRef Descriptor))
  | decl => inferInstanceAs (Std.LawfulEqOrd (Decl Descriptor))

instance (e : Element) : Std.TransOrd e.Value :=
  match e with
  | descriptor => inferInstanceAs (Std.TransOrd Descriptor)
  | nameRef => inferInstanceAs (Std.TransOrd (NameRef Descriptor))
  | decl => inferInstanceAs (Std.TransOrd (Decl Descriptor))

def read : (e : Element) → Json → Option e.Value
  | descriptor => Descriptor.ofJson?
  | nameRef => NameRef.ofJson?
  | decl => Decl.ofJson?

def format : Element → Format
  | descriptor => .descriptor
  | nameRef => .record .nameRef
  | decl => .decl

end Element

/-- What can be read is read as the same from the other value. -/
def Agrees {α : Type} (read : Json → Option α) (x y : Json) : Prop :=
  ∀ a, read x = some a → read y = some a

def Record.reader : Record → (α : Type) × (Json → Option α)
  | bounds => ⟨_, fun j ↦ Boundaries.ofJson? (.obj [("Defined", j)])⟩
  | nameRef => ⟨_, NameRef.ofJson?⟩
  | typeArg => ⟨_, TypeArg.ofJson?⟩
  | full => ⟨_, fun j ↦ Descriptor.ofJson? (.obj [("Full", j)])⟩
  | lambda => ⟨_, fun j ↦ Descriptor.ofJson? (.obj [("Lambda", j)])⟩
  | intersection => ⟨_, fun j ↦ Descriptor.ofJson? (.obj [("Intersection", j)])⟩
  | refinement => ⟨_, fun j ↦ Descriptor.ofJson? (.obj [("Refinement", j)])⟩
  | signature => ⟨_, fun j ↦ Decl.ofJson? (.obj [("Signature", j)])⟩
  | typeMember => ⟨_, fun j ↦ Decl.ofJson? (.obj [("TypeMember", j)])⟩
  | tag => ⟨_, Tag.ofJson?⟩

namespace Format

def reader : Format → (α : Type) × (Json → Option α)
  | text => ⟨_, Json.string?⟩
  | symName => ⟨_, SymName.ofJson?⟩
  | variance => ⟨_, Variance.ofJson?⟩
  | boundaries => ⟨_, Boundaries.ofJson?⟩
  | descriptor => ⟨_, Descriptor.ofJson?⟩
  | decl => ⟨_, Decl.ofJson?⟩
  | qualifier => ⟨_, readQualifier⟩
  | record r => r.reader
  | list f => ⟨_, readItems f.reader.2⟩
  | set e => ⟨_, readSet e.read⟩
  | multiMap e => ⟨_, MultiMap.ofJson? e.read e.read⟩

def Agrees (f : Format) : Json → Json → Prop :=
  TypeTag.Agrees f.reader.2

def EachAgrees : List Format → List Json → List Json → Prop
  | [], [], [] => True
  | f :: fs, x :: xs, y :: ys => f.Agrees x y ∧ EachAgrees fs xs ys
  | _, _, _ => False

end Format

theorem Agrees.refl {α : Type} (read : Json → Option α) (x : Json) : Agrees read x x :=
  fun _ h ↦ h

section Records

variable {δ : Type} {f : Format} {fs : List Format}

/-- What is read from fields depends on what is read from each. -/
def AgreesOn {δ : Type} (fs : List Format) (read : List Json → Option δ) : Prop :=
  ∀ xs ys, Format.EachAgrees fs xs ys → ∀ d, read xs = some d → read ys = some d

theorem agreesOn_readEnd {δ : Type} (d : δ) : AgreesOn [] (readEnd d) := by
  intro xs ys h
  match xs, ys, h with
  | [], [], _ => exact fun _ h ↦ h

theorem agreesOn_readField {rest : f.reader.1 → List Json → Option δ}
    (h : ∀ a, AgreesOn fs (rest a)) : AgreesOn (f :: fs) (readField f.reader.2 rest) := by
  intro xs ys hxs d hd
  match xs, ys, hxs with
  | x :: xs, y :: ys, ⟨hx, hxs⟩ =>
    obtain ⟨a, ha, hd⟩ := Option.bind_eq_some_iff.1 hd
    exact Option.bind_eq_some_iff.2 ⟨a, hx a ha, h a xs ys hxs d hd⟩

def Record.FieldsAgree (r : Record) (j j' : Json) : Prop :=
  ∀ xs, j.values? r.asArray r.names = some xs →
    ∃ ys, j'.values? r.asArray r.names = some ys ∧ Format.EachAgrees r.formats xs ys

theorem Record.FieldsAgree.agrees_of_eq {r : Record} {j j' : Json} (h : r.FieldsAgree j j')
    {read : Json → Option δ} {g : List Json → Option δ}
    (hread : ∀ j, read j = (j.values? r.asArray r.names).bind g) (hg : AgreesOn r.formats g) :
    Agrees read j j' := by
  intro d hd
  rw [hread] at hd
  obtain ⟨xs, hxs, hd⟩ := Option.bind_eq_some_iff.1 hd
  obtain ⟨ys, hys, hagree⟩ := h xs hxs
  rw [hread]
  exact Option.bind_eq_some_iff.2 ⟨ys, hys, hg xs ys hagree d hd⟩

theorem agreesOn₂ {f g : Format} (make : f.reader.1 → g.reader.1 → δ) :
    AgreesOn [f, g] (readField f.reader.2 fun a ↦ readField g.reader.2 fun b ↦
      readEnd (make a b)) :=
  agreesOn_readField fun _ ↦ agreesOn_readField fun _ ↦ agreesOn_readEnd _

theorem agreesOn₃ {f g h : Format} (make : f.reader.1 → g.reader.1 → h.reader.1 → δ) :
    AgreesOn [f, g, h] (readField f.reader.2 fun a ↦ readField g.reader.2 fun b ↦
      readField h.reader.2 fun c ↦ readEnd (make a b c)) :=
  agreesOn_readField fun _ ↦ agreesOn_readField fun _ ↦ agreesOn_readField fun _ ↦
    agreesOn_readEnd _

theorem Record.FieldsAgree.agrees {r : Record} {j j' : Json} (h : r.FieldsAgree j j') :
    (Format.record r).Agrees j j' := by
  cases r with
  | bounds => exact h.agrees_of_eq Boundaries.ofJson?_defined (agreesOn₂ _)
  | nameRef => exact h.agrees_of_eq NameRef.ofJson?_eq (agreesOn₃ _)
  | typeArg => exact h.agrees_of_eq TypeArg.ofJson?_eq (agreesOn₂ _)
  | full => exact h.agrees_of_eq Descriptor.ofJson?_full (agreesOn₃ _)
  | lambda => exact h.agrees_of_eq Descriptor.ofJson?_lambda (agreesOn₂ _)
  | intersection =>
    exact h.agrees_of_eq Descriptor.ofJson?_intersection
      (agreesOn_readField fun _ ↦ agreesOn_readEnd _)
  | refinement => exact h.agrees_of_eq Descriptor.ofJson?_refinement (agreesOn₂ _)
  | signature => exact h.agrees_of_eq Decl.ofJson?_signature (agreesOn₃ _)
  | typeMember => exact h.agrees_of_eq Decl.ofJson?_typeMember (agreesOn₂ _)
  | tag => exact h.agrees_of_eq Tag.ofJson?_eq (agreesOn₃ _)

end Records

namespace Json

variable {fs gs : List (String × Json)} {k n : String} {x y : Json}

theorem value_cons : value ((k, x) :: fs) n = if n = k then x else value fs n := by
  rw [value, lookup, value]
  split
  · rfl
  · cases lookup n fs <;> rfl

theorem value_of_notMem (h : n ∉ fs.map (·.1)) : value fs n = .null := by
  induction fs with
  | nil => rfl
  | cons e fs ih =>
    have hne : n ≠ e.1 := fun heq ↦ h (heq ▸ List.mem_cons_self)
    rw [value_cons, if_neg hne, ih fun hmem ↦ h (List.mem_cons_of_mem _ hmem)]

theorem value_append_congr (h : value fs n = value gs n) (es : List (String × Json)) :
    value (es ++ fs) n = value (es ++ gs) n := by
  induction es with
  | nil => exact h
  | cons e es ih => rw [List.cons_append, List.cons_append, value_cons, value_cons, ih]

theorem value_perm (hkeys : (fs.map (·.1)).Nodup) (h : fs.Perm gs) : value fs n = value gs n := by
  induction h with
  | nil => rfl
  | cons e _ ih => rw [value_cons, value_cons, ih (List.nodup_cons.1 hkeys).2]
  | swap e e' fs =>
    have hne : e'.1 ≠ e.1 := fun heq ↦ (List.nodup_cons.1 hkeys).1 (by simp [heq])
    rw [value_cons, value_cons, value_cons, value_cons]
    split <;> split <;> simp_all
  | trans hfs _ ih ih' => exact (ih hkeys).trans (ih' ((hfs.map _).nodup_iff.1 hkeys))

theorem value_append_field {f : Format} (h : f.Agrees x y) :
    f.Agrees (value (fs ++ (k, x) :: gs) k) (value (fs ++ (k, y) :: gs) k) := by
  induction fs with
  | nil => simpa [value_cons] using h
  | cons e fs ih =>
    rw [List.cons_append, List.cons_append, value_cons, value_cons]
    split
    · exact .refl _ _
    · exact ih

end Json

namespace Format

theorem eachAgrees_map {fields : List (String × Format)} {value value' : String → Json}
    (h : ∀ p ∈ fields, p.2.Agrees (value p.1) (value' p.1)) :
    EachAgrees (fields.map (·.2)) ((fields.map (·.1)).map value)
      ((fields.map (·.1)).map value') := by
  induction fields with
  | nil => trivial
  | cons p fields ih =>
    exact ⟨h p List.mem_cons_self, ih fun q hq ↦ h q (List.mem_cons_of_mem p hq)⟩

theorem eachAgrees_refl {fs : List Format} {xs : List Json} (h : xs.length = fs.length) :
    EachAgrees fs xs xs := by
  induction fs generalizing xs with
  | nil =>
    obtain rfl := List.length_eq_zero_iff.1 h
    trivial
  | cons f fs ih =>
    match xs, h with
    | x :: xs, h => exact ⟨.refl _ _, ih (Nat.succ.inj h)⟩

theorem eachAgrees_append {fs : List Format} {f : Format} {xs ys : List Json} {x y : Json}
    (hlen : (xs ++ x :: ys).length = fs.length) (hf : fs[xs.length]? = some f)
    (h : f.Agrees x y) : EachAgrees fs (xs ++ x :: ys) (xs ++ y :: ys) := by
  induction xs generalizing fs with
  | nil =>
    match fs, hlen, hf with
    | g :: fs, hlen, hf =>
      obtain rfl := Option.some.inj hf
      exact ⟨h, eachAgrees_refl (Nat.succ.inj hlen)⟩
  | cons z xs ih =>
    match fs, hlen, hf with
    | g :: fs, hlen, hf => exact ⟨.refl _ _, ih (Nat.succ.inj hlen) hf⟩

end Format

namespace Record

variable {r : Record} {fs gs : List (String × Json)}

theorem fieldsAgree_obj
    (h : ∀ p ∈ r.fields, p.2.Agrees (Json.value fs p.1) (Json.value gs p.1)) :
    r.FieldsAgree (.obj fs) (.obj gs) := by
  rintro xs ⟨⟩
  exact ⟨_, rfl, Format.eachAgrees_map h⟩

theorem fieldsAgree_obj_of_eq (h : ∀ n ∈ r.names, Json.value fs n = Json.value gs n) :
    r.FieldsAgree (.obj fs) (.obj gs) := by
  refine fieldsAgree_obj fun p hp ↦ ?_
  rw [h p.1 (List.mem_map_of_mem hp)]
  exact .refl _ _

theorem fieldsAgree_toArray (hr : r.asArray) :
    r.FieldsAgree (.obj fs) (.arr (r.names.map (Json.value fs))) := by
  rintro xs ⟨⟩
  refine ⟨r.names.map (Json.value fs), by simp [Json.values?, hr], Format.eachAgrees_refl ?_⟩
  simp [names, formats]

theorem names_nodup (r : Record) : r.names.Nodup := by
  cases r <;> decide

theorem fields_unique {k : String} {f g : Format} (hf : (k, f) ∈ r.fields)
    (hg : (k, g) ∈ r.fields) : f = g :=
  congrArg Prod.snd (List.inj_on_of_nodup_map r.names_nodup hf hg rfl)

theorem fieldsAgree_field {k : String} {f : Format} {x y : Json} (hk : (k, f) ∈ r.fields)
    (h : f.Agrees x y) : r.FieldsAgree (.obj (fs ++ (k, x) :: gs)) (.obj (fs ++ (k, y) :: gs)) := by
  refine fieldsAgree_obj fun ⟨n, g⟩ hp ↦ ?_
  by_cases hn : n = k
  · subst hn
    obtain rfl := fields_unique hk hp
    exact Json.value_append_field h
  · have hvalue : Json.value ((k, x) :: gs) n = Json.value ((k, y) :: gs) n := by
      rw [Json.value_cons, Json.value_cons, if_neg hn, if_neg hn]
    rw [Json.value_append_congr hvalue]
    exact .refl _ _

theorem fieldsAgree_arr {xs ys : List Json} {f : Format} {x y : Json}
    (hf : r.formats[xs.length]? = some f) (h : f.Agrees x y) :
    r.FieldsAgree (.arr (xs ++ x :: ys)) (.arr (xs ++ y :: ys)) := by
  intro zs hzs
  rw [Json.values?] at hzs
  split at hzs
  · next hlen =>
    cases hzs
    refine ⟨xs ++ y :: ys, ?_, Format.eachAgrees_append ?_ hf h⟩
    · simpa [Json.values?] using hlen
    · simpa [names, formats] using hlen.2
  · cases hzs

end Record

theorem readItems_arr {α : Type} (read : Json → Option α) (xs : List Json) :
    readItems read (.arr xs) = xs.mapM read := by
  let ps : List (Json.arr xs).Part := xs.attach.map fun x ↦
    ⟨x.1, by have := List.sizeOf_lt_of_mem x.2; simp; omega⟩
  calc
    readItems read (.arr xs) = ps.mapM (read ∘ Subtype.val) := rfl
    _ = (ps.map Subtype.val).mapM read := List.mapM_map.symm
    _ = xs.mapM read := by rw [List.map_map]; exact congrArg _ (List.attach_map_subtype_val xs)

theorem readItems_eq_some_iff {α : Type} {read : Json → Option α} {j : Json} {as : List α} :
    readItems read j = some as ↔ ∃ xs, j = .arr xs ∧ xs.mapM read = some as := by
  constructor
  · intro h
    cases j with
    | arr xs => exact ⟨xs, rfl, readItems_arr read xs ▸ h⟩
    | _ => cases h
  · rintro ⟨xs, rfl, h⟩
    exact (readItems_arr read xs).trans h

section Contents

variable {β γ : Type} {read : Json → Option β} {contents : β → γ → Prop} {xs ys : List Json}

def SameContents (read : Json → Option β) (contents : β → γ → Prop) (xs ys : List Json) : Prop :=
  ∀ as, xs.mapM read = some as → ∃ bs, ys.mapM read = some bs ∧
    ∀ c, (∃ a ∈ as, contents a c) ↔ ∃ b ∈ bs, contents b c

theorem SameContents.append (h : SameContents read contents xs ys) (ls rs : List Json) :
    SameContents read contents (ls ++ (xs ++ rs)) (ls ++ (ys ++ rs)) := by
  intro es hes
  obtain ⟨bs, ds, hbs, hds, rfl⟩ := mapM_append_eq_some.1 hes
  obtain ⟨as, cs, hxs, hcs, rfl⟩ := mapM_append_eq_some.1 hds
  obtain ⟨as', hys, hc⟩ := h as hxs
  refine ⟨bs ++ (as' ++ cs), mapM_append_eq_some.2 ⟨_, _, hbs, mapM_append_eq_some.2
    ⟨_, _, hys, hcs, rfl⟩, rfl⟩, fun c ↦ ?_⟩
  simp only [List.mem_append, or_and_right, exists_or, hc]

theorem SameContents.of_mem_iff (h : ∀ x, x ∈ xs ↔ x ∈ ys) : SameContents read contents xs ys := by
  intro as has
  have hread (y : Json) (hy : y ∈ ys) : ∃ b, read y = some b := by
    obtain ⟨a, -, ha⟩ := mapM_mem has ((h y).2 hy)
    exact ⟨a, ha⟩
  obtain ⟨bs, hbs⟩ := exists_mapM hread
  have hmem {us vs : List Json} {as bs : List β} (h : ∀ x, x ∈ us → x ∈ vs)
      (hus : us.mapM read = some as) (hvs : vs.mapM read = some bs) (a : β) (ha : a ∈ as) : a ∈ bs := by
    obtain ⟨x, hx, hxa⟩ := mem_mapM hus ha
    obtain ⟨b, hb, hxb⟩ := mapM_mem hvs (h x hx)
    cases hxa.symm.trans hxb
    exact hb
  have hiff (a : β) : a ∈ as ↔ a ∈ bs :=
    ⟨hmem (fun x ↦ (h x).1) has hbs a, hmem (fun x ↦ (h x).2) hbs has a⟩
  exact ⟨bs, hbs, fun c ↦ by simp only [hiff]⟩

theorem SameContents.single {x y : Json}
    (h : ∀ a, read x = some a → ∃ b, read y = some b ∧ ∀ c, contents a c ↔ contents b c) :
    SameContents read contents [x] [y] := by
  intro as has
  simp only [List.mapM_cons, List.mapM_nil, Option.pure_def, Option.bind_eq_bind,
    Option.bind_eq_some_iff, Option.some.injEq] at has
  obtain ⟨a, ha, -, rfl, rfl⟩ := has
  obtain ⟨b, hb, hc⟩ := h a ha
  exact ⟨[b], by simp [hb], by simpa using hc⟩

end Contents

theorem readSet_agrees {α : Type} [Ord α] [Std.TransOrd α] [Std.LawfulEqOrd α]
    {read : Json → Option α} {xs ys : List Json} (h : SameContents read Eq xs ys) :
    Agrees (readSet read) (.arr xs) (.arr ys) := by
  intro s hs
  obtain ⟨as, has, rfl⟩ := Option.map_eq_some_iff.1 hs
  rw [readItems_arr] at has
  obtain ⟨bs, hbs, hc⟩ := h as has
  refine Option.map_eq_some_iff.2 ⟨bs, by rw [readItems_arr, hbs], ?_⟩
  rw [SortedSet.ofList_eq_iff]
  simpa using fun a ↦ (hc a).symm

namespace MultiMap

variable {K V : Type} {key : Json → Option K} {value : Json → Option V} {xs ys : List Json}

def EntryHas (e : K × List V) (p : K × V) : Prop :=
  p.1 = e.1 ∧ p.2 ∈ e.2

theorem readPair?_pair (k vs : Json) : readPair? key value (.arr [k, vs]) =
    (key k).bind fun k ↦ (readItems value vs).map fun vs ↦ (k, vs) := by
  cases h : key k <;> simp [readPair?, Json.items?, h, readItems]
  cases readList? vs fun v _ ↦ value v <;> rfl

theorem readPair?_eq_some {k vs : Json} {e : K × List V}
    (h : readPair? key value (.arr [k, vs]) = some e) :
    key k = some e.1 ∧ readItems value vs = some e.2 := by
  rw [readPair?_pair] at h
  obtain ⟨k', hk, h⟩ := Option.bind_eq_some_iff.1 h
  obtain ⟨vs', hvs, rfl⟩ := Option.map_eq_some_iff.1 h
  exact ⟨hk, hvs⟩

theorem readPair?_of_eq_some {k vs : Json} {k' : K} {vs' : List V} (hk : key k = some k')
    (hvs : readItems value vs = some vs') :
    readPair? key value (.arr [k, vs]) = some (k', vs') := by
  rw [readPair?_pair, hk, hvs]
  rfl

theorem readPair?_eq_some_iff {x : Json} {e : K × List V} : readPair? key value x = some e ↔
    ∃ k values, x = .arr [k, .arr values] ∧ key k = some e.1 ∧ values.mapM value = some e.2 := by
  constructor
  · intro h
    obtain ⟨k, vs, rfl⟩ : ∃ k vs, x = .arr [k, vs] := by
      match x, h with
      | .arr [k, vs], _ => exact ⟨k, vs, rfl⟩
    obtain ⟨hk, hvs⟩ := readPair?_eq_some h
    obtain ⟨values, rfl, hvalues⟩ := readItems_eq_some_iff.1 hvs
    exact ⟨k, values, rfl, hk, hvalues⟩
  · rintro ⟨k, values, rfl, hk, hvalues⟩
    exact readPair?_of_eq_some hk (readItems_eq_some_iff.2 ⟨values, rfl, hvalues⟩)

theorem ofJson?_eq_some_iff [Ord K] [Ord V] {j : Json} {m : MultiMap K V} :
    ofJson? key value j = some m ↔ ∃ xs es, j = .arr xs ∧
      xs.mapM (readPair? key value) = some es ∧ ofEntries es = m := by
  have hread : ofJson? key value j = (readItems (readPair? key value) j).map ofEntries := by
    rw [Option.map_eq_bind]
    rfl
  rw [hread, Option.map_eq_some_iff]
  simp only [readItems_eq_some_iff]
  grind

theorem ofJson?_agrees [Ord K] [Ord V] [Std.TransOrd K] [Std.TransOrd V] [Std.LawfulEqOrd K]
    [Std.LawfulEqOrd V] (h : SameContents (readPair? key value) EntryHas xs ys) :
    Agrees (ofJson? key value) (.arr xs) (.arr ys) := by
  intro m hm
  obtain ⟨_, es, ⟨⟩, hes, rfl⟩ := ofJson?_eq_some_iff.1 hm
  obtain ⟨fs, hfs, hc⟩ := h es hes
  refine ofJson?_eq_some_iff.2 ⟨ys, fs, rfl, hfs, ofEntries_eq_of_mem_iff fun k v ↦ ?_⟩
  have hhas (es : List (K × List V)) :
      (∃ e ∈ es, EntryHas e (k, v)) ↔ ∃ vs, (k, vs) ∈ es ∧ v ∈ vs := by
    constructor
    · rintro ⟨⟨l, vs⟩, he, rfl, hv⟩
      exact ⟨vs, he, hv⟩
    · rintro ⟨vs, he, hv⟩
      exact ⟨(k, vs), he, rfl, hv⟩
  rw [← hhas, ← hhas]
  exact (hc (k, v)).symm

theorem sameContents_key {x y vs : Json} (h : Agrees key x y) :
    SameContents (readPair? key value) EntryHas [.arr [x, vs]] [.arr [y, vs]] := by
  refine .single fun e he ↦ ?_
  obtain ⟨hk, hvs⟩ := readPair?_eq_some he
  exact ⟨e, readPair?_of_eq_some (h _ hk) hvs, fun _ ↦ Iff.rfl⟩

theorem sameContents_values [Ord V] [Std.TransOrd V] [Std.LawfulEqOrd V] {k vs ws : Json}
    (h : Agrees (readSet value) vs ws) :
    SameContents (readPair? key value) EntryHas [.arr [k, vs]] [.arr [k, ws]] := by
  refine .single fun e he ↦ ?_
  obtain ⟨hk, hvs⟩ := readPair?_eq_some he
  obtain ⟨us, hus, hset⟩ := Option.map_eq_some_iff.1 (h _ (congrArg (Option.map _) hvs))
  refine ⟨(e.1, us), readPair?_of_eq_some hk hus, fun p ↦ ?_⟩
  rw [EntryHas, EntryHas, ← SortedSet.ofList_eq_iff.1 hset]

theorem sameContents_splitEntry {k : Json} {vs ws : List Json} :
    SameContents (readPair? key value) EntryHas [.arr [k, .arr (vs ++ ws)]]
      [.arr [k, .arr vs], .arr [k, .arr ws]] := by
  intro es hes
  simp only [List.mapM_cons, List.mapM_nil, Option.pure_def, Option.bind_eq_bind,
    Option.bind_eq_some_iff, Option.some.injEq] at hes
  obtain ⟨e, he, -, rfl, rfl⟩ := hes
  obtain ⟨hk, hvs⟩ := readPair?_eq_some he
  rw [readItems_arr] at hvs
  obtain ⟨as, bs, has, hbs, hab⟩ := mapM_append_eq_some.1 hvs
  rw [← readItems_arr] at has hbs
  refine ⟨[(e.1, as), (e.1, bs)], ?_, fun p ↦ ?_⟩
  · simp [readPair?_of_eq_some hk has, readPair?_of_eq_some hk hbs]
  · simp [EntryHas, hab, and_or_left]

theorem sameContents_emptyEntry {k : Json} (hk : (key k).isSome) :
    SameContents (readPair? key value) EntryHas [] [.arr [k, .arr []]] := by
  rintro es ⟨⟩
  obtain ⟨k', hk⟩ := Option.isSome_iff_exists.1 hk
  have hvs : readItems value (.arr []) = some [] := by rw [readItems_arr, List.mapM_nil]; rfl
  refine ⟨[(k', [])], by simp [readPair?_of_eq_some hk hvs], fun p ↦ ?_⟩
  simp [EntryHas]

end MultiMap
end TypeTag
