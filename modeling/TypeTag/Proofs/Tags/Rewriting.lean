import Mathlib.Logic.Relation
import TypeTag.Proofs.Tags.Formats

namespace TypeTag

namespace Format

def variants : Format → List (String × Format)
  | boundaries => [("Defined", .record .bounds)]
  | descriptor => [("Name", .record .nameRef), ("Full", .record .full),
      ("Lambda", .record .lambda), ("Intersection", .record .intersection),
      ("Refinement", .record .refinement)]
  | decl => [("Signature", .record .signature), ("TypeMember", .record .typeMember)]
  | _ => []

def bareVariants : Format → List String
  | variance => ["Invariant", "Covariant", "Contravariant"]
  | boundaries => ["Empty"]
  | _ => []

end Format

/-- One rewriting of a JSON value of a format. The records of which `arrays` holds may become arrays
of their fields. -/
inductive Rewrites (arrays : Record → Prop) : Format → Json → Json → Prop
  | reorder {r : Record} {fs gs : List (String × Json)} (hkeys : (fs.map (·.1)).Nodup)
    (h : fs.Perm gs) : Rewrites arrays (.record r) (.obj fs) (.obj gs)
  | unknownField {r : Record} {fs gs : List (String × Json)} {k : String} (x : Json)
    (hk : k ∉ r.names) : Rewrites arrays (.record r) (.obj (fs ++ gs)) (.obj (fs ++ (k, x) :: gs))
  | dropNull {r : Record} {fs gs : List (String × Json)} (hr : "prefix" ∈ r.names)
    (hkeys : "prefix" ∉ gs.map (·.1)) :
    Rewrites arrays (.record r) (.obj (fs ++ ("prefix", .null) :: gs)) (.obj (fs ++ gs))
  | toArray {r : Record} {fs : List (String × Json)} (hr : arrays r) :
    Rewrites arrays (.record r) (.obj fs) (.arr (r.names.map (Json.value fs)))
  | field {r : Record} {fs gs : List (String × Json)} {k : String} {f : Format} {x y : Json}
    (hk : (k, f) ∈ r.fields) (h : Rewrites arrays f x y) :
    Rewrites arrays (.record r) (.obj (fs ++ (k, x) :: gs)) (.obj (fs ++ (k, y) :: gs))
  | arrayField {r : Record} {xs ys : List Json} {f : Format} {x y : Json}
    (hf : r.formats[xs.length]? = some f) (h : Rewrites arrays f x y) :
    Rewrites arrays (.record r) (.arr (xs ++ x :: ys)) (.arr (xs ++ y :: ys))
  | bareObject {f : Format} {s : String} (hs : s ∈ f.bareVariants) :
    Rewrites arrays f (.str s) (.obj [(s, .null)])
  | body {f g : Format} {k : String} {x y : Json} (hk : (k, g) ∈ f.variants)
    (h : Rewrites arrays g x y) : Rewrites arrays f (.obj [(k, x)]) (.obj [(k, y)])
  | qualifier {x y : Json} (h : Rewrites arrays .descriptor x y) : Rewrites arrays .qualifier x y
  | item {f : Format} {xs ys : List Json} {x y : Json} (h : Rewrites arrays f x y) :
    Rewrites arrays (.list f) (.arr (xs ++ x :: ys)) (.arr (xs ++ y :: ys))
  | element {e : Element} {xs ys : List Json} {x y : Json} (h : Rewrites arrays e.format x y) :
    Rewrites arrays (.set e) (.arr (xs ++ x :: ys)) (.arr (xs ++ y :: ys))
  | permuteElements {e : Element} {xs ys : List Json} (h : xs.Perm ys) :
    Rewrites arrays (.set e) (.arr xs) (.arr ys)
  | repeatElement {e : Element} {xs : List Json} {x : Json} (h : x ∈ xs) :
    Rewrites arrays (.set e) (.arr xs) (.arr (x :: xs))
  | key {e : Element} {es fs : List Json} {x y vs : Json} (h : Rewrites arrays e.format x y) :
    Rewrites arrays (.multiMap e) (.arr (es ++ .arr [x, vs] :: fs)) (.arr (es ++ .arr [y, vs] :: fs))
  | values {e : Element} {es fs : List Json} {k vs ws : Json} (h : Rewrites arrays (.set e) vs ws) :
    Rewrites arrays (.multiMap e) (.arr (es ++ .arr [k, vs] :: fs)) (.arr (es ++ .arr [k, ws] :: fs))
  | permuteEntries {e : Element} {es fs : List Json} (h : es.Perm fs) :
    Rewrites arrays (.multiMap e) (.arr es) (.arr fs)
  | splitEntry {e : Element} {es fs vs ws : List Json} {k : Json} :
    Rewrites arrays (.multiMap e) (.arr (es ++ .arr [k, .arr (vs ++ ws)] :: fs))
      (.arr (es ++ .arr [k, .arr vs] :: .arr [k, .arr ws] :: fs))
  | emptyEntry {e : Element} {es fs : List Json} {k : Json} (hk : (e.read k).isSome) :
    Rewrites arrays (.multiMap e) (.arr (es ++ fs)) (.arr (es ++ .arr [k, .arr []] :: fs))

theorem Element.agrees_format {e : Element} {x y : Json} (h : e.format.Agrees x y) :
    Agrees e.read x y := by
  cases e <;> exact h

theorem readQualifier_of_ne_null {x : Json} (h : x ≠ .null) :
    readQualifier x = (Descriptor.ofJson? x).map some := by
  cases x with
  | null => cases h rfl
  | _ => rfl

namespace Format

variable {f g : Format} {x y : Json}

theorem agrees_bareObject {s : String} (hs : s ∈ f.bareVariants) :
    f.Agrees (.str s) (.obj [(s, .null)]) := by
  cases f with
  | variance => exact fun _ h ↦ h
  | boundaries =>
    obtain rfl := List.mem_singleton.1 hs
    exact fun _ h ↦ h
  | _ => cases hs

theorem agrees_body {k : String} (hk : (k, g) ∈ f.variants) (h : g.Agrees x y) :
    f.Agrees (.obj [(k, x)]) (.obj [(k, y)]) := by
  cases f with
  | boundaries =>
    obtain ⟨rfl, rfl⟩ := Prod.mk.inj (List.mem_singleton.1 hk)
    exact h
  | descriptor =>
    simp only [variants, List.mem_cons, Prod.mk.injEq, List.not_mem_nil, or_false] at hk
    obtain ⟨rfl, rfl⟩ | ⟨rfl, rfl⟩ | ⟨rfl, rfl⟩ | ⟨rfl, rfl⟩ | ⟨rfl, rfl⟩ := hk
    · intro d hd
      obtain ⟨n, hn, rfl⟩ := Option.map_eq_some_iff.1 ((Descriptor.ofJson?_name x).symm.trans hd)
      exact (Descriptor.ofJson?_name y).trans (congrArg (Option.map _) (h n hn))
    all_goals exact h
  | decl =>
    simp only [variants, List.mem_cons, Prod.mk.injEq, List.not_mem_nil, or_false] at hk
    obtain ⟨rfl, rfl⟩ | ⟨rfl, rfl⟩ := hk <;> exact h
  | _ => cases hk

theorem agrees_qualifier (hx : x ≠ .null) (h : descriptor.Agrees x y) : qualifier.Agrees x y := by
  intro q hq
  obtain ⟨d, hd, rfl⟩ := Option.map_eq_some_iff.1 ((readQualifier_of_ne_null hx).symm.trans hq)
  have hd' : Descriptor.ofJson? y = some d := h d hd
  have hy : y ≠ .null := by
    rintro rfl
    rw [Descriptor.ofJson?_null] at hd'
    cases hd'
  exact (readQualifier_of_ne_null hy).trans (congrArg (Option.map _) hd')

theorem agrees_item {xs ys : List Json} (h : f.Agrees x y) :
    (list f).Agrees (.arr (xs ++ x :: ys)) (.arr (xs ++ y :: ys)) := by
  intro as has
  refine (readItems_arr _ _).trans ?_
  replace has := (readItems_arr _ _).symm.trans has
  obtain ⟨bs, cs, hbs, hcs, rfl⟩ := mapM_append_eq_some.1 has
  rw [List.mapM_cons] at hcs
  obtain ⟨a, ha, hcs⟩ := Option.bind_eq_some_iff.1 hcs
  refine mapM_append_eq_some.2 ⟨bs, cs, hbs, ?_, rfl⟩
  rw [List.mapM_cons]
  exact Option.bind_eq_some_iff.2 ⟨a, h a ha, hcs⟩

end Format

/-- A rewriting changes nothing about what is read. -/
theorem Rewrites.agrees {f : Format} {x y : Json} (h : Rewrites (·.asArray) f x y) :
    f.Agrees x y := by
  induction h with
  | reorder hkeys h =>
    exact (Record.fieldsAgree_obj_of_eq fun n _ ↦ Json.value_perm hkeys h).agrees
  | @unknownField r fs gs k x hk =>
    refine (Record.fieldsAgree_obj_of_eq fun n hn ↦ Json.value_append_congr ?_ _).agrees
    have hne : n ≠ k := fun heq ↦ hk (heq ▸ hn)
    rw [Json.value_cons, if_neg hne]
  | dropNull hr hkeys =>
    refine (Record.fieldsAgree_obj_of_eq fun n hn ↦ Json.value_append_congr ?_ _).agrees
    rw [Json.value_cons]
    split
    · next heq => rw [heq, Json.value_of_notMem hkeys]
    · rfl
  | toArray hr => exact (Record.fieldsAgree_toArray hr).agrees
  | field hk _ ih => exact (Record.fieldsAgree_field hk ih).agrees
  | arrayField hf _ ih => exact (Record.fieldsAgree_arr hf ih).agrees
  | bareObject hs => exact Format.agrees_bareObject hs
  | body hk _ ih => exact Format.agrees_body hk ih
  | qualifier h ih => exact Format.agrees_qualifier (by rintro rfl; cases h) ih
  | item _ ih => exact Format.agrees_item ih
  | @element e xs ys x y _ ih =>
    have hsame : SameContents e.read Eq [x] [y] :=
      .single fun a ha ↦ ⟨a, Element.agrees_format ih a ha, fun _ ↦ Iff.rfl⟩
    exact readSet_agrees (hsame.append xs ys)
  | permuteElements h => exact readSet_agrees (.of_mem_iff fun _ ↦ h.mem_iff)
  | repeatElement h => exact readSet_agrees (.of_mem_iff fun _ ↦ by simp +contextual [h])
  | @key _ es fs _ _ _ _ ih =>
    exact MultiMap.ofJson?_agrees
      ((MultiMap.sameContents_key (Element.agrees_format ih)).append es fs)
  | @values _ es fs _ _ _ _ ih =>
    exact MultiMap.ofJson?_agrees ((MultiMap.sameContents_values ih).append es fs)
  | permuteEntries h => exact MultiMap.ofJson?_agrees (.of_mem_iff fun _ ↦ h.mem_iff)
  | @splitEntry _ es fs =>
    exact MultiMap.ofJson?_agrees (MultiMap.sameContents_splitEntry.append es fs)
  | @emptyEntry _ es fs _ hk =>
    exact MultiMap.ofJson?_agrees ((MultiMap.sameContents_emptyEntry hk).append es fs)

theorem MultiMap.reached_of_ofJson? {K V : Type} [Ord K] [Ord V] {key : Json → Option K}
    {value : Json → Option V} {P : K → Prop} {Q : V → Prop} {j : Json} {m : MultiMap K V}
    (h : ofJson? key value j = some m) (hk : ∀ x k, key x = some k → P k)
    (hv : ∀ x v, value x = some v → Q v) : m.Reached P Q := by
  obtain ⟨_, es, -, hes, rfl⟩ := ofJson?_eq_some_iff.1 h
  refine .ofEntries fun e he ↦ ?_
  obtain ⟨x, -, hx⟩ := mem_mapM hes he
  obtain ⟨k, values, -, hk', hvalues⟩ := readPair?_eq_some_iff.1 hx
  refine ⟨hk k _ hk', fun v hmem ↦ ?_⟩
  obtain ⟨y, -, hy⟩ := mem_mapM hvalues hmem
  exact hv y v hy

namespace Tag

theorem ofJson?_toJson_of_ofJson? {j : Json} {t : Tag} (h : ofJson? j = some t) :
    ofJson? t.toJson = some t := by
  obtain ⟨ps, -, h⟩ := Option.bind_eq_some_iff.1 h
  split at h
  · obtain ⟨r, hr, h⟩ := Option.bind_eq_some_iff.1 h
    obtain ⟨s, hs, h⟩ := Option.bind_eq_some_iff.1 h
    obtain ⟨u, hu, h⟩ := Option.bind_eq_some_iff.1 h
    cases h
    exact ofJson?_toJson_of_canonical (Descriptor.canonical_of_ofJson? hr)
      (MultiMap.reached_of_ofJson? hs (fun _ _ ↦ Descriptor.canonical_of_ofJson?)
        fun _ _ ↦ Descriptor.canonical_of_ofJson?)
      (MultiMap.reached_of_ofJson? hu (fun _ _ ↦ NameRef.canonical_of_ofJson?)
        fun _ _ ↦ NameRef.canonical_of_ofJson?)
  · cases h

/-- However a tag's JSON is rewritten, it is read as the same tag, and that has one written form,
which is read as the tag too. -/
theorem ofJson?_of_rewrites {j j' : Json} {t : Tag} (hj : ofJson? j = some t)
    (h : Relation.ReflTransGen (Rewrites (·.asArray) (.record .tag)) j j') :
    ofJson? j' = some t ∧ (ofJson? j').map toJson = some t.toJson ∧ ofJson? t.toJson = some t := by
  have hj' : ofJson? j' = some t := by
    induction h with
    | refl => exact hj
    | tail _ hstep ih => exact hstep.agrees t ih
  exact ⟨hj', by rw [hj']; rfl, ofJson?_toJson_of_ofJson? hj⟩

section Sample

def nameJson (s : String) (boundaries : Json) : Json :=
  .obj [("Name", .obj [("name", (SymName.type s).toJson), ("boundaries", boundaries),
    ("prefix", .null)])]

def plainJson (reference : Json) : Json :=
  .obj [("reference", reference), ("stable_bases", .arr []), ("unapplied_inheritance", .arr [])]

theorem ofJson?_plainJson (d : Descriptor) (h : d.Canonical) : ofJson? (plainJson d.toJson) =
    some { reference := d, stableBases := .empty, unapplied := .empty } := by
  refine Eq.trans ?_ (ofJson?_toJson_of_canonical h .empty .empty)
  rfl

/-- The null qualifier is dropped, an unknown field added, an entry without values added, and the
tag made an array. -/
theorem ofJson?_rewritten :
    ofJson? (.arr [.obj [("Name", .obj [("name", (SymName.type "A").toJson),
      ("boundaries", .str "Empty")])], .arr [.arr [nameJson "B" (.str "Empty"), .arr []]],
      .arr []]) =
    some { reference := .typeName "A", stableBases := .empty, unapplied := .empty } := by
  let name : Json := .obj [("Name", .obj [("name", (SymName.type "A").toJson),
    ("boundaries", .str "Empty")])]
  let edges : Json := .arr [.arr [nameJson "B" (.str "Empty"), .arr []]]
  let rest : List (String × Json) := [("stable_bases", .arr []), ("unapplied_inheritance", .arr [])]
  have hprefix : Rewrites (·.asArray) .descriptor (nameJson "A" (.str "Empty")) name :=
    .body List.mem_cons_self (@Rewrites.dropNull _ .nameRef
      [("name", (SymName.type "A").toJson), ("boundaries", .str "Empty")] [] (by decide) (by decide))
  have hreference : Rewrites (·.asArray) (.record .tag)
      (plainJson (nameJson "A" (.str "Empty"))) (.obj (("reference", name) :: rest)) :=
    @Rewrites.field _ .tag [] rest "reference" .descriptor _ _ List.mem_cons_self hprefix
  have hnote : Rewrites (·.asArray) (.record .tag) (.obj (("reference", name) :: rest))
      (.obj (("note", .num 1) :: ("reference", name) :: rest)) :=
    @Rewrites.unknownField _ .tag [] (("reference", name) :: rest) "note" (.num 1) (by decide)
  have hkey : ((Element.descriptor).read (nameJson "B" (.str "Empty"))).isSome := by
    have hread : Descriptor.ofJson? (nameJson "B" (.str "Empty")) = some (.typeName "B") :=
      Descriptor.ofJson?_toJson_of_canonical (Descriptor.canonical_typeName "B")
    exact Option.isSome_iff_exists.2 ⟨_, hread⟩
  have hentry : Rewrites (·.asArray) (.multiMap .descriptor) (.arr []) edges :=
    @Rewrites.emptyEntry _ .descriptor [] [] _ hkey
  have hedges : Rewrites (·.asArray) (.record .tag)
      (.obj (("note", .num 1) :: ("reference", name) :: rest))
      (.obj [("note", .num 1), ("reference", name), ("stable_bases", edges),
        ("unapplied_inheritance", .arr [])]) :=
    @Rewrites.field _ .tag [("note", .num 1), ("reference", name)]
      [("unapplied_inheritance", .arr [])] "stable_bases" (.multiMap .descriptor) _ _
      (.tail _ List.mem_cons_self) hentry
  have harray : Rewrites (·.asArray) (.record .tag)
      (.obj [("note", .num 1), ("reference", name), ("stable_bases", edges),
        ("unapplied_inheritance", .arr [])]) (.arr [name, edges, .arr []]) :=
    @Rewrites.toArray _ .tag _ rfl
  exact (ofJson?_of_rewrites (ofJson?_plainJson _ (Descriptor.canonical_typeName "A"))
    ((((Relation.ReflTransGen.single hreference).tail hnote).tail hedges).tail harray)).1

/-- Bounds are the fields of a variant, and those are not read from an array. -/
theorem arrayBounds_not_read : ¬∀ (j j' : Json) (t : Tag), ofJson? j = some t →
    Relation.ReflTransGen (Rewrites (fun _ ↦ True) (.record .tag)) j j' → ofJson? j' = some t := by
  intro h
  let l := (Descriptor.typeName "B").toJson
  let bounds : Json := .obj [("lower", l), ("upper", l)]
  let bounded : Boundaries Descriptor := .defined (.typeName "B") (.typeName "B")
  have hcanonical : (Descriptor.name { name := .type "A", boundaries := bounded }).Canonical := by
    refine Descriptor.canonical_iff.2 ⟨trivial, fun e he ↦ ?_⟩
    obtain rfl : e = .typeName "B" := by
      simpa [Descriptor.parts, NameRef.types, Boundaries.types, bounded] using he
    exact Descriptor.canonical_typeName _
  have hbounds : Rewrites (fun _ ↦ True) (.record .bounds) bounds (.arr [l, l]) :=
    @Rewrites.toArray _ .bounds _ trivial
  have hname : Rewrites (fun _ ↦ True) .descriptor
      (nameJson "A" (.obj [("Defined", bounds)])) (nameJson "A" (.obj [("Defined", .arr [l, l])])) :=
    .body List.mem_cons_self (@Rewrites.field _ .nameRef [("name", (SymName.type "A").toJson)]
      [("prefix", .null)] "boundaries" .boundaries _ _ (.tail _ List.mem_cons_self)
      (.body List.mem_cons_self hbounds))
  have htag : Rewrites (fun _ ↦ True) (.record .tag)
      (plainJson (nameJson "A" (.obj [("Defined", bounds)])))
      (plainJson (nameJson "A" (.obj [("Defined", .arr [l, l])]))) :=
    @Rewrites.field _ .tag [] _ "reference" .descriptor _ _ List.mem_cons_self hname
  have hread := h _ _ _ (ofJson?_plainJson _ hcanonical) (.single htag)
  have hunread : NameRef.ofJson? (.obj [("name", (SymName.type "A").toJson),
      ("boundaries", .obj [("Defined", .arr [l, l])]), ("prefix", .null)]) = none := by
    have hbounds : Boundaries.ofJson? (.obj [("Defined", .arr [l, l])]) = none :=
      Boundaries.ofJson?_defined _
    rw [NameRef.ofJson?_eq]
    simp [Json.values?, Json.value, Json.lookup, readField, hbounds]
  have hreference : Descriptor.ofJson? (nameJson "A" (.obj [("Defined", .arr [l, l])])) = none := by
    rw [nameJson, Descriptor.ofJson?_name, hunread]
    rfl
  rw [ofJson?_eq] at hread
  simp [plainJson, Json.values?, Json.value, Json.lookup, readField, hreference] at hread

end Sample

end Tag

end TypeTag
