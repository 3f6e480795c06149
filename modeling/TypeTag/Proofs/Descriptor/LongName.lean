import TypeTag.Proofs.Descriptor.Written

namespace TypeTag

open Text (Marked EndsWords marked_of_all separated_append_inj closed_append_inj)

namespace Descriptor

section Ends

inductive Stops : List Char → Prop
  | nil : Stops []
  | mark {c : Char} (t : List Char) (h : c ∈ [',', ']', '>', ' ', '\x7d', ')', ';']) : Stops (c :: t)
  | dots (t : List Char) : Stops ('.' :: '.' :: t)

inductive StopsLink : List Char → Prop
  | stops {r : List Char} (h : Stops r) : StopsLink r
  | colons (t : List Char) : StopsLink (':' :: ':' :: t)

variable {r : List Char}

theorem endsName_cons {c : Char} (t : List Char) (hname : isNameChar c = false) (hdot : c ≠ '.')
    (hcolon : c ≠ ':') : EndsName (c :: t) := by
  have hdigit : c.isDigit = false := by
    simp [isNameChar, Char.isAlphanum] at hname
    exact hname.1.2
  cases t with
  | nil => exact ⟨hname, hdigit⟩
  | cons d t =>
    exact ⟨⟨hname, fun h ↦ absurd h hdot⟩, hdigit, fun h ↦ absurd h hcolon⟩

theorem Stops.endsName (h : Stops r) : EndsName r := by
  cases h with
  | nil => exact ⟨trivial, trivial⟩
  | mark t h =>
    have hmarks : ([',', ']', '>', ' ', '\x7d', ')', ';'].all fun c ↦
        !isNameChar c && c != '.' && c != ':') = true := by decide
    have hmark := List.all_eq_true.1 hmarks _ h
    simp only [Bool.and_eq_true, Bool.not_eq_true', bne_iff_ne] at hmark
    exact endsName_cons t hmark.1.1 hmark.1.2 hmark.2
  | dots t => exact ⟨⟨by decide, fun _ ↦ by decide⟩, by decide, fun h ↦ absurd h (by decide)⟩

theorem StopsLink.endsName (h : StopsLink r) : EndsName r := by
  cases h with
  | stops h => exact h.endsName
  | colons t => exact ⟨⟨by decide, fun h ↦ absurd h (by decide)⟩, by decide, fun _ ↦ by decide⟩

theorem Stops.ne_colon (h : Stops r) (t : List Char) : r ≠ ':' :: t := by
  cases h with
  | nil => exact (List.cons_ne_nil ':' t).symm
  | mark u h =>
    intro heq
    rw [(List.cons.inj heq).1] at h
    exact absurd h (by decide)
  | dots u => exact fun h ↦ absurd (List.cons.inj h).1 (by decide)

theorem StopsLink.ne_cons (h : StopsLink r) {c : Char} (hc : c = '|' ∨ c = '[') (t : List Char) :
    r ≠ c :: t := by
  intro heq
  subst heq
  cases h with
  | stops h =>
    cases h with
    | mark u h => rcases hc with rfl | rfl <;> exact absurd h (by decide)
    | dots u => exact absurd hc (by decide)
  | colons u => exact absurd hc (by decide)

end Ends

section Openings

variable {c c' : Char} {a b d : Descriptor}

def opensName (c : Char) : Bool :=
  c == '"' || c == '%' || c.isAlpha

/-- The first character of a text tells the kind of the descriptor that it begins with. -/
def Opening : Descriptor → Char → Prop
  | name _, c | full .., c => opensName c = true
  | lambda .., c => c = 'λ'
  | intersection _, c => c = '\x7b'
  | refinement .., c => c = '('

theorem opening_of_link (hd : d.Plain) (hq : d.qualifier? = none) :
    ∃ c t, d.written = c :: t ∧ d.Opening c := by
  have hname {s : SymName} (hs : d.symName? = some s) (hplain : s.Plain) :
      ∃ c t, d.written = c :: t ∧ opensName c = true := by
    obtain ⟨c, u, hu, hc⟩ := hplain.cases
    refine ⟨c, u ++ d.writtenTail, by rw [written_named hs hq, hu, List.cons_append], ?_⟩
    rcases hc with ⟨rfl, -⟩ | ⟨rfl, -⟩ | ⟨hc, -⟩
    · rfl
    · rfl
    · simp [opensName, hc]
  cases d with
  | name n => exact hname rfl hd.self.1
  | full s as q => exact hname rfl hd.self.1
  | lambda ps e => exact ⟨_, _, written_lambda ps e, rfl⟩
  | intersection ps => exact ⟨_, _, written_intersection ps, rfl⟩
  | refinement e ds => exact ⟨_, _, written_refinement e ds, rfl⟩

theorem exists_opening (hd : d.Plain) :
    ∃ a : Descriptor, ∃ c t, d.written = c :: t ∧ a.Opening c ∧ a.isApplied = d.isApplied := by
  induction d using parts_induction with
  | step d ih =>
    cases hq : d.qualifier? with
    | none =>
      obtain ⟨c, t, ht, hc⟩ := opening_of_link hd hq
      exact ⟨d, c, t, ht, hc, rfl⟩
    | some q =>
      have hmem := mem_parts_of_qualifier? hq
      obtain ⟨a, c, t, ht, hc, ha⟩ := ih q hmem (hd.of_part hmem)
      refine ⟨a, c, _, by rw [written_qualified hq, ht, List.cons_append], hc, ?_⟩
      rw [ha, (hd.qualifier hq).2, isApplied_of_qualifier? hq]

theorem Opening.kind (ha : a.Opening c) (hb : b.Opening c) :
    a.isApplied = b.isApplied ∧ a.isNamed = b.isNamed ∧ a.isIntersection = b.isIntersection ∧
      a.isRefinement = b.isRefinement := by
  have hmarks : opensName 'λ' = false ∧ opensName '\x7b' = false ∧ opensName '(' = false := by
    decide
  cases a <;> cases b <;>
    simp_all [Opening, isNamed, isApplied, isIntersection, isRefinement]

theorem isApplied_eq_of_append {r s : List Char} (ha : a.Plain) (hb : b.Plain)
    (h : a.written ++ r = b.written ++ s) : a.isApplied = b.isApplied := by
  obtain ⟨a', c, t, ht, hc, ha'⟩ := exists_opening ha
  obtain ⟨b', c', t', ht', hc', hb'⟩ := exists_opening hb
  rw [ht, ht'] at h
  rw [← (List.cons.inj h).1] at hc'
  rw [← ha', ← hb']
  exact (hc.kind hc').1

theorem not_opening (hc : c = '\x7d' ∨ c = ')') (a : Descriptor) : ¬ a.Opening c := by
  rcases hc with rfl | rfl <;> cases a <;> simp [Opening, opensName]

end Openings

section Told

variable {d e : Descriptor} {r s : List Char}

/-- The text of the descriptor is told from what follows it and from that of any other. -/
def Told (d : Descriptor) : Prop :=
  ∀ e : Descriptor, e.Plain → ∀ r s, Stops r → Stops s →
    d.written ++ r = e.written ++ s → d = e ∧ r = s

def LinkTold (d : Descriptor) : Prop :=
  ∀ e : Descriptor, e.Plain ∧ e.isApplied = true ∧ e.qualifier? = none →
    ∀ r s, StopsLink r → StopsLink s → d.written ++ r = e.written ++ s → d = e ∧ r = s

theorem list_append_inj {ps qs : List Descriptor} {sep : List Char} {close : Char}
    (hsep : ∀ t, Stops (sep ++ t)) (hclose : close = '\x7d' ∨ close = ')')
    (hne : ∀ t u, close :: t ≠ sep ++ u)
    (hps : ∀ p ∈ ps, p.Plain ∧ p.Told) (hqs : ∀ q ∈ qs, q.Plain)
    (h : sep.intercalate (ps.map written) ++ close :: r =
      sep.intercalate (qs.map written) ++ close :: s) : ps = qs ∧ r = s := by
  have hstops (t : List Char) : Stops (close :: t) := by
    rcases hclose with rfl | rfl <;> exact .mark t (by decide)
  refine closed_append_inj hsep hstops hne (fun p t u hp hopen ↦ ?_)
    (fun p hp q hq ↦ (hps p hp).2 q (hqs q hq)) h
  have hplain : p.Plain := hp.elim (fun hp ↦ (hps p hp).1) (fun hp ↦ hqs p hp)
  obtain ⟨a, c, v, hv, ha, -⟩ := exists_opening hplain
  rw [hv, List.cons_append] at hopen
  rw [(List.cons.inj hopen).1] at ha
  exact not_opening hclose a ha

theorem marker_inj {v w : Variance} (h : v.marker = w.marker) : v = w := by
  cases v <;> cases w <;> first | rfl | exact absurd h (by decide)

theorem arg_append_inj {a b : TypeArg Descriptor} (ha : a.reference.Told) (hb : b.reference.Plain)
    (hr : Stops r) (hs : Stops s) (h : writtenArg a ++ r = writtenArg b ++ s) : a = b ∧ r = s := by
  obtain ⟨d, v⟩ := a
  obtain ⟨e, w⟩ := b
  obtain ⟨hmarker, hrest⟩ := List.cons.inj h
  have hvw : v = w := marker_inj hmarker
  obtain ⟨rfl, hrs⟩ := ha e hb r s hr hs hrest
  exact ⟨by rw [hvw], hrs⟩

theorem args_append_inj {as bs : List (TypeArg Descriptor)} (has : ∀ a ∈ as, a.reference.Told)
    (hbs : ∀ b ∈ bs, b.reference.Plain)
    (h : [',', ' '].intercalate (as.map writtenArg) ++ ']' :: r =
      [',', ' '].intercalate (bs.map writtenArg) ++ ']' :: s) : as = bs ∧ r = s := by
  have hstart (a : TypeArg Descriptor) (t u : List Char) : writtenArg a ++ t ≠ ']' :: u := by
    obtain ⟨d, v⟩ := a
    intro h
    have hmarker : v.marker = ']' := (List.cons.inj h).1
    cases v <;> exact absurd hmarker (by decide)
  exact closed_append_inj (fun u ↦ .mark _ (by decide)) (fun u ↦ .mark u (by decide)) (by simp)
    (fun a t u _ ↦ hstart a t u)
    (fun a ha b hb _ _ hr hs ↦ arg_append_inj (has a ha) (hbs b hb) hr hs) h

theorem bounds_append_inj {b b' : Boundaries Descriptor} (hb : ∀ d ∈ b.types, d.Told)
    (hb' : ∀ d ∈ b'.types, d.Plain) (hr : StopsLink r) (hs : StopsLink s)
    (h : writtenBounds b ++ r = writtenBounds b' ++ s) : b = b' ∧ r = s := by
  cases b with
  | empty =>
    cases b' with
    | empty => exact ⟨rfl, h⟩
    | defined l u => exact absurd h (hr.ne_cons (.inl rfl) _)
  | defined l u =>
    cases b' with
    | empty => exact absurd h.symm (hs.ne_cons (.inl rfl) _)
    | defined l' u' =>
      simp only [writtenBounds, List.cons_append, List.append_assoc, List.cons.injEq, true_and,
        List.nil_append] at h
      have hl := hb l (by simp [Boundaries.types])
      have hu := hb u (by simp [Boundaries.types])
      -- the dots end a dotted name, since no word follows the first of them
      obtain ⟨rfl, hrest⟩ := hl l' (hb' l' (by simp [Boundaries.types])) _ _ (.dots _) (.dots _) h
      simp only [List.cons.injEq, true_and] at hrest
      obtain ⟨rfl, hend⟩ := hu u' (hb' u' (by simp [Boundaries.types])) _ _ (.mark r (by decide))
        (.mark s (by decide)) hrest
      exact ⟨rfl, (List.cons.inj hend).2⟩

theorem IsWord.marked {t : String} (h : IsWord t) : Marked isNameChar '.' t.toList :=
  ⟨[t.toList], List.cons_ne_nil _ _, fun w hw ↦ by
    rw [List.mem_singleton.1 hw]
    exact ⟨by simpa using h.1, h.2.1⟩, List.intercalate_singleton.symm⟩

theorem decl_append_inj {c c' : Decl Descriptor} (hc : ∀ d ∈ c.types, d.Plain ∧ d.Told)
    (hc' : ∀ d ∈ c'.types, d.Plain) (hword : IsWord c.name) (hword' : IsWord c'.name)
    (hr : Stops r) (hs : Stops s) (h : writtenDecl c ++ r = writtenDecl c' ++ s) :
    c = c' ∧ r = s := by
  have hname {m m' : String} {p : Char} {u v : List Char} (hm : IsWord m) (hm' : IsWord m')
      (hp : p = '(' ∨ p = ' ') (h : m.toList ++ p :: u = m'.toList ++ p :: v) : m = m' ∧ u = v := by
    have hends (w : List Char) : EndsWords isNameChar '.' (p :: w) := by
      rcases hp with rfl | rfl <;> exact (endsName_cons w (by decide) (by decide) (by decide)).1
    obtain ⟨heq, hrest⟩ := Marked.append_inj (IsWord.marked hm) (IsWord.marked hm')
      (hends u) (hends v) h
    exact ⟨String.toList_injective heq, (List.cons.inj hrest).2⟩
  cases c with
  | signature m ps t =>
    cases c' with
    | signature m' ps' t' =>
      simp only [writtenDecl, List.append_assoc, List.cons_append] at h
      obtain ⟨rfl, hparams⟩ := hname hword hword' (.inl rfl) (List.append_cancel_left h)
      obtain ⟨rfl, hresult⟩ := list_append_inj (fun u ↦ .mark _ (by decide)) (.inr rfl)
        (by simp) (fun p hp ↦ hc p (List.mem_append_left _ hp))
        (fun p hp ↦ hc' p (List.mem_append_left _ hp)) hparams
      simp only [List.cons.injEq, true_and] at hresult
      obtain ⟨rfl, hrs⟩ := (hc t (List.mem_append_right _ (List.mem_singleton_self t))).2 t'
        (hc' t' (List.mem_append_right _ (List.mem_singleton_self t'))) r s hr hs hresult
      exact ⟨rfl, hrs⟩
    | typeMember m' t' => exact absurd (List.cons.inj h).1 (by decide)
  | typeMember m t =>
    cases c' with
    | signature m' ps' t' => exact absurd (List.cons.inj h).1 (by decide)
    | typeMember m' t' =>
      simp only [writtenDecl, List.append_assoc, List.cons_append] at h
      obtain ⟨rfl, hresult⟩ := hname hword hword' (.inr rfl) (List.append_cancel_left h)
      simp only [List.cons.injEq, true_and] at hresult
      obtain ⟨rfl, hrs⟩ := (hc t (List.mem_singleton_self t)).2 t'
        (hc' t' (List.mem_singleton_self t')) r s hr hs hresult
      exact ⟨rfl, hrs⟩

theorem tail_append_inj (hd : d.qualifier? = none) (he : e.qualifier? = none)
    (hs : d.symName? = e.symName?) (hnamed : d.isNamed = true) (hparts : ∀ p ∈ d.parts, p.Told)
    (hplain : e.Plain) (hr : StopsLink r) (hs' : StopsLink s)
    (h : d.writtenTail ++ r = e.writtenTail ++ s) : d = e ∧ r = s := by
  have hname {b : Boundaries Descriptor} {u v : List Char} (hu : StopsLink u) :
      writtenBounds b ++ u ≠ '[' :: v := by
    cases b with
    | empty => exact hu.ne_cons (.inr rfl) v
    | defined l u => exact fun h ↦ absurd (List.cons.inj h).1 (by decide)
  cases d with
  | name n =>
    obtain ⟨m, b, q⟩ := n
    cases hd
    cases e with
    | name n' =>
      obtain ⟨m', b', q'⟩ := n'
      cases he
      cases hs
      have hb (p : Descriptor) (hp : p ∈ b.types) := hparts p (List.mem_append_left _ hp)
      have hb' (p : Descriptor) (hp : p ∈ b'.types) : p.Plain :=
        hplain.of_part (List.mem_append_left _ hp)
      obtain ⟨rfl, hrs⟩ := bounds_append_inj hb hb' hr hs' h
      exact ⟨rfl, hrs⟩
    | full m' as q' => exact absurd h (hname hr)
    | _ => cases hs
  | full m as q =>
    cases hd
    cases e with
    | name n' => exact absurd h.symm (hname hs')
    | full m' as' q' =>
      cases he
      cases hs
      simp only [writtenTail, List.cons_append, List.append_assoc, List.nil_append,
        List.cons.injEq, true_and] at h
      have has (a : TypeArg Descriptor) (ha : a ∈ as) : a.reference.Told :=
        hparts _ (List.mem_append_left _ (List.mem_map_of_mem ha))
      have has' (a : TypeArg Descriptor) (ha : a ∈ as') : a.reference.Plain :=
        hplain.of_part (List.mem_append_left _ (List.mem_map_of_mem ha))
      obtain ⟨rfl, hrs⟩ := args_append_inj has has' h
      exact ⟨rfl, hrs⟩
    | _ => cases hs
  | _ => cases hnamed

theorem decls_append_inj {cs ds : List (Decl Descriptor)}
    (hcs : ∀ c ∈ cs, IsWord c.name ∧ ∀ d ∈ c.types, d.Plain ∧ d.Told)
    (hds : ∀ c ∈ ds, IsWord c.name ∧ ∀ d ∈ c.types, d.Plain)
    (h : [';', ' '].intercalate (cs.map writtenDecl) ++ '\x7d' :: r =
      [';', ' '].intercalate (ds.map writtenDecl) ++ '\x7d' :: s) : cs = ds ∧ r = s := by
  have hstart (c : Decl Descriptor) (t u : List Char) : writtenDecl c ++ t ≠ '\x7d' :: u := by
    cases c <;> exact fun h ↦ absurd (List.cons.inj h).1 (by decide)
  exact closed_append_inj (fun u ↦ .mark _ (by decide)) (fun u ↦ .mark u (by decide)) (by simp)
    (fun c t u _ ↦ hstart c t u)
    (fun c hc d hd _ _ hr hs ↦
      decl_append_inj (hcs c hc).2 (hds d hd).2 (hcs c hc).1 (hds d hd).1 hr hs) h

theorem mem_parts_of_decl {p t : Descriptor} {cs : List (Decl Descriptor)} {c : Decl Descriptor}
    (hc : c ∈ cs) (ht : t ∈ c.types) : t ∈ (refinement p cs).parts :=
  List.mem_cons_of_mem p (List.mem_flatMap.2 ⟨c, hc, ht⟩)

theorem exists_symName (hd : d.Plain) (hn : d.isNamed = true) :
    ∃ m, d.symName? = some m ∧ m.Plain := by
  cases d with
  | name n => exact ⟨n.name, rfl, hd.self.1⟩
  | full m as q => exact ⟨m, rfl, hd.self.1⟩
  | _ => cases hn

theorem endsName_tail (hr : StopsLink r) : EndsName (d.writtenTail ++ r) := by
  cases d with
  | name n =>
    obtain ⟨m, b, q⟩ := n
    cases b with
    | empty => exact hr.endsName
    | defined l u => exact endsName_cons _ (by decide) (by decide) (by decide)
  | full m as q => exact endsName_cons _ (by decide) (by decide) (by decide)
  | _ => exact hr.endsName

theorem named_append_inj (hd : d.Plain) (he : e.Plain) (hq : d.qualifier? = none)
    (hqe : e.qualifier? = none) (hn : d.isNamed = true) (hn' : e.isNamed = true)
    (hparts : ∀ p ∈ d.parts, p.Told) (hr : StopsLink r) (hs : StopsLink s)
    (h : d.written ++ r = e.written ++ s) : d = e ∧ r = s := by
  obtain ⟨m, hm, hplain⟩ := exists_symName hd hn
  obtain ⟨m', hm', hplain'⟩ := exists_symName he hn'
  rw [written_named hm hq, written_named hm' hqe, List.append_assoc, List.append_assoc] at h
  obtain ⟨hname, htail⟩ := hplain.append_inj hplain' (endsName_tail hr) (endsName_tail hs) h
  exact tail_append_inj hq hqe (by rw [hm, hm', hname]) hn hparts he hr hs htail

theorem linkTold (hd : d.Plain) (ha : d.isApplied = true) (hq : d.qualifier? = none)
    (hparts : ∀ p ∈ d.parts, p.Told) : d.LinkTold := by
  intro e he r s hr hs h
  obtain ⟨he, -, hqe⟩ := he
  obtain ⟨c, t, ht, hc⟩ := opening_of_link hd hq
  obtain ⟨c', t', ht', hc'⟩ := opening_of_link he hqe
  have hcc : c = c' := by
    rw [ht, ht'] at h
    exact (List.cons.inj h).1
  subst hcc
  obtain ⟨-, hnamed, hintersection, hrefinement⟩ := hc.kind hc'
  cases d with
  | name n => exact named_append_inj hd he hq hqe rfl hnamed.symm hparts hr hs h
  | full m as q => exact named_append_inj hd he hq hqe rfl hnamed.symm hparts hr hs h
  | lambda ps b => cases ha
  | intersection ps =>
    cases e with
    | intersection qs =>
      rw [written_intersection, written_intersection] at h
      simp only [List.cons_append, List.append_assoc, List.nil_append, List.cons.injEq,
        true_and] at h
      obtain ⟨rfl, hrs⟩ := list_append_inj (fun u ↦ .mark _ (by decide)) (.inl rfl) (by simp)
        (fun p hp ↦ ⟨hd.of_part hp, hparts p hp⟩) (fun p hp ↦ he.of_part hp) h
      exact ⟨rfl, hrs⟩
    | _ => cases hintersection
  | refinement p ds =>
    cases e with
    | refinement p' ds' =>
      rw [written_refinement, written_refinement] at h
      simp only [List.cons_append, List.append_assoc, List.nil_append, List.cons.injEq,
        true_and] at h
      obtain ⟨rfl, hrest⟩ := hparts p List.mem_cons_self p' (he.of_part List.mem_cons_self) _ _
        (.mark _ (by decide)) (.mark _ (by decide)) h
      simp only [List.cons.injEq, true_and] at hrest
      have hds (c : Decl Descriptor) (hc : c ∈ ds) (t : Descriptor) (ht : t ∈ c.types) :
          t.Plain ∧ t.Told :=
        ⟨hd.of_part (mem_parts_of_decl hc ht), hparts t (mem_parts_of_decl hc ht)⟩
      obtain ⟨rfl, hrs⟩ := decls_append_inj (fun c hc ↦ ⟨hd.self c hc, hds c hc⟩)
        (fun c hc ↦ ⟨he.self c hc, fun t ht ↦ he.of_part (mem_parts_of_decl hc ht)⟩) hrest
      exact ⟨rfl, hrs⟩
    | _ => cases hrefinement

theorem params_append_inj {ps qs : List String} (hps : ∀ p ∈ ps, IsNumbers p)
    (hqs : ∀ q ∈ qs, IsNumbers q)
    (h : [','].intercalate (ps.map fun p ↦ '%' :: p.toList) ++ ' ' :: r =
      [','].intercalate (qs.map fun q ↦ '%' :: q.toList) ++ ' ' :: s) : ps = qs ∧ r = s := by
  have hcomma (u : List Char) : EndsWords Char.isDigit ':' (',' :: u) :=
    (endsName_cons u (by decide) (by decide) (by decide)).2
  have hspace (u : List Char) : EndsWords Char.isDigit ':' (' ' :: u) :=
    (endsName_cons u (by decide) (by decide) (by decide)).2
  refine closed_append_inj hcomma hspace (by simp) (by simp) (fun p hp q hq r s hr hs h ↦ ?_) h
  obtain ⟨heq, hrest⟩ := Marked.append_inj (hps p hp) (hqs q hq) hr hs (List.cons.inj h).2
  exact ⟨String.toList_injective heq, hrest⟩

theorem lambda_told {ps : List String} {b : Descriptor} (hd : (lambda ps b).Plain) (hb : b.Told) :
    (lambda ps b).Told := by
  intro e he r s hr hs h
  have happlied : false = e.isApplied := isApplied_eq_of_append hd he h
  cases e with
  | lambda ps' b' =>
    rw [written_lambda, written_lambda] at h
    simp only [List.cons_append, List.append_assoc, List.cons.injEq, true_and] at h
    obtain ⟨rfl, hrest⟩ := params_append_inj hd.self he.self h
    simp only [List.cons.injEq, true_and] at hrest
    obtain ⟨rfl, hrs⟩ := hb b' (he.of_part (List.mem_singleton_self b')) r s hr hs hrest
    exact ⟨rfl, hrs⟩
  | _ => cases happlied

theorem told_of_links (hd : d.Plain) (ha : d.isApplied = true) (hlinks : ∀ c ∈ d.chain, c.LinkTold) :
    d.Told := by
  intro e he r s hr hs h
  -- the other text does not begin as a type function does, so its chain consists of links too
  have happlied : e.isApplied = true := (isApplied_eq_of_append hd he h).symm.trans ha
  rw [← intercalate_chain d, ← intercalate_chain e] at h
  obtain ⟨hchain, hrs⟩ := separated_append_inj StopsLink.colons (chain_ne_nil d) (chain_ne_nil e)
    (fun x hx y hy ↦ hlinks x hx y (he.of_mem_chain happlied hy)) (.stops hr) (.stops hs)
    (fun t ↦ hr.ne_colon _) (fun t ↦ hs.ne_colon _) h
  exact ⟨chain_inj hchain, hrs⟩

/-- The text of a plain descriptor is told, and so is that of each link of its chain. -/
theorem told_and_links (hd : d.Plain) :
    d.Told ∧ (d.isApplied = true → ∀ c ∈ d.chain, c.LinkTold) := by
  induction d using parts_induction with
  | step d ih =>
    have hparts (p : Descriptor) (hp : p ∈ d.parts) : p.Told := (ih p hp (hd.of_part hp)).1
    cases ha : d.isApplied with
    | false =>
      cases d with
      | lambda ps b => exact ⟨lambda_told hd (hparts b (List.mem_singleton_self b)), by simp⟩
      | _ => cases ha
    | true =>
      have hlinks : ∀ c ∈ d.chain, c.LinkTold := by
        intro c hc
        -- only the last link has parts of its own; the others are links of the qualifier
        have hlast : d.unqualified.LinkTold := by
          obtain ⟨hplain, happlied, hq⟩ := hd.link ha
          exact linkTold hplain happlied hq fun p hp ↦ hparts p (mem_parts_of_unqualified hp)
        cases hq : d.qualifier? with
        | none =>
          rw [chain_of_none hq] at hc
          rwa [List.mem_singleton.1 hc]
        | some q =>
          rw [chain_of_some hq] at hc
          rcases List.mem_append.1 hc with hc | hc
          · exact (ih q (mem_parts_of_qualifier? hq) (hd.qualifier hq).1).2 (hd.qualifier hq).2 c hc
          · rwa [List.mem_singleton.1 hc]
      exact ⟨told_of_links hd ha hlinks, fun _ ↦ hlinks⟩

/-- Plain descriptors with the same long text are the same. -/
theorem longName_injective (hd : d.Plain) (he : e.Plain) (h : d.longName = e.longName) : d = e := by
  have hwritten : d.written ++ [] = e.written ++ [] := by rw [written, written, h]
  exact ((told_and_links hd).1 e he [] [] .nil .nil hwritten).1

def selected : Descriptor :=
  full (.type "Box") [⟨typeName "0", .covariant⟩] (some (name { name := .term "app.outer" }))

theorem selected_longName_injective :
    (intersect [selected, lambda ["0"] selected]).Plain ∧
      (intersect [lambda ["0"] selected, selected]).Plain ∧
      (intersect [selected, lambda ["0"] selected]).longName =
        "\x7bapp.outer.type::Box[+%0] & λ %0 → app.outer.type::Box[+%0]\x7d" ∧
      (intersect [lambda ["0"] selected, selected]).longName =
        "\x7bapp.outer.type::Box[+%0] & λ %0 → app.outer.type::Box[+%0]\x7d" ∧
      intersect [selected, lambda ["0"] selected] = intersect [lambda ["0"] selected, selected] := by
  have hnumbers : IsNumbers "0" := marked_of_all [['0']] nofun rfl
  have hbox : IsDotted "Box" :=
    ⟨marked_of_all [['B', 'o', 'x']] nofun rfl, by simp⟩
  have houter : IsDotted "app.outer" :=
    ⟨marked_of_all [['a', 'p', 'p'], ['o', 'u', 't', 'e', 'r']] nofun rfl, by simp⟩
  have hparameter : Everywhere PlainNode (typeName "0") :=
    everywhere_iff.2 ⟨⟨.inl hnumbers, by simp⟩,
      by simp [typeName, parts, NameRef.types, Boundaries.types]⟩
  have hqualifier : Everywhere PlainNode (name { name := .term "app.outer" }) :=
    everywhere_iff.2 ⟨⟨houter, by simp⟩, by simp [parts, NameRef.types, Boundaries.types]⟩
  have hselected : Everywhere PlainNode selected :=
    everywhere_iff.2 ⟨⟨.inr ⟨hbox, by decide⟩, by simp [isApplied]⟩,
      by simpa [selected, parts] using ⟨hparameter, hqualifier⟩⟩
  have hlambda : Everywhere PlainNode (lambda ["0"] selected) :=
    everywhere_iff.2 ⟨by simpa [PlainNode] using hnumbers, by simpa [parts] using hselected⟩
  have hleft : (intersect [selected, lambda ["0"] selected]).Plain :=
    Everywhere.intersect (fun _ ↦ trivial) (by simpa using ⟨hselected, hlambda⟩)
  have hright : (intersect [lambda ["0"] selected, selected]).Plain :=
    Everywhere.intersect (fun _ ↦ trivial) (by simpa using ⟨hlambda, hselected⟩)
  exact ⟨hleft, hright, by decide +kernel, by decide +kernel,
    longName_injective hleft hright (by decide +kernel)⟩

end Told

end Descriptor

end TypeTag
