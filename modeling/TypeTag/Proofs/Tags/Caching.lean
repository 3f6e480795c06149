import TypeTag.Proofs.Steps.Answers
import TypeTag.Proofs.Steps.Builds

namespace TypeTag

open Build Stepped

namespace SymbolTable

variable (u : SymbolTable)

theorem steady_rootDescriptor (t : Ty) : Steady (u.rootDescriptor · t) :=
  fun _ _ h ↦ u.rootDescriptor_keeps h t

theorem steady_tagOf (d : Descriptor) (t : Ty) : Steady (u.tagOf · d t) :=
  fun _ _ h ↦ u.tagOf_keeps h d t

theorem steady_tag (t : Ty) : Steady (u.tag · t) :=
  fun _ _ h ↦ u.tag_keeps h t

end SymbolTable

namespace RootCache

/-- What a cache holds are the descriptors of its keys. -/
def Sound (u : SymbolTable) (c : RootCache) : Prop :=
  ∀ e ∈ c.entries, Ends (u.rootDescriptor · e.key.value) (some e.value)

/-- The caches that requests over one table leave behind. -/
inductive Reached (u : SymbolTable) : RootCache → Prop
  | empty : Reached u .empty
  | makeDescriptor {c : RootCache} (n : Nat) (config : Config) (alive : ObjectId → Bool)
    (k : Handle Ty) (h : Reached u c) : Reached u (u.makeDescriptor n config c alive k).2
  | makeTag {c : RootCache} (n : Nat) (config : Config) (alive : ObjectId → Bool)
    (k : Handle Ty) (h : Reached u c) : Reached u (u.makeTag n config c alive k).2
  | purge {c : RootCache} (alive : ObjectId → Bool) (h : Reached u c) : Reached u (c.purge alive)
  | clear {c : RootCache} (h : Reached u c) : Reached u c.clear

section Sound

variable {u : SymbolTable} {c : RootCache} (hc : c.Sound u) (alive : ObjectId → Bool)

include hc

theorem Sound.of_subset {d : RootCache} (h : d.entries ⊆ c.entries) : d.Sound u :=
  fun e he ↦ hc e (h he)

theorem Sound.dropDead (t : Ty) : RootCache.Sound u (c.dropDead alive t) :=
  hc.of_subset List.filter_sublist.subset

theorem Sound.find? {t : Ty} {d : Descriptor} (h : c.find? alive t = some d) :
    Ends (u.rootDescriptor · t) (some d) := by
  obtain ⟨e, he, rfl⟩ := Option.map_eq_some_iff.1 h
  have hk := List.find?_some he
  simp only [Bool.and_eq_true, beq_iff_eq] at hk
  have hs := hc e (List.mem_of_find?_eq_some he)
  rwa [hk.2] at hs

theorem Sound.fetch (t : Ty) :
    RootCache.Sound u (c.fetch alive t).2 ∧
      ∀ d ∈ (c.fetch alive t).1, Ends (u.rootDescriptor · t) (some d) := by
  have hd := hc.dropDead alive t
  have hf := fun d ↦ hc.find? (t := t) (d := d) alive
  unfold Cache.fetch Cache.get
  cases h : Cache.find? c alive t with
  | none => exact ⟨hd, fun d hn ↦ nomatch hn⟩
  | some d => exact ⟨hd, fun d' hd' ↦ hf d' (h.trans hd')⟩

theorem Sound.insert {k : Handle Ty} {d : Descriptor}
    (hd : Ends (u.rootDescriptor · k.value) (some d)) :
    RootCache.Sound u (c.insert alive k d).2 ∧ (c.insert alive k d).1 = d := by
  have hs := hc.dropDead alive k.value
  have hf := fun d ↦ hc.find? (t := k.value) (d := d) alive
  unfold Cache.insert
  dsimp only
  split
  · next w hw => exact ⟨hs, Option.some.inj ((hf w hw).unique hd)⟩
  · refine ⟨fun e he ↦ ?_, rfl⟩
    rcases List.mem_append.1 he with he | he
    · exact hs e he
    · rw [List.mem_singleton.1 he]
      exact hd

/-- A hit answers at once, a miss as the build does; either way the answer is that of the build. -/
theorem Sound.describe (k : Handle Ty) (n : Nat) :
    RootCache.Sound u (c.describe alive k fun _ ↦ u.rootDescriptor n k.value).2 ∧
      (∀ r, (c.describe alive k fun _ ↦ u.rootDescriptor n k.value).1.result = some r →
        Answers (u.rootDescriptor · k.value) r) ∧
      ∀ r, (u.rootDescriptor n k.value).result = some r →
        (c.describe alive k fun _ ↦ u.rootDescriptor n k.value).1.result = some r := by
  have hsteady := u.steady_rootDescriptor k.value
  obtain ⟨hs, hd⟩ := hc.fetch alive k.value
  unfold RootCache.describe
  rcases hfetch : c.fetch alive k.value with ⟨_ | d, c'⟩
  · rw [hfetch] at hs
    cases hb : u.rootDescriptor n k.value with
    | exhausted => exact ⟨hs, fun r hr ↦ (nomatch hr), fun r hr ↦ (nomatch hr)⟩
    | done log res =>
      have hanswers (r) (hr : (Build.done log res).result = some r) :
          Answers (u.rootDescriptor · k.value) r := hsteady.answers (hb ▸ hr)
      cases res with
      | error e => exact ⟨hs, hanswers, fun r hr ↦ hr⟩
      | ok d =>
        obtain ⟨hi, he⟩ := Sound.insert hs alive (ends_some_iff_answers.2 (hanswers (.ok d) rfl))
        refine ⟨hi, fun r hr ↦ hanswers r ?_, fun r hr ↦ ?_⟩ <;> simpa [he, result] using hr
  · rw [hfetch] at hs hd
    have hanswers := ends_some_iff_answers.1 (hd d rfl)
    refine ⟨hs, fun r hr ↦ ?_, fun r hr ↦ ?_⟩
    · rwa [← Option.some.inj hr]
    · rw [hanswers.unique (hsteady.answers hr) |>.symm]
      rfl

theorem Sound.makeDescriptor (n : Nat) (config : Config) (k : Handle Ty) :
    RootCache.Sound u (u.makeDescriptor n config c alive k).2 ∧
      (∀ r, (u.makeDescriptor n config c alive k).1.result = some r →
        Answers (u.rootDescriptor · k.value) r) ∧
      ∀ r, (u.rootDescriptor n k.value).result = some r →
        (u.makeDescriptor n config c alive k).1.result = some r := by
  unfold SymbolTable.makeDescriptor
  split
  · exact hc.describe alive k n
  · exact ⟨hc, fun r hr ↦ (u.steady_rootDescriptor k.value).answers hr, fun r hr ↦ hr⟩

end Sound

theorem Reached.sound {u : SymbolTable} {c : RootCache} (h : c.Reached u) : c.Sound u := by
  induction h with
  | empty => exact fun e he ↦ nomatch he
  | makeDescriptor n config alive k _ ih => exact (ih.makeDescriptor alive n config k).1
  | makeTag n config alive k _ ih => exact (ih.makeDescriptor alive n config k).1
  | purge alive _ ih => exact ih.of_subset List.filter_sublist.subset
  | clear _ ih => exact fun e he ↦ nomatch he

end RootCache

namespace SymbolTable

variable {u : SymbolTable} {c : RootCache} (hc : c.Sound u) (config : Config)
  (alive : ObjectId → Bool) (k : Handle Ty)

include hc

theorem makeDescriptor_answers_iff {r : Except BuildError Descriptor} :
    Answers (fun n ↦ (u.makeDescriptor n config c alive k).1) r ↔
      Answers (u.rootDescriptor · k.value) r := by
  constructor
  · rintro ⟨n, hn⟩
    exact (hc.makeDescriptor alive n config k).2.1 r (hn n (Nat.le_refl n))
  · rintro ⟨n, hn⟩
    exact ⟨n, fun m hm ↦ (hc.makeDescriptor alive m config k).2.2 r (hn m hm)⟩

theorem makeTag_answers_of_result {n : Nat} {r : Except BuildError Tag}
    (h : (u.makeTag n config c alive k).1.result = some r) : Answers (u.tag · k.value) r := by
  refine (answers_bind_iff (u.steady_rootDescriptor _) fun d ↦ u.steady_tagOf d _).2 ?_
  have hroot := (hc.makeDescriptor alive n config k).2.1
  rcases result_bind_iff.1 h with ⟨e, he, hr⟩ | ⟨d, hd, ht⟩
  · exact .inl ⟨e, hroot _ he, hr⟩
  · exact .inr ⟨d, hroot _ hd, (u.steady_tagOf d _).answers ht⟩

theorem makeTag_result_of_tag {n : Nat} {r : Except BuildError Tag}
    (h : (u.tag n k.value).result = some r) : (u.makeTag n config c alive k).1.result = some r := by
  have hroot := (hc.makeDescriptor alive n config k).2.2
  refine result_bind_iff.2 ?_
  rcases result_bind_iff.1 h with ⟨e, he, hr⟩ | ⟨d, hd, ht⟩
  · exact .inl ⟨e, hroot _ he, hr⟩
  · exact .inr ⟨d, hroot _ hd, ht⟩

theorem makeTag_answers_iff {r : Except BuildError Tag} :
    Answers (fun n ↦ (u.makeTag n config c alive k).1) r ↔ Answers (u.tag · k.value) r := by
  constructor
  · exact fun ⟨n, hn⟩ ↦ makeTag_answers_of_result hc config alive k (hn n (Nat.le_refl n))
  · exact fun ⟨n, hn⟩ ↦ ⟨n, fun m hm ↦ makeTag_result_of_tag hc config alive k (hn m hm)⟩

theorem makeDescriptor_ends_iff {r : Option Descriptor} :
    Ends (fun n ↦ (u.makeDescriptor n config c alive k).1) r ↔
      Ends (u.rootDescriptor · k.value) r := by
  constructor
  · rintro ⟨n, hn⟩
    obtain ⟨a, ha, rfl⟩ := outcome_eq_some_iff.1 (hn n (Nat.le_refl n))
    exact ((hc.makeDescriptor alive n config k).2.1 a ha).ends
  · intro h
    obtain ⟨a, ha, rfl⟩ := (u.steady_rootDescriptor _).ends_iff_answers.1 h
    exact ((makeDescriptor_answers_iff hc config alive k).2 ha).ends

theorem makeTag_ends_iff {r : Option Tag} :
    Ends (fun n ↦ (u.makeTag n config c alive k).1) r ↔ Ends (u.tag · k.value) r := by
  constructor
  · rintro ⟨n, hn⟩
    obtain ⟨a, ha, rfl⟩ := outcome_eq_some_iff.1 (hn n (Nat.le_refl n))
    exact (makeTag_answers_of_result hc config alive k ha).ends
  · intro h
    obtain ⟨a, ha, rfl⟩ := (u.steady_tag _).ends_iff_answers.1 h
    exact ((makeTag_answers_iff hc config alive k).2 ha).ends

theorem makeDescriptor_ends_of_value? {n : Nat} {d : Descriptor}
    (h : (u.rootDescriptor n k.value).value? = some d) :
    Ends (fun n ↦ (u.makeDescriptor n config c alive k).1) (some d) :=
  (makeDescriptor_ends_iff hc config alive k).2
    ((u.steady_rootDescriptor k.value).ends (outcome_eq_some_some_iff.2 h))

theorem makeTag_ends_of_value? {n : Nat} {tag : Tag} (h : (u.tag n k.value).value? = some tag) :
    Ends (fun n ↦ (u.makeTag n config c alive k).1) (some tag) :=
  (makeTag_ends_iff hc config alive k).2
    ((u.steady_tag k.value).ends (outcome_eq_some_some_iff.2 h))

end SymbolTable

end TypeTag
