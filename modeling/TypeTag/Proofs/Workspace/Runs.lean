import TypeTag.Proofs.Renaming.Embedding
import TypeTag.Proofs.Workspace.Evaluation
import TypeTag.Workspace.Basic

namespace TypeTag

open Build

namespace RootCache

theorem entries_describe (c : RootCache) (alive : ObjectId → Bool) (k : Handle Ty)
    (build : Unit → Build Descriptor) :
    (c.describe alive k build).2.entries.Sublist c.entries ∨
      ∃ d, (c.describe alive k build).1.value? = some d ∧
        (c.describe alive k build).2.entries.Sublist (c.entries ++ [⟨k, d⟩]) := by
  have hdead (c : RootCache) (t : Ty) : (c.dropDead alive t).entries.Sublist c.entries :=
    List.filter_sublist
  have hfetch : (c.fetch alive k.value).2.entries.Sublist c.entries := by
    unfold Cache.fetch Cache.get
    cases Cache.find? c alive k.value <;> exact hdead c k.value
  unfold describe
  rcases hf : c.fetch alive k.value with ⟨_ | d, c'⟩ <;> rw [hf] at hfetch
  · rcases build () with _ | ⟨log, e | d⟩
    · exact .inl hfetch
    · exact .inl hfetch
    · have hinsert := (hdead c' k.value).trans hfetch
      unfold Cache.insert
      dsimp only
      split
      · exact .inl hinsert
      · exact .inr ⟨d, rfl, hinsert.append_right _⟩
  · exact .inl hfetch

end RootCache

namespace SymbolTable

variable (u : SymbolTable) (n : Nat) (config : Config) (c : RootCache) (alive : ObjectId → Bool)
  (k : Handle Ty)

theorem entries_makeDescriptor :
    (u.makeDescriptor n config c alive k).2.entries.Sublist c.entries ∨
      ∃ d, (u.makeDescriptor n config c alive k).1.value? = some d ∧
        (u.makeDescriptor n config c alive k).2.entries.Sublist (c.entries ++ [⟨k, d⟩]) := by
  unfold makeDescriptor
  split
  · exact c.entries_describe alive k _
  · exact .inl (List.Sublist.refl _)

theorem makeTag_cache :
    (u.makeTag n config c alive k).2 = (u.makeDescriptor n config c alive k).2 :=
  rfl

end SymbolTable

namespace Workspace

variable {w w' : Workspace}

structure Valid (w : Workspace) : Prop where
  table : w.table.Constructible
  symbols : ∀ p ∈ w.symbols, p.2 < w.table.size
  vars : ∀ p ∈ w.vars, p.2.type.Within w.table.size
  samples : ∀ s ∈ w.standard, ∀ p ∈ s.samples, p.2.Within w.table.size

/-- Moves that change nothing of the symbols that are there. -/
inductive Move (w : Workspace) : Workspace → Prop
  | makeDescriptor {n : Nat} {options : BuildOptions} {e : TypeExpr} {b : Build Descriptor}
    {w' : Workspace} (h : w.makeDescriptor n options e = .ok (b, w')) : Move w w'
  | makeTag {n : Nat} {options : BuildOptions} {e : TypeExpr} {b : Build Tag} {w' : Workspace}
    (h : w.makeTag n options e = .ok (b, w')) : Move w w'
  | bindVar {name : String} {e : TypeExpr} {t : Ty} {w' : Workspace}
    (h : w.bindVar name e = .ok (t, w')) : Move w w'
  | dropVar (name : String) : Move w (w.dropVar name).2
  | purge : Move w w.purge
  | clear : Move w w.clear
  | define {d : Definition} {s : SymbolId} {w' : Workspace}
    (hd : ∀ owner name v, d ≠ .typeParam owner name v) (h : w.define d = .ok (s, w')) : Move w w'
  | nameSymbol (name : String) {s : SymbolId} (hs : s < w.table.size) :
    Move w (w.nameSymbol name s)

/-- The table may have one more symbol, and nothing else has changed but what objects are held. -/
structure Extends (w w' : Workspace) : Prop where
  step : w.table.Step w'.table
  adds : w'.table = w.table ∨ ∃ i, w'.table = w.table.add i
  symbols : w'.symbols = w.symbols
  vars : w'.vars = w.vars
  standard : w'.standard = w.standard
  cache : w'.cache = w.cache

theorem Extends.of_add {u : SymbolTable} (hstep : w.table.Step u)
    (hadd : ∃ i, u = w.table.add i) : Extends w { w with table := u } :=
  ⟨hstep, .inr hadd, rfl, rfl, rfl, rfl⟩

theorem Extends.pin (h : Extends w w') (s : SymbolId) (slot : Slot) (keeps : List ObjectId) :
    Extends w (w'.pin s slot keeps) :=
  ⟨h.step, h.adds, h.symbols, h.vars, h.standard, h.cache⟩

/-- What is in the cache are descriptors of types of the table. -/
structure Consistent (w : Workspace) : Prop extends Valid w where
  keys : ∀ e ∈ w.cache.entries, e.key.value.Within w.table.size
  sound : w.cache.Sound w.table

namespace Valid

variable (h : w.Valid)

include h

theorem env : w.env.Valid :=
  ⟨h.table.wellFormed, h.symbols, h.vars, h.samples⟩

theorem symbol {name : String} {s : SymbolId} (hs : w.symbol name = .ok s) : s < w.table.size :=
  h.env.symbol hs

theorem eval {e : TypeExpr} {v : Value} (hv : w.eval e = .ok v) : v.type.Within w.table.size :=
  TypeExpr.eval_within h.env e v hv

theorem extends_of_owned {owner : String} {s : SymbolId}
    {f : SymbolTable → SymbolId → SymbolId × SymbolTable}
    (hstep : ∀ o, o < w.table.size → w.table.Step (f w.table o).2)
    (hadd : ∀ o, ∃ i, (f w.table o).2 = w.table.add i)
    (hdef : (do
      let o ← w.symbol owner
      return ((f w.table o).1, { w with table := (f w.table o).2 })) = Except.ok (s, w')) :
    Extends w w' := by
  obtain ⟨o, ho, hdef⟩ := Except.bind_eq_ok_iff.1 hdef
  cases hdef
  exact .of_add (hstep o (h.symbol ho)) (hadd o)

theorem lt_size_of_owner {owner : Option String} {o : Option SymbolId}
    (ho : owner.mapM w.symbol = .ok o) : ∀ p ∈ o, p < w.table.size := by
  cases owner with
  | none =>
    cases ho
    simp
  | some x =>
    obtain ⟨p, hp, hx⟩ := Except.bind_eq_ok_iff.1 ho
    cases hx
    rintro q ⟨rfl⟩
    exact h.symbol hp

theorem extends_of_package {owner : Option String} {name : String} {s : SymbolId}
    (hdef : w.define (.package owner name) = .ok (s, w')) : Extends w w' := by
  obtain ⟨o, ho, hdef⟩ := Except.bind_eq_ok_iff.1 hdef
  cases hdef
  refine ⟨.package o name (h.lt_size_of_owner ho), ?_, rfl, rfl, rfl, rfl⟩
  dsimp only [SymbolTable.package]
  split
  · exact .inl rfl
  · exact .inr ⟨_, w.table.define_table _⟩

theorem extends_of_term {owner name : String} {declared : Option TypeExpr} {s : SymbolId}
    (hdef : w.define (.term owner name declared) = .ok (s, w')) : Extends w w' := by
  cases declared with
  | none =>
    exact h.extends_of_owned (f := (·.term · name none)) (fun o ho ↦ .term o name none ho (by simp))
      (fun _ ↦ ⟨_, w.table.define_table _⟩) hdef
  | some e =>
    obtain ⟨o, ho, hdef⟩ := Except.bind_eq_ok_iff.1 hdef
    obtain ⟨v, hv, hdef⟩ := Except.bind_eq_ok_iff.1 hdef
    cases hdef
    have hin : ∀ t ∈ some v.type, t.Within w.table.size := by
      rintro t ⟨rfl⟩
      exact h.eval hv
    exact (Extends.of_add (.term o name _ (h.symbol ho) hin) ⟨_, w.table.define_table _⟩).pin ..

theorem extends_of_refinement {owner : String} {e : TypeExpr} {s : SymbolId}
    (hdef : w.define (.refinement owner e) = .ok (s, w')) : Extends w w' := by
  obtain ⟨o, ho, hdef⟩ := Except.bind_eq_ok_iff.1 hdef
  obtain ⟨v, hv, hdef⟩ := Except.bind_eq_ok_iff.1 hdef
  cases hdef
  exact (Extends.of_add (.refinement o _ (h.symbol ho) (h.eval hv))
    ⟨_, w.table.define_table _⟩).pin ..

/-- A definition adds a symbol, or finds a package that is there; only a type parameter changes the
symbol that it is a parameter of. -/
theorem extends_of_define {d : Definition} {s : SymbolId}
    (hd : ∀ owner name v, d ≠ .typeParam owner name v) (hdef : w.define d = .ok (s, w')) :
    Extends w w' := by
  have hadd (i : SymbolEntry) : ∃ j, (w.table.define i).2 = w.table.add j :=
    ⟨_, w.table.define_table i⟩
  cases d with
  | package owner name => exact h.extends_of_package hdef
  | cls owner name =>
    exact h.extends_of_owned (f := (·.cls · name)) (fun o ↦ .cls o name) (fun _ ↦ hadd _) hdef
  | object owner name =>
    exact h.extends_of_owned (f := (·.object · name)) (fun o ↦ .object o name) (fun _ ↦ hadd _) hdef
  | abstractType owner name =>
    exact h.extends_of_owned (f := (·.abstractType · name)) (fun o ↦ .abstractType o name)
      (fun _ ↦ hadd _) hdef
  | typeAlias owner name =>
    exact h.extends_of_owned (f := (·.typeAlias · name)) (fun o ↦ .typeAlias o name)
      (fun _ ↦ hadd _) hdef
  | freeTypeParam owner name v =>
    exact h.extends_of_owned (f := (·.freeTypeParam · name v)) (fun o ↦ .freeTypeParam o name v)
      (fun _ ↦ hadd _) hdef
  | term owner name declared => exact h.extends_of_term hdef
  | typeParam owner name v => exact absurd rfl (hd owner name v)
  | refinement owner e => exact h.extends_of_refinement hdef

end Valid

section Requests

variable {n : Nat} {options : BuildOptions} {e : TypeExpr} {v : Value}

theorem handle_eq (w : Workspace) (v : Value) :
    (w.handle v).1.value = v.type ∧ ∃ o, (w.handle v).2.2 = { w with nextObject := o } := by
  unfold handle
  cases v.object with
  | none => exact ⟨rfl, _, rfl⟩
  | some o => exact ⟨rfl, w.nextObject, rfl⟩

/-- A request goes to the cache of the workspace or to an empty one, with an object of the type. -/
theorem withBuildCache_of_eval (hv : w.eval e = .ok v) (options : BuildOptions) :
    ∃ (k : Handle Ty) (alive : ObjectId → Bool) (o : ObjectId), k.value = v.type ∧
      ∀ {α : Type} (act : RootCache → (ObjectId → Bool) → Handle Ty → α × RootCache),
        w.withBuildCache options e act = .ok
          ((act (if options.fresh then .empty else w.cache) alive k).1,
            { w with
              nextObject := o
              cache := if options.fresh then w.cache else (act w.cache alive k).2 }) := by
  obtain ⟨hk, o, ho⟩ := w.handle_eq v
  refine ⟨(w.handle v).1, fun o ↦ (w.handle v).2.1.contains o || (w.handle v).2.2.alive o, o, hk,
    fun act ↦ ?_⟩
  unfold withBuildCache withCache
  rw [hv]
  simp only [Bind.bind, Except.bind, ho]
  cases options.fresh <;> rfl

theorem withBuildCache_of_error {α : Type} {x : ExprError}
    {act : RootCache → (ObjectId → Bool) → Handle Ty → α × RootCache} (hv : w.eval e = .error x) :
    w.withBuildCache options e act = .error x := by
  unfold withBuildCache withCache
  rw [hv]
  rfl

end Requests

namespace Consistent

variable (h : w.Consistent)

include h

theorem of_subset {c : RootCache} {o : ObjectId} (hc : c.entries ⊆ w.cache.entries) :
    Consistent { w with cache := c, nextObject := o } :=
  ⟨⟨h.table, h.symbols, h.vars, h.samples⟩, fun e he ↦ h.keys e (hc he), h.sound.of_subset hc⟩

theorem request {k : Handle Ty} (hk : k.value.Within w.table.size) (n : Nat)
    (options : BuildOptions) (alive : ObjectId → Bool) (o : ObjectId) :
    Consistent { w with
      nextObject := o
      cache := if options.fresh then w.cache
        else (w.table.makeDescriptor n options.config w.cache alive k).2 } := by
  split
  · exact h.of_subset (List.Subset.refl _)
  · refine ⟨⟨h.table, h.symbols, h.vars, h.samples⟩, fun e he ↦ ?_,
      (h.sound.makeDescriptor alive n options.config k).1⟩
    rcases w.table.entries_makeDescriptor n options.config w.cache alive k with hs | ⟨d, -, hs⟩
    · exact h.keys e (hs.subset he)
    · rcases List.mem_append.1 (hs.subset he) with he | he
      · exact h.keys e he
      · obtain rfl := List.mem_singleton.1 he
        exact hk

theorem of_extends (hw : Extends w w') : w'.Consistent := by
  have htable := h.table.step hw.step
  have hsize : w.table.size ≤ w'.table.size := by
    rcases hw.adds with ht | ⟨i, ht⟩ <;> rw [ht]
    rw [SymbolTable.size_add]
    exact Nat.le_succ _
  have hmono {t : Ty} (ht : t.Within w.table.size) : t.Within w'.table.size :=
    fun s hs ↦ (ht s hs).trans_le hsize
  refine ⟨⟨htable, ?_, ?_, ?_⟩, ?_, ?_⟩
  · rw [hw.symbols]
    exact fun p hp ↦ (h.symbols p hp).trans_le hsize
  · rw [hw.vars]
    exact fun p hp ↦ hmono (h.vars p hp)
  · rw [hw.standard]
    exact fun s hs p hp ↦ hmono (h.samples s hs p hp)
  · rw [hw.cache]
    exact fun e he ↦ hmono (h.keys e he)
  · rw [hw.cache]
    rcases hw.adds with ht | ⟨i, ht⟩
    · rw [ht]
      exact h.sound
    -- The keys name symbols of the smaller table, so that their descriptors are the same in both.
    · intro e he
      have hsame := (SymbolTable.embedding_add w.table i).ends_rootDescriptor
        h.table.wellFormed (ht ▸ htable.wellFormed) (h.keys e he) (r := some e.value)
      rw [Ty.rename_id, ← ht] at hsame
      exact hsame.2 (h.sound e he)

theorem of_withBuildCache {α : Type} {n : Nat} {options : BuildOptions} {e : TypeExpr} {a : α}
    {act : RootCache → (ObjectId → Bool) → Handle Ty → α × RootCache}
    (hcache : ∀ c alive k, (act c alive k).2 =
      (w.table.makeDescriptor n options.config c alive k).2)
    (hreq : w.withBuildCache options e act = .ok (a, w')) : w'.Consistent := by
  cases hv : w.eval e with
  | error x =>
    rw [withBuildCache_of_error hv] at hreq
    cases hreq
  | ok v =>
    obtain ⟨k, alive, o, hk, hact⟩ := withBuildCache_of_eval hv options
    rw [hact, hcache] at hreq
    cases hreq
    exact h.request (hk ▸ h.eval hv) n options alive o

theorem of_bindVar {name : String} {e : TypeExpr} {t : Ty}
    (hbind : w.bindVar name e = .ok (t, w')) : w'.Consistent := by
  obtain ⟨v, hv, hbind⟩ := Except.bind_eq_ok_iff.1 hbind
  obtain ⟨hk, o, ho⟩ := w.handle_eq v
  rcases hh : w.handle v with ⟨k, keeps, w₁⟩
  rw [hh] at hbind hk ho
  obtain rfl := ho
  cases hbind
  have hin : k.value.Within w.table.size := hk ▸ h.eval hv
  refine ⟨⟨h.table, h.symbols, fun p hp ↦ ?_, h.samples⟩, h.keys, h.sound⟩
  rcases List.mem_cons.1 hp with rfl | hp
  · exact hin
  · exact h.vars p (List.mem_filter.1 hp).1

theorem nameSymbol (name : String) {s : SymbolId} (hs : s < w.table.size) :
    (w.nameSymbol name s).Consistent := by
  refine ⟨⟨h.table, fun p hp ↦ ?_, h.vars, h.samples⟩, h.keys, h.sound⟩
  rcases List.mem_cons.1 hp with rfl | hp
  · exact hs
  · exact h.symbols p (List.mem_filter.1 hp).1

theorem move (hm : w.Move w') : w'.Consistent := by
  cases hm with
  | makeDescriptor hreq => exact h.of_withBuildCache (fun _ _ _ ↦ rfl) hreq
  | makeTag hreq => exact h.of_withBuildCache (w.table.makeTag_cache _ _) hreq
  | bindVar hbind => exact h.of_bindVar hbind
  | dropVar name =>
    exact ⟨⟨h.table, h.symbols, fun p hp ↦ h.vars p (List.mem_filter.1 hp).1, h.samples⟩,
      h.keys, h.sound⟩
  | purge => exact h.of_subset List.filter_sublist.subset
  | clear => exact h.of_subset (List.nil_subset _)
  | define hd hdef => exact h.of_extends (h.toValid.extends_of_define hd hdef)
  | nameSymbol name hs => exact h.nameSymbol name hs

end Consistent

def Runs : Workspace → Workspace → Prop :=
  Relation.ReflTransGen Move

theorem Consistent.runs (h : w.Consistent) (hr : Runs w w') : w'.Consistent := by
  induction hr with
  | refl => exact h
  | tail _ hm ih => exact ih.move hm

/-- How a request is answered: with a fault of its expression, an error of the build or a value. -/
def Answers {α : Type} (request : Nat → Except ExprError (Build α × Workspace))
    (r : Except ExprError (Except BuildError α)) : Prop :=
  ∃ n, ∀ m, n ≤ m → (request m).map (·.1.result) = r.map some

section Answers

variable {α : Type} {request request' : Nat → Except ExprError (Build α × Workspace)}
  {r : Except ExprError (Except BuildError α)}

theorem answers_of_error {x : ExprError} (h : ∀ n, request n = .error x) :
    Answers request r ↔ r = .error x := by
  have hresult (n : Nat) : (request n).map (·.1.result) = .error x := by
    rw [h n]
    rfl
  simp only [Answers, hresult]
  constructor
  · rintro ⟨n, hn⟩
    have hr := hn n (Nat.le_refl n)
    cases r with
    | error y =>
      cases hr
      rfl
    | ok a => cases hr
  · rintro rfl
    exact ⟨0, fun _ _ ↦ rfl⟩

theorem answers_of_ok {b : Nat → Build α} (h : ∀ n, ∃ w', request n = .ok (b n, w')) :
    Answers request r ↔ ∃ a, r = .ok a ∧ Build.Answers b a := by
  have hresult (n : Nat) : (request n).map (·.1.result) = .ok (b n).result := by
    obtain ⟨w', hw⟩ := h n
    rw [hw]
    rfl
  simp only [Answers, hresult]
  constructor
  · rintro ⟨n, hn⟩
    cases r with
    | error y => cases hn n (Nat.le_refl n)
    | ok a => exact ⟨a, rfl, n, fun m hm ↦ Except.ok.inj (hn m hm)⟩
  · rintro ⟨a, rfl, n, hn⟩
    exact ⟨n, fun m hm ↦ congrArg Except.ok (hn m hm)⟩

end Answers

section Transparent

variable (h : w.Consistent) (options : BuildOptions) (e : TypeExpr)

include h

theorem Consistent.chosen :
    RootCache.Sound w.table (if options.fresh then .empty else w.cache) := by
  split
  · exact fun _ he ↦ (nomatch he)
  · exact h.sound

theorem Consistent.makeDescriptor_answers_iff {v : Value} (hv : w.eval e = .ok v)
    {r : Except ExprError (Except BuildError Descriptor)} :
    Answers (w.makeDescriptor · options e) r ↔
      ∃ a, r = .ok a ∧ Build.Answers (w.table.rootDescriptor · v.type) a := by
  obtain ⟨k, alive, o, hk, hact⟩ := withBuildCache_of_eval hv options
  refine (answers_of_ok fun n ↦ ⟨_, hact (w.table.makeDescriptor n options.config)⟩).trans ?_
  simp only [SymbolTable.makeDescriptor_answers_iff (h.chosen options), hk]

theorem Consistent.makeTag_answers_iff {v : Value} (hv : w.eval e = .ok v)
    {r : Except ExprError (Except BuildError Tag)} :
    Answers (w.makeTag · options e) r ↔
      ∃ a, r = .ok a ∧ Build.Answers (w.table.tag · v.type) a := by
  obtain ⟨k, alive, o, hk, hact⟩ := withBuildCache_of_eval hv options
  refine (answers_of_ok fun n ↦ ⟨_, hact (w.table.makeTag n options.config)⟩).trans ?_
  simp only [SymbolTable.makeTag_answers_iff (h.chosen options), hk]

end Transparent

section Failures

variable {n : Nat} {options : BuildOptions} {e : TypeExpr}

theorem entries_of_withBuildCache {α : Type} {a : α}
    {act : RootCache → (ObjectId → Bool) → Handle Ty → α × RootCache}
    (hcache : ∀ c alive k, (act c alive k).2 =
      (w.table.makeDescriptor n options.config c alive k).2)
    (h : w.withBuildCache options e act = .ok (a, w')) :
    w'.cache.entries.Sublist w.cache.entries ∨
      ∃ k alive d, w.type e = .ok k.value ∧ (act w.cache alive k).1 = a ∧
        (w.table.makeDescriptor n options.config w.cache alive k).1.value? = some d ∧
        w'.cache.entries.Sublist (w.cache.entries ++ [⟨k, d⟩]) := by
  cases hv : w.eval e with
  | error x =>
    rw [withBuildCache_of_error hv] at h
    cases h
  | ok v =>
    obtain ⟨k, alive, o, hk, hact⟩ := withBuildCache_of_eval hv options
    rw [hact, hcache] at h
    cases hfresh : options.fresh with
    | true =>
      rw [hfresh] at h
      cases h
      exact .inl (.refl _)
    | false =>
      rw [hfresh] at h
      cases h
      have htype : w.type e = .ok k.value := by
        rw [Workspace.type, hv, hk]
        rfl
      exact (w.table.entries_makeDescriptor n options.config w.cache alive k).imp_right
        fun ⟨d, hd, hs⟩ ↦ ⟨k, alive, d, htype, rfl, hd, hs⟩

theorem entries_of_makeDescriptor {b : Build Descriptor}
    (h : w.makeDescriptor n options e = .ok (b, w')) (hb : b.value? = none) :
    w'.cache.entries.Sublist w.cache.entries := by
  rcases entries_of_withBuildCache (fun _ _ _ ↦ rfl) h with hs | ⟨k, alive, d, -, rfl, hd, -⟩
  · exact hs
  · cases hb.symm.trans hd

theorem Consistent.entries_of_makeTag (hw : w.Consistent) {b : Build Tag}
    (h : w.makeTag n options e = .ok (b, w')) :
    w'.cache.entries.Sublist w.cache.entries ∨
      ∃ entry, w'.cache.entries.Sublist (w.cache.entries ++ [entry]) ∧
        w.type e = .ok entry.key.value ∧
        Ends (w.table.rootDescriptor · entry.key.value) (some entry.value) := by
  refine (entries_of_withBuildCache (w.table.makeTag_cache n _) h).imp_right ?_
  rintro ⟨k, alive, d, htype, -, hd, hs⟩
  have hanswer := (hw.sound.makeDescriptor alive n options.config k).2.1 _ (value?_eq_some_iff.1 hd)
  exact ⟨⟨k, d⟩, hs, htype, ends_some_iff_answers.2 hanswer⟩

end Failures

theorem Consistent.of_empty (h : w.Valid) (hempty : w.cache.entries = []) : w.Consistent := by
  refine ⟨h, ?_, ?_⟩
  · rw [hempty]
    exact fun _ he ↦ (nomatch he)
  · intro e he
    rw [hempty] at he
    cases he

def BuildOptions.uncached (options : BuildOptions) : BuildOptions :=
  { options with config := { options.config with cached := false } }

/-- After any run that started with an empty cache, a request is answered as it is with the cache
disabled, with the same descriptor or tag or the same error. A request that fails adds no entry,
but for the descriptor of the root of a tag. -/
theorem cache_transparent {start w : Workspace} (hvalid : start.Valid)
    (hempty : start.cache.entries = []) (hrun : Runs start w) (options : BuildOptions)
    (e : TypeExpr) :
    (∀ r, Answers (w.makeDescriptor · options e) r ↔
      Answers (w.makeDescriptor · options.uncached e) r) ∧
    (∀ r, Answers (w.makeTag · options e) r ↔ Answers (w.makeTag · options.uncached e) r) ∧
    (∀ n b w', w.makeDescriptor n options e = .ok (b, w') → b.value? = none →
      w'.cache.entries.Sublist w.cache.entries) ∧
    ∀ n b w', w.makeTag n options e = .ok (b, w') → b.value? = none →
      w'.cache.entries.Sublist w.cache.entries ∨
        ∃ entry, w'.cache.entries.Sublist (w.cache.entries ++ [entry]) ∧
          w.type e = .ok entry.key.value ∧
          Ends (w.table.rootDescriptor · entry.key.value) (some entry.value) := by
  have h := (Consistent.of_empty hvalid hempty).runs hrun
  cases hv : w.eval e with
  | error x =>
    have hdescriptor (n : Nat) (o : BuildOptions) : w.makeDescriptor n o e = .error x :=
      withBuildCache_of_error hv
    have htag (n : Nat) (o : BuildOptions) : w.makeTag n o e = .error x :=
      withBuildCache_of_error hv
    refine ⟨fun r ↦ ?_, fun r ↦ ?_, fun n b w' hb ↦ ?_, fun n b w' hb ↦ ?_⟩
    · rw [answers_of_error (hdescriptor · _), answers_of_error (hdescriptor · _)]
    · rw [answers_of_error (htag · _), answers_of_error (htag · _)]
    · cases (hdescriptor n options).symm.trans hb
    · cases (htag n options).symm.trans hb
  | ok v =>
    refine ⟨fun r ↦ ?_, fun r ↦ ?_, fun n b w' hb hfail ↦ ?_, fun n b w' hb hfail ↦ ?_⟩
    · rw [h.makeDescriptor_answers_iff _ e hv, h.makeDescriptor_answers_iff _ e hv]
    · rw [h.makeTag_answers_iff _ e hv, h.makeTag_answers_iff _ e hv]
    · exact entries_of_makeDescriptor hb hfail
    · exact h.entries_of_makeTag hb

section Sample

theorem valid_bare : Valid bare := by
  refine ⟨.initial, ?_, fun _ h ↦ (nomatch h), fun _ h ↦ (nomatch h)⟩
  decide

/-- A type is named and described, a class is added, and the type is dropped and written anew. -/
def sampleRun : Except ExprError Workspace := do
  let (_, w) ← bare.bindVar "x" (.ref "any" [])
  let (_, w) ← w.makeDescriptor 10 {} (.var "x")
  let (_, w) ← w.define (.cls "root" "A")
  let (_, w) ← w.bindVar "y" (.ref "any" [])
  return (w.dropVar "x").2

theorem runs_sampleRun {w : Workspace} (h : sampleRun = .ok w) : Runs bare w := by
  obtain ⟨⟨_, _⟩, hx, h⟩ := Except.bind_eq_ok_iff.1 h
  obtain ⟨⟨_, _⟩, hdescriptor, h⟩ := Except.bind_eq_ok_iff.1 h
  obtain ⟨⟨_, _⟩, hdef, h⟩ := Except.bind_eq_ok_iff.1 h
  obtain ⟨⟨_, _⟩, hy, h⟩ := Except.bind_eq_ok_iff.1 h
  cases h
  exact .tail (.tail (.tail (.tail (.single (.bindVar hx)) (.makeDescriptor hdescriptor))
    (.define (by simp) hdef)) (.bindVar hy)) (.dropVar "x")

theorem cache_transparent_sampleRun : ∃ w, Runs bare w ∧ w.cache.entries.length = 1 ∧
    ∀ r, Answers (w.makeTag · {} (.var "y")) r ↔
      Answers (w.makeTag · (BuildOptions.uncached {}) (.var "y")) r := by
  have hrun : sampleRun.toOption.map (·.cache.entries.length) = some 1 := by decide
  obtain ⟨w, hw, hlength⟩ := Option.map_eq_some_iff.1 hrun
  have hok : sampleRun = .ok w := by
    cases h : sampleRun with
    | error x =>
      rw [h] at hw
      cases hw
    | ok w' =>
      rw [h] at hw
      cases hw
      rfl
  have hruns := runs_sampleRun hok
  exact ⟨w, hruns, hlength, (cache_transparent valid_bare rfl hruns {} (.var "y")).2.1⟩

end Sample

end Workspace

end TypeTag
