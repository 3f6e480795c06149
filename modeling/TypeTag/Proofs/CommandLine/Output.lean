import TypeTag.CommandLine.Run
import TypeTag.Proofs.Json.Pretty
import TypeTag.Proofs.Tags.Caching
import TypeTag.Proofs.Tags.Decoding

namespace TypeTag.CommandLine

open Build

/-- A report on a sample by itself, its tag built without a cache. -/
structure ReportsOn (style : NameStyle) (sample : String) (r : Report) : Prop where
  name : r.name = sample
  style : r.style = style
  tag : ∃ t, standard.sample? sample = some t ∧ Ends (standard.table.tag · t) (some r.tag)

def reportedTag? (j : Json) : Option Tag :=
  (j.field? "tag").bind fun x ↦ Tag.ofJson? x.1

theorem ReportsOn.reportedTag? {style : NameStyle} {sample : String} {r : Report}
    (h : ReportsOn style sample r) : reportedTag? r.toJson = some r.tag := by
  obtain ⟨t, -, htag⟩ := h.tag
  simpa [CommandLine.reportedTag?, Report.toJson, Json.field?, Json.lookup] using
    SymbolTable.ofJson?_toJson_tag htag

section Reports

variable {style : NameStyle} {samples : List String} {reports : List Report}
  (h : List.Forall₂ (ReportsOn style) samples reports)

include h

theorem map_name : reports.map (·.name) = samples := by
  induction h with
  | nil => rfl
  | cons hr _ ih => rw [List.map_cons, hr.name, ih]

theorem map_reportedTag? :
    (reports.map Report.toJson).map reportedTag? = reports.map (some ·.tag) := by
  induction h with
  | nil => rfl
  | cons hr _ ih => simp only [List.map_cons, hr.reportedTag?, ih]

end Reports

section Samples

variable {name : String} {names : List String}

theorem tag_sample {t : Ty} (ht : standard.sample? name = some t) :
    ∃ tag, (standard.table.tag stepBound t).result = some (.ok tag) := by
  have hmem : (name, t) ∈ standard.samples := by
    obtain ⟨l₁, l₂, heq, -⟩ := List.lookup_eq_some_iff.1 ht
    simp [heq]
  obtain ⟨tag, htag⟩ := Option.isSome_iff_exists.1 (Standard.samples_build _ hmem)
  have hkeeps := standard.table.tag_keeps (show 9 ≤ stepBound by decide) t
  exact ⟨tag, result_of_keeps hkeeps (value?_eq_some_iff.1 htag)⟩

def sampleTag (name : String) : Except RunError (String × Tag) :=
  match standard.sample? name with
  | none => .error (.unknownType name)
  | some t =>
    match (standard.table.tag stepBound t).value? with
    | some tag => .ok (name, tag)
    | none => .error (.exhausted name)

theorem sampleTag_of_tag {t : Ty} (ht : standard.sample? name = some t) {tag : Tag}
    (htag : (standard.table.tag stepBound t).result = some (.ok tag)) :
    sampleTag name = .ok (name, tag) := by
  simp only [sampleTag, ht, value?_eq_some_iff.2 htag]

theorem sampleTag_of_unknown (h : standard.sample? name = none) :
    sampleTag name = .error (.unknownType name) := by
  simp only [sampleTag, h]

theorem sampleTag_of_known (h : (standard.sample? name).isSome) :
    ∃ t tag, standard.sample? name = some t ∧ Ends (standard.table.tag · t) (some tag) ∧
      sampleTag name = .ok (name, tag) := by
  obtain ⟨t, ht⟩ := Option.isSome_iff_exists.1 h
  obtain ⟨tag, htag⟩ := tag_sample ht
  exact ⟨t, tag, ht, ends_some_iff_answers.2 ((standard.table.steady_tag t).answers htag),
    sampleTag_of_tag ht htag⟩

/-- What a sample is described with does not depend on the cache that it shares with others. -/
theorem buildTags_eq_mapM (config : Config) (names : List String) :
    ∀ (c : RootCache) (o : ObjectId), c.Sound standard.table →
      buildTags standard config c o names = names.mapM sampleTag := by
  induction names with
  | nil => exact fun _ _ _ ↦ rfl
  | cons name names ih =>
    intro c o hc
    rw [List.mapM_cons, buildTags]
    cases ht : standard.sample? name with
    | none =>
      rw [sampleTag_of_unknown ht]
      rfl
    | some t =>
      obtain ⟨tag, htag⟩ := tag_sample ht
      have hresult := SymbolTable.makeTag_result_of_tag hc config (· == o) ⟨o, t⟩ htag
      have hsound : RootCache.Sound standard.table
          (standard.table.makeTag stepBound config c (· == o) ⟨o, t⟩).2 :=
        (hc.makeDescriptor (· == o) stepBound config ⟨o, t⟩).1
      rw [sampleTag_of_tag ht htag]
      rcases hmake : standard.table.makeTag stepBound config c (· == o) ⟨o, t⟩ with ⟨b, c'⟩
      rw [hmake] at hresult hsound
      rcases b with _ | ⟨log, r⟩
      · cases hresult
      · cases hresult
        simp only [hmake, ih c' (o + 1) hsound]
        rfl

theorem mapM_sampleTag_of_known (h : ∀ name ∈ names, (standard.sample? name).isSome) :
    ∃ tags, names.mapM sampleTag = .ok tags ∧
      List.Forall₂ (fun name p ↦ p.1 = name ∧ ∃ t, standard.sample? name = some t ∧
        Ends (standard.table.tag · t) (some p.2)) names tags := by
  induction names with
  | nil => exact ⟨[], rfl, .nil⟩
  | cons name names ih =>
    obtain ⟨t, tag, ht, htag, hsample⟩ := sampleTag_of_known (h name List.mem_cons_self)
    obtain ⟨tags, htags, hall⟩ := ih fun n hn ↦ h n (List.mem_cons_of_mem name hn)
    refine ⟨(name, tag) :: tags, ?_, .cons ⟨rfl, t, ht, htag⟩ hall⟩
    rw [List.mapM_cons, hsample, htags]
    rfl

theorem mapM_sampleTag_of_unknown
    (h : names.find? (fun name ↦ (standard.sample? name).isNone) = some name) :
    names.mapM sampleTag = .error (.unknownType name) := by
  induction names with
  | nil => cases h
  | cons first names ih =>
    rw [List.mapM_cons]
    cases hfirst : standard.sample? first with
    | none =>
      obtain rfl : first = name := by simpa [hfirst] using h
      rw [sampleTag_of_unknown hfirst]
      rfl
    | some t =>
      have hrest : names.find? (fun name ↦ (standard.sample? name).isNone) = some name := by
        simpa [hfirst] using h
      obtain ⟨t', tag, -, -, hsample⟩ := sampleTag_of_known (Option.isSome_of_mem hfirst)
      rw [hsample, ih hrest]
      rfl

end Samples

section Output

variable {args : Args} {around : Surroundings} (htypes : args.types ≠ []) (hlist : args.list = false)

def usesColor (args : Args) (around : Surroundings) : Bool :=
  args.pretty.getD around.terminal && around.allowsColor

include htypes

theorem buildTags_types (config : Config) :
    buildTags standard config .empty 0 (if args.types.isEmpty then standard.samples.map (·.1)
      else args.types) = args.types.mapM sampleTag := by
  rw [if_neg (by simpa using htypes)]
  exact buildTags_eq_mapM config _ _ _ RootCache.Reached.empty.sound

include hlist

theorem runArgs_of_error {e : RunError} (h : args.types.mapM sampleTag = .error e) :
    runArgs args around = ⟨1, "", "Error: " ++ e.message ++ "\n"⟩ := by
  simp only [runArgs, hlist, Bool.false_eq_true, if_false, buildTags_types htypes, h]

theorem runArgs_of_ok {tags : List (String × Tag)} (h : args.types.mapM sampleTag = .ok tags) :
    runArgs args around = ⟨0, printTags args (usesColor args around) tags, ""⟩ := by
  simp only [runArgs, hlist, Bool.false_eq_true, if_false, buildTags_types htypes, h,
    usesColor]

/-- For samples the command prints one report each, in the order in which they are asked for, and as
JSON they are read back from the text; if one of the names is unknown, it prints nothing but an error
that names the first such. The switches of the cache and of the order of builds change none of it. -/
theorem output_all_or_nothing :
    ((∀ name ∈ args.types, (standard.sample? name).isSome) →
      ∃ reports, List.Forall₂ (ReportsOn (if args.short then .short else .long)) args.types reports ∧
        (args.format = .text → runArgs args around =
          ⟨0, String.join (reports.map (Report.render (usesColor args around))), ""⟩) ∧
        (args.format = .json → runArgs args around =
            ⟨0, (Json.arr (reports.map Report.toJson)).pretty ++ "\n", ""⟩ ∧
          ∀ j : Json, (runArgs args around).stdout = j.pretty ++ "\n" →
            ∃ items, j = .arr items ∧ items.map reportedTag? = reports.map (some ·.tag))) ∧
      (∀ name, args.types.find? (fun name ↦ (standard.sample? name).isNone) = some name →
        runArgs args around = ⟨1, "", "Error: " ++ (RunError.unknownType name).message ++ "\n"⟩) ∧
      ∀ (noCache : Bool) (env : String → Option String),
        (∀ v, v ≠ "LIGHTTAG_CACHE" → v ≠ "LIGHTTAG_SERIALIZE_REFLECTION" → env v = around.env v) →
        runArgs { args with noCache } { around with env } = runArgs args around := by
  refine ⟨fun hknown ↦ ?_, fun name hname ↦ ?_, fun noCache env henv ↦ ?_⟩
  · obtain ⟨tags, htags, hall⟩ := mapM_sampleTag_of_known hknown
    have hrun := @runArgs_of_ok args around htypes hlist tags htags
    let style : NameStyle := if args.short then .short else .long
    let reports := tags.map fun p ↦ Report.mk p.1 p.2 style
    have hreports : List.Forall₂ (ReportsOn style) args.types reports :=
      List.forall₂_map_right_iff.2 (hall.imp fun name p h ↦ ⟨h.1, rfl, h.2⟩)
    refine ⟨reports, hreports, fun hformat ↦ ?_, fun hformat ↦ ?_⟩
    · simpa only [printTags, hformat] using hrun
    · have hjson : runArgs args around =
          ⟨0, (Json.arr (reports.map Report.toJson)).pretty ++ "\n", ""⟩ := by
        simpa only [printTags, hformat] using hrun
      refine ⟨hjson, fun j hj ↦ ⟨reports.map Report.toJson, ?_, ?_⟩⟩
      · rw [hjson] at hj
        exact Json.pretty_injective ((String.append_left_inj _).1 hj.symm)
      · exact map_reportedTag? hreports
  · exact runArgs_of_error htypes hlist (mapM_sampleTag_of_unknown hname)
  -- The two variables that may differ are not among those that colour depends on.
  · have hcolor : usesColor { args with noCache } { around with env } = usesColor args around := by
      have hforce := henv "CLICOLOR_FORCE" (by decide) (by decide)
      have hnone := henv "NO_COLOR" (by decide) (by decide)
      have hcolor := henv "CLICOLOR" (by decide) (by decide)
      simp only [usesColor, Surroundings.allowsColor, hforce, hnone, hcolor]
    cases h : args.types.mapM sampleTag with
    | error e =>
      rw [runArgs_of_error htypes hlist h]
      exact @runArgs_of_error { args with noCache } _ htypes hlist e h
    | ok tags =>
      rw [runArgs_of_ok htypes hlist h, ← hcolor]
      exact @runArgs_of_ok { args with noCache } _ htypes hlist tags h

omit htypes hlist in
theorem repeatedSample_output :
    let around : Surroundings := ⟨fun _ ↦ none, false⟩
    (∃ reports : List Report, reports.map (·.name) = ["List[Int]", "Int", "List[Int]"] ∧
      runArgs { types := ["List[Int]", "Int", "List[Int]"], format := .json } around =
        ⟨0, (Json.arr (reports.map Report.toJson)).pretty ++ "\n", ""⟩) ∧
    runArgs { types := ["List[Int]", "Nope", "Nada"] } around =
      ⟨1, "", "Error: unknown type \x60Nope\x60; run with --list to see the available names\n"⟩ := by
  intro around
  constructor
  · obtain ⟨hknown, -, -⟩ := @output_all_or_nothing
      { types := ["List[Int]", "Int", "List[Int]"], format := .json } around (by decide) rfl
    obtain ⟨reports, hreports, -, hjson⟩ := hknown (by decide)
    exact ⟨reports, map_name hreports, (hjson rfl).1⟩
  · obtain ⟨-, hunknown, -⟩ := @output_all_or_nothing
      { types := ["List[Int]", "Nope", "Nada"] } around (by decide) rfl
    exact hunknown "Nope" (by decide)

end Output

end TypeTag.CommandLine
