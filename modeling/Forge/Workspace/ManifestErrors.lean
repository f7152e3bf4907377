import Forge.Workspace.ManifestParser

/-!
# Errors of a manifest

What `parse_manifest` says of a text that it does not accept. `Faulty` lists what can be wrong with the words
of a line, given the names of the nodes before it, each with its error. A text fails at its first line that
is faulty, with the number of that line, or for having no nodes if there is no such line
(`parseManifest_eq_error_iff`).
-/

namespace Forge

open Std (ExtTreeMap ExtTreeSet)
open Words (words lines)
open ManifestRecord (optionWord kindWord)

/-- What can be wrong with the options of a node: the first option that is none, or whose key is taken. -/
inductive FaultyOptions : List Str → Status → Prop
  | malformed {options : List (Str × Str)} (hoptions : ∀ option ∈ options, IsOption option)
      (hkeys : (options.map Prod.fst).Nodup) {word : Str}
      (hword : ∀ option, IsOption option → word ≠ optionWord option) (behind : List Str) :
      FaultyOptions (options.map optionWord ++ word :: behind)
        (manifestFormat "node option must be key=value")
  | twice {options : List (Str × Str)} (hoptions : ∀ option ∈ options, IsOption option)
      (hkeys : (options.map Prod.fst).Nodup) {option : Str × Str} (hoption : IsOption option)
      (hmem : option.1 ∈ options.map Prod.fst) (behind : List Str) :
      FaultyOptions (options.map optionWord ++ optionWord option :: behind)
        (manifestFormat "duplicate node option")

/-- What can be wrong with the words of a line behind nodes with these names. -/
inductive Faulty (names : List Str) : List Str → Status → Prop
  | unknown {parts : List Str}
      (hrecord : ∀ record ∈ parts.head?, record ≠ "node" ∧ record ≠ "edge" ∧ record ≠ "target") :
      Faulty names parts (manifestFormat "unknown manifest record")
  | nodeShort {rest : List Str} (hshort : rest.length < 2) :
      Faulty names (("node" : Str) :: rest) (manifestFormat "node requires name and command")
  | nodeTwice {name : Str} (hmem : name ∈ names) (command : Str) (rest : List Str) :
      Faulty names (("node" : Str) :: name :: command :: rest)
        (Status.error .graphConflict "manifest" "duplicate node name")
  | nodeOptions {name : Str} (hnew : name ∉ names) (command : Str) {rest : List Str} {status : Status}
      (hrest : FaultyOptions rest status) : Faulty names (("node" : Str) :: name :: command :: rest) status
  | edgeShort {rest : List Str} (hshort : rest.length < 2) :
      Faulty names (("edge" : Str) :: rest) (manifestFormat "edge requires from and to")
  | edgeKind (fromName toName : Str) {text : Str} (hkind : ∀ kind, text ≠ kindWord kind) (rest : List Str) :
      Faulty names (("edge" : Str) :: fromName :: toName :: text :: rest)
        (manifestFormat "edge kind must be declared or discovered")
  | targetShort : Faulty names [("target" : Str)] (manifestFormat "target requires node name")

/-! ## Options and kinds -/

theorem parseOption_eq_error_iff {token : Str} {status : Status} : parseOption token = .error status ↔
    (∀ option, IsOption option → token ≠ optionWord option) ∧
      status = manifestFormat "node option must be key=value" := by
  constructor
  · intro h
    refine ⟨fun option hoption htoken => ?_, ?_⟩
    · rw [parseOption_eq_ok_iff.mpr ⟨hoption, htoken⟩] at h
      cases h
    · rw [parseOption] at h
      split_ifs at h
      exact (Except.error.inj h).symm
  · rintro ⟨hnone, rfl⟩
    rw [parseOption]
    refine if_pos (by_contra fun hcut => ?_)
    refine hnone _ ?_ (parseOption_eq_ok_iff.mp (if_neg hcut)).2
    exact (parseOption_eq_ok_iff.mp (if_neg hcut)).1

theorem parseEdgeKind_eq_error_iff {text : Str} {status : Status} : parseEdgeKind text = .error status ↔
    (∀ kind, text ≠ kindWord kind) ∧ status = manifestFormat "edge kind must be declared or discovered" := by
  constructor
  · intro h
    refine ⟨fun kind hkind => ?_, ?_⟩
    · rw [parseEdgeKind_eq_ok_iff.mpr hkind] at h
      cases h
    · rw [parseEdgeKind] at h
      split_ifs at h
      exact (Except.error.inj h).symm
  · rintro ⟨hnone, rfl⟩
    exact (if_neg (hnone .declared)).trans (if_neg (hnone .discovered))

theorem parseOptions_append {added : List (Str × Str)} (hadded : ∀ option ∈ added, IsOption option)
    (hkeys : (added.map Prod.fst).Nodup) (rest : List Str) :
    ∀ {options : ExtTreeMap Str Str}, (∀ option ∈ added, option.1 ∉ options) →
      ∃ options', parseOptions options (added.map optionWord ++ rest) = parseOptions options' rest ∧
        ∀ key, key ∈ options' ↔ key ∈ options ∨ key ∈ added.map Prod.fst := by
  induction added with
  | nil => exact fun {options} _ => ⟨options, rfl, by simp⟩
  | cons option added ih =>
    intro options hnew
    obtain ⟨hoption, hadded⟩ := List.forall_mem_cons.mp hadded
    obtain ⟨hoptionNew, hnew⟩ := List.forall_mem_cons.mp hnew
    obtain ⟨hnotin, hkeys⟩ := List.nodup_cons.mp hkeys
    obtain ⟨options', hparse, hmem⟩ := @ih hadded hkeys (options.insert option.1 option.2)
      fun other hother => by
        rw [ExtTreeMap.mem_insert, not_or, Std.compare_eq_iff_eq]
        exact ⟨fun hsame => hnotin (hsame ▸ List.mem_map_of_mem hother), hnew other hother⟩
    refine ⟨options', ?_, fun key => ?_⟩
    · rw [List.map_cons, List.cons_append, parseOptions, parseOption_eq_ok_iff.mpr ⟨hoption, rfl⟩]
      dsimp only
      rw [if_neg hoptionNew, hparse]
    · rw [hmem, ExtTreeMap.mem_insert, Std.compare_eq_iff_eq, List.map_cons, List.mem_cons]
      tauto

theorem parseOptions_error {parts : List Str} {status : Status} :
    ∀ {options : ExtTreeMap Str Str}, parseOptions options parts = .error status →
      ∃ (added : List (Str × Str)) (word : Str) (behind : List Str),
        (∀ option ∈ added, IsOption option) ∧ (added.map Prod.fst).Nodup ∧
        (∀ option ∈ added, option.1 ∉ options) ∧ parts = added.map optionWord ++ word :: behind ∧
        ((∀ option, IsOption option → word ≠ optionWord option) ∧
            status = manifestFormat "node option must be key=value" ∨
          ∃ option, IsOption option ∧ word = optionWord option ∧
            (option.1 ∈ options ∨ option.1 ∈ added.map Prod.fst) ∧
            status = manifestFormat "duplicate node option") := by
  induction parts with
  | nil =>
    intro _ h
    cases h
  | cons token parts ih =>
    intro options h
    rw [parseOptions] at h
    rcases htoken : parseOption token with failure | option
    · rw [htoken] at h
      obtain ⟨hnone, rfl⟩ := parseOption_eq_error_iff.mp htoken
      exact ⟨[], token, parts, by simp, List.nodup_nil, by simp, rfl, .inl ⟨hnone, (Except.error.inj h).symm⟩⟩
    · rw [htoken] at h
      dsimp only at h
      obtain ⟨hoption, rfl⟩ := parseOption_eq_ok_iff.mp htoken
      split_ifs at h with hmem
      · exact ⟨[], _, parts, by simp, List.nodup_nil, by simp, rfl,
          .inr ⟨option, hoption, rfl, .inl hmem, (Except.error.inj h).symm⟩⟩
      · obtain ⟨added, word, behind, hadded, hkeys, hnew, rfl, hfault⟩ := ih h
        simp only [ExtTreeMap.mem_insert, not_or, Std.compare_eq_iff_eq] at hnew hfault
        refine ⟨option :: added, word, behind, List.forall_mem_cons.mpr ⟨hoption, hadded⟩, ?_,
          List.forall_mem_cons.mpr ⟨hmem, fun other hother => (hnew other hother).2⟩, rfl, ?_⟩
        · refine List.nodup_cons.mpr ⟨fun hin => ?_, hkeys⟩
          obtain ⟨other, hother, hsame⟩ := List.mem_map.mp hin
          exact (hnew other hother).1 hsame.symm
        · refine hfault.imp_right ?_
          rintro ⟨again, hagain, hword, htaken, hstatus⟩
          refine ⟨again, hagain, hword, ?_, hstatus⟩
          rw [List.map_cons, List.mem_cons, eq_comm]
          tauto

theorem parseOptions_empty_eq_error_iff {parts : List Str} {status : Status} :
    parseOptions ∅ parts = .error status ↔ FaultyOptions parts status := by
  constructor
  · intro h
    obtain ⟨added, word, behind, hadded, hkeys, -, rfl, ⟨hword, rfl⟩ | ⟨option, hoption, rfl, hmem, rfl⟩⟩ :=
      parseOptions_error h
    · exact .malformed hadded hkeys hword behind
    · exact .twice hadded hkeys hoption (hmem.resolve_left ExtTreeMap.not_mem_empty) behind
  · intro h
    induction h with
    | @malformed options hoptions hkeys word hword behind =>
      obtain ⟨options', hparse, -⟩ := @parseOptions_append _ hoptions hkeys (word :: behind) ∅
        fun _ _ => ExtTreeMap.not_mem_empty
      rw [hparse, parseOptions, parseOption_eq_error_iff.mpr ⟨hword, rfl⟩]
    | @twice options hoptions hkeys option hoption hmem behind =>
      obtain ⟨options', hparse, hkeys'⟩ := @parseOptions_append _ hoptions hkeys
        (optionWord option :: behind) ∅ fun _ _ => ExtTreeMap.not_mem_empty
      rw [hparse, parseOptions, parseOption_eq_ok_iff.mpr ⟨hoption, rfl⟩]
      dsimp only
      rw [if_pos ((hkeys' _).mpr (.inr hmem))]

/-! ## Records -/

namespace ManifestParser

variable {parser parser' : ManifestParser} {names : List Str} {parts : List Str} {status : Status}

theorem parseNode_eq_error_iff (hnames : ∀ name, name ∈ parser.nodeNames ↔ name ∈ names)
    (hwords : ∀ word ∈ parts, word ≠ []) :
    parser.parseNode parts = .error status ↔
      parts.length < 2 ∧ status = manifestFormat "node requires name and command" ∨
        ∃ name command rest, parts = name :: command :: rest ∧
          (name ∈ names ∧ status = Status.error .graphConflict "manifest" "duplicate node name" ∨
            name ∉ names ∧ FaultyOptions rest status) := by
  rcases parts with _ | ⟨name, _ | ⟨command, rest⟩⟩
  · simp [parseNode, eq_comm]
  · simp [parseNode, eq_comm]
  · have hlong : ¬ (name :: command :: rest).length < 2 := by
      rw [List.length_cons, List.length_cons]
      omega
    have hparts (P : Str → Str → List Str → Prop) : (∃ name' command' rest',
        name :: command :: rest = name' :: command' :: rest' ∧ P name' command' rest') ↔
          P name command rest := by
      constructor
      · rintro ⟨_, _, _, heq, h⟩
        cases heq
        exact h
      · exact fun h => ⟨name, command, rest, rfl, h⟩
    rw [parseNode_words hwords, hparts, ← hnames, ← parseOptions_empty_eq_error_iff]
    by_cases hmem : name ∈ parser.nodeNames
    · simp [hmem, eq_comm]
    · rw [if_neg hmem]
      rcases parseOptions ∅ rest with failure | options
      · simp [hmem]
      · simp [hmem]

theorem parseEdge_eq_error_iff (hwords : ∀ word ∈ parts, word ≠ []) :
    parser.parseEdge parts = .error status ↔
      parts.length < 2 ∧ status = manifestFormat "edge requires from and to" ∨
        ∃ fromName toName text rest, parts = fromName :: toName :: text :: rest ∧
          (∀ kind, text ≠ kindWord kind) ∧
          status = manifestFormat "edge kind must be declared or discovered" := by
  rcases parts with _ | ⟨fromName, _ | ⟨toName, rest⟩⟩
  · simp [parseEdge, eq_comm]
  · simp [parseEdge, eq_comm]
  · rw [parseEdge_words hwords]
    rcases rest with _ | ⟨text, rest⟩
    · simp [parseEdgeKind]
    · rw [List.getElem?_cons_zero, Option.getD_some]
      have hkind := @parseEdgeKind_eq_error_iff text status
      rcases hparsed : parseEdgeKind text with failure | kind
      · simpa [hparsed] using hkind
      · simpa [hparsed] using hkind

theorem parseTarget_eq_error_iff (hwords : ∀ word ∈ parts, word ≠ []) :
    parser.parseTarget parts = .error status ↔
      parts = [] ∧ status = manifestFormat "target requires node name" := by
  rcases parts with _ | ⟨name, rest⟩
  · simp [parseTarget, eq_comm]
  · have hname : name ≠ [] := hwords name (by simp)
    simp [parseTarget, hname]

theorem parseRecord_eq_error_iff (hnames : ∀ name, name ∈ parser.nodeNames ↔ name ∈ names)
    (hwords : ∀ word ∈ parts, word ≠ []) :
    parser.parseRecord parts = .error status ↔ Faulty names parts status := by
  have hunknown : parser.parseRecord [] = .error (manifestFormat "unknown manifest record") := by
    rw [parseRecord, if_neg (by decide), if_neg (by decide), if_neg (by decide)]
  constructor
  · intro h
    rcases parts with _ | ⟨record, rest⟩
    · rw [← Except.error.inj (hunknown.symm.trans h)]
      exact .unknown (by simp)
    · have hrest : ∀ word ∈ rest, word ≠ [] := List.forall_mem_of_forall_mem_cons hwords
      rw [parseRecord_cons] at h
      split_ifs at h with hnode hedge htarget
      · rw [hnode]
        obtain ⟨hshort, rfl⟩ | ⟨name, command, rest, rfl, ⟨hmem, rfl⟩ | ⟨hnew, hoptions⟩⟩ :=
          (parseNode_eq_error_iff hnames hrest).mp h
        · exact .nodeShort hshort
        · exact .nodeTwice hmem command rest
        · exact .nodeOptions hnew command hoptions
      · rw [hedge]
        obtain ⟨hshort, rfl⟩ | ⟨fromName, toName, text, rest, rfl, hkind, rfl⟩ :=
          (parseEdge_eq_error_iff hrest).mp h
        · exact .edgeShort hshort
        · exact .edgeKind fromName toName hkind rest
      · obtain ⟨rfl, rfl⟩ := (parseTarget_eq_error_iff hrest).mp h
        rw [htarget]
        exact .targetShort
      · rw [← Except.error.inj h]
        exact .unknown (by simpa using ⟨hnode, hedge, htarget⟩)
  · intro h
    cases h with
    | unknown hrecord =>
      rcases parts with _ | ⟨record, rest⟩
      · exact hunknown
      · obtain ⟨hnode, hedge, htarget⟩ := hrecord record rfl
        rw [parseRecord_cons, if_neg hnode, if_neg hedge, if_neg htarget]
    | nodeShort hshort =>
      rw [parseRecord_node, parseNode_eq_error_iff hnames (List.forall_mem_of_forall_mem_cons hwords)]
      exact .inl ⟨hshort, rfl⟩
    | nodeTwice hmem command rest =>
      rw [parseRecord_node, parseNode_eq_error_iff hnames (List.forall_mem_of_forall_mem_cons hwords)]
      exact .inr ⟨_, command, rest, rfl, .inl ⟨hmem, rfl⟩⟩
    | nodeOptions hnew command hoptions =>
      rw [parseRecord_node, parseNode_eq_error_iff hnames (List.forall_mem_of_forall_mem_cons hwords)]
      exact .inr ⟨_, command, _, rfl, .inr ⟨hnew, hoptions⟩⟩
    | edgeShort hshort =>
      rw [parseRecord_edge, parseEdge_eq_error_iff (List.forall_mem_of_forall_mem_cons hwords)]
      exact .inl ⟨hshort, rfl⟩
    | edgeKind fromName toName hkind rest =>
      rw [parseRecord_edge, parseEdge_eq_error_iff (List.forall_mem_of_forall_mem_cons hwords)]
      exact .inr ⟨fromName, toName, _, rest, rfl, hkind, rfl⟩
    | targetShort =>
      rw [parseRecord_target, parseTarget_eq_error_iff (List.forall_mem_of_forall_mem_cons hwords)]
      exact ⟨rfl, rfl⟩

/-! ## Lines -/

/-- The parser knows the names of its nodes. -/
def NamesOk (parser : ManifestParser) : Prop := ∀ name, name ∈ parser.nodeNames ↔ name ∈ parser.manifest.names

theorem NamesOk.puts {record : ManifestRecord} (h : parser.NamesOk) (hputs : parser.Puts record parser') :
    parser'.NamesOk := by
  obtain ⟨hmanifest, hnames⟩ := hputs
  intro name
  rw [hmanifest, GraphManifest.names, GraphManifest.extend, List.map_append, List.mem_append,
    show parser.manifest.nodes.map ManifestNode.name = parser.manifest.names from rfl, ← h name]
  cases record with
  | node put =>
    rw [hnames.2, ExtTreeSet.mem_insert, Std.compare_eq_iff_eq]
    simp [ManifestRecord.node?, or_comm, eq_comm]
  | edge put =>
    rw [hnames]
    simp [ManifestRecord.node?]
  | target put =>
    rw [hnames]
    simp [ManifestRecord.node?]

theorem NamesOk.run {written : List (List Str)} (hwords : ∀ parts ∈ written, ∀ word ∈ parts, word ≠ [])
    (h : parser.NamesOk) (hrun : written.foldlM parseRecord parser = .ok parser') : parser'.NamesOk := by
  induction written generalizing parser with
  | nil => rwa [← Except.ok.inj hrun]
  | cons parts written ih =>
    obtain ⟨hparts, hwritten⟩ := List.forall_mem_cons.mp hwords
    rw [List.foldlM_cons] at hrun
    rcases hrecord : parser.parseRecord parts with failure | parser₁
    · rw [hrecord] at hrun
      cases hrun
    · rw [hrecord] at hrun
      obtain ⟨record, hputs, -⟩ := (parseRecord_eq_ok_iff hparts).mp hrecord
      exact ih hwritten (h.puts hputs) hrun

theorem ne_nil_of_mem {ls : List Str} {parts : List Str} (hparts : parts ∈ ls.filterMap tokenLine) {word : Str}
    (hword : word ∈ parts) : word ≠ [] := by
  obtain ⟨line, -, hline⟩ := List.mem_filterMap.mp hparts
  exact (isWord_of_tokenLine hline hword).ne_nil

theorem namesOk_run {ls : List Str} (hrun : (ls.filterMap tokenLine).foldlM parseRecord {} = .ok parser) :
    parser.NamesOk := by
  have hempty : ({} : ManifestParser).NamesOk := fun name =>
    iff_of_false ExtTreeSet.not_mem_empty List.not_mem_nil
  exact hempty.run (fun parts hparts word hword => ne_nil_of_mem hparts hword) hrun

theorem parseLines_append {before : List Str} (rest : List Str) :
    ∀ {parser : ManifestParser} {lineNumber : Nat},
      (before.filterMap tokenLine).foldlM parseRecord parser = .ok parser' →
        parser.parseLines lineNumber (before ++ rest) =
          parser'.parseLines (lineNumber + before.length) rest := by
  induction before with
  | nil =>
    intro parser lineNumber hrun
    rw [← Except.ok.inj hrun]
    rfl
  | cons line before ih =>
    intro parser lineNumber hrun
    rw [List.filterMap_cons, tokenLine] at hrun
    rw [List.cons_append, parseLines, List.length_cons, show lineNumber + (before.length + 1) =
      lineNumber + 1 + before.length by omega]
    by_cases hblank : trimComment line = []
    · rw [if_pos hblank] at hrun ⊢
      exact ih hrun
    · rw [if_neg hblank] at hrun ⊢
      rw [List.foldlM_cons] at hrun
      rcases hrecord : parser.parseRecord (words isSpace (trimComment line)) with failure | parser₁
      · rw [hrecord] at hrun
        cases hrun
      · rw [hrecord] at hrun
        exact ih hrun

theorem parseLines_error {ls : List Str} :
    ∀ {parser : ManifestParser} {lineNumber : Nat}, parser.parseLines lineNumber ls = .error status →
      ∃ before line behind parser' fault, ls = before ++ line :: behind ∧
        (before.filterMap tokenLine).foldlM parseRecord parser = .ok parser' ∧ trimComment line ≠ [] ∧
        parser'.parseRecord (words isSpace (trimComment line)) = .error fault ∧
        status = { fault with offset := lineNumber + before.length + 1 } := by
  induction ls with
  | nil =>
    intro _ _ h
    cases h
  | cons line ls ih =>
    intro parser lineNumber h
    rw [parseLines] at h
    -- the line is passed over, and the error is that of a line behind it
    have hlater {parser₁ : ManifestParser} (hline : ∀ before parser',
        (before.filterMap tokenLine).foldlM parseRecord parser₁ = .ok parser' →
          ((line :: before).filterMap tokenLine).foldlM parseRecord parser = .ok parser')
        (h : parser₁.parseLines (lineNumber + 1) ls = .error status) :
        ∃ before line' behind parser' fault, line :: ls = before ++ line' :: behind ∧
          (before.filterMap tokenLine).foldlM parseRecord parser = .ok parser' ∧ trimComment line' ≠ [] ∧
          parser'.parseRecord (words isSpace (trimComment line')) = .error fault ∧
          status = { fault with offset := lineNumber + before.length + 1 } := by
      obtain ⟨before, line', behind, parser', fault, rfl, hrun, hblank, hfault, rfl⟩ := ih h
      refine ⟨line :: before, line', behind, parser', fault, rfl, hline before parser' hrun, hblank, hfault, ?_⟩
      rw [List.length_cons, show lineNumber + 1 + before.length + 1 =
        lineNumber + (before.length + 1) + 1 by omega]
    by_cases hblank : trimComment line = []
    · rw [if_pos hblank] at h
      refine hlater (fun before parser' hrun => ?_) h
      rwa [List.filterMap_cons, tokenLine, if_pos hblank]
    · rw [if_neg hblank] at h
      rcases hrecord : parser.parseRecord (words isSpace (trimComment line)) with fault | parser₁
      · rw [hrecord] at h
        exact ⟨[], line, ls, parser, fault, rfl, rfl, hblank, hrecord, (Except.error.inj h).symm⟩
      · rw [hrecord] at h
        refine hlater (fun before parser' hrun => ?_) h
        rw [List.filterMap_cons, tokenLine, if_neg hblank, List.foldlM_cons, hrecord]
        exact hrun

theorem parseLines_eq_error_iff {ls : List Str} {lineNumber : Nat} :
    parser.parseLines lineNumber ls = .error status ↔
      ∃ before line behind parser' fault, ls = before ++ line :: behind ∧
        (before.filterMap tokenLine).foldlM parseRecord parser = .ok parser' ∧ trimComment line ≠ [] ∧
        parser'.parseRecord (words isSpace (trimComment line)) = .error fault ∧
        status = { fault with offset := lineNumber + before.length + 1 } := by
  refine ⟨parseLines_error, ?_⟩
  rintro ⟨before, line, behind, parser', fault, rfl, hrun, hblank, hfault, rfl⟩
  rw [parseLines_append (line :: behind) hrun, parseLines, if_neg hblank, hfault]

end ManifestParser

theorem exists_run_iff {ls : List Str} {manifest : GraphManifest} :
    (∃ parser, (ls.filterMap tokenLine).foldlM ManifestParser.parseRecord {} = .ok parser ∧
        parser.manifest = manifest) ↔
      ∃ records, List.Forall₂ ManifestRecord.Reads records (ls.filterMap tokenLine) ∧
        (GraphManifest.ofRecords records).names.Nodup ∧ manifest = .ofRecords records := by
  have hdistinct : ∀ records, ({} : ManifestParser).Distinct records ↔
      (GraphManifest.ofRecords records).names.Nodup := fun records =>
    and_iff_left fun put _ => ExtTreeSet.not_mem_empty
  rw [ManifestParser.foldlM_parseRecord_iff fun parts hparts word hword =>
    ManifestParser.ne_nil_of_mem hparts hword]
  simp only [hdistinct, GraphManifest.extend_empty]

theorem parseManifest_error_cases {text : Str} {status : Status} :
    parseManifest text = .error status ↔
      (∃ parser, ManifestParser.parseLines {} 0 (lines 10 text) = .ok parser ∧ parser.manifest.nodes = [] ∧
          status = manifestFormat "manifest contains no nodes") ∨
        ManifestParser.parseLines {} 0 (lines 10 text) = .error status := by
  rw [parseManifest]
  rcases ManifestParser.parseLines {} 0 (lines 10 text) with fault | parser
  · simp
  · by_cases hnodes : parser.manifest.nodes = []
    · simp [hnodes, eq_comm]
    · simp [hnodes]

/-- **What is said of a text that is not accepted.** Either each line is read and there is no node, or there
is a first line that is not read, whose error it is, with the number of the line. -/
theorem parseManifest_eq_error_iff {text : Str} {status : Status} :
    parseManifest text = .error status ↔
      (∃ records, List.Forall₂ ManifestRecord.Reads records (tokenLines text) ∧
          (GraphManifest.ofRecords records).nodes = [] ∧
          status = manifestFormat "manifest contains no nodes") ∨
        ∃ before line behind records fault, lines 10 text = before ++ line :: behind ∧
          List.Forall₂ ManifestRecord.Reads records (before.filterMap tokenLine) ∧
          (GraphManifest.ofRecords records).names.Nodup ∧ trimComment line ≠ [] ∧
          Faulty (GraphManifest.ofRecords records).names (words isSpace (trimComment line)) fault ∧
          status = { fault with offset := before.length + 1 } := by
  rw [parseManifest_error_cases, ManifestParser.parseLines_eq_error_iff]
  refine or_congr ⟨?_, ?_⟩ ⟨?_, ?_⟩
  · rintro ⟨parser, hparser, hnodes, rfl⟩
    obtain ⟨records, hread, -, hmanifest⟩ := exists_run_iff.mp
      ⟨parser, ManifestParser.parseLines_eq_ok_iff.mp hparser, rfl⟩
    exact ⟨records, hread, hmanifest ▸ hnodes, rfl⟩
  · rintro ⟨records, hread, hnodes, rfl⟩
    have hnodup : (GraphManifest.ofRecords records).names.Nodup := by
      rw [GraphManifest.names, hnodes]
      exact List.nodup_nil
    obtain ⟨parser, hparser, hmanifest⟩ := exists_run_iff.mpr ⟨records, hread, hnodup, rfl⟩
    exact ⟨parser, ManifestParser.parseLines_eq_ok_iff.mpr hparser, by rw [hmanifest, hnodes], rfl⟩
  · rintro ⟨before, line, behind, parser, fault, hlines, hrun, hblank, hfault, rfl⟩
    obtain ⟨records, hread, hnodup, hmanifest⟩ := exists_run_iff.mp ⟨parser, hrun, rfl⟩
    refine ⟨before, line, behind, records, fault, hlines, hread, hnodup, hblank, ?_, ?_⟩
    · rw [← hmanifest]
      exact (ManifestParser.parseRecord_eq_error_iff (ManifestParser.namesOk_run hrun)
        fun word hword => (Words.isWord_of_mem hword).ne_nil).mp hfault
    · rw [Nat.zero_add]
  · rintro ⟨before, line, behind, records, fault, hlines, hread, hnodup, hblank, hfault, rfl⟩
    obtain ⟨parser, hrun, hmanifest⟩ := exists_run_iff.mpr ⟨records, hread, hnodup, rfl⟩
    refine ⟨before, line, behind, parser, fault, hlines, hrun, hblank, ?_, ?_⟩
    · rw [← hmanifest] at hfault
      exact (ManifestParser.parseRecord_eq_error_iff (ManifestParser.namesOk_run hrun)
        fun word hword => (Words.isWord_of_mem hword).ne_nil).mpr hfault
    · rw [Nat.zero_add]

/-- The comment counts as a line. -/
example : parseManifest "# twice\nnode a x\nnode a y" =
    .error { Status.error .graphConflict "manifest" "duplicate node name" with offset := 3 } := by
  decide

end Forge
