import Forge.Lib.Words
import Forge.Workspace.Manifest

/-!
# Reading manifests

`parse_manifest` of `manifest.cpp`: a line is a record of a node, an edge or a target, in words, and
everything from a `#` on is a comment. `Reads` says which records the words of a line are read as, and a
text is accepted exactly if each of its lines is read, the nodes have different names and there is one
(`parseManifest_eq_ok_iff`).
-/

namespace Forge

open Std (ExtTreeMap ExtTreeSet)
open Words (words lines IsWord)

/-! ## Definitions -/

/-- `isspace` in the C locale, which `operator>>` uses. -/
def isSpace (c : Byte) : Bool := c = 32 ∨ 9 ≤ c ∧ c ≤ 13

def isBlank (c : Byte) : Bool := c = 32 ∨ c = 9

def trimComment (line : Str) : Str :=
  let line := line.takeWhile (· ≠ 35)
  let line := line.rdropWhile fun c => isBlank c ∨ c = 13
  line.dropWhile isBlank

def manifestFormat (message : Str) : Status := Status.error .format "manifest" message

def parseOption (token : Str) : Result (Str × Str) :=
  let equals := token.idxOf 61
  if equals = token.length ∨ equals = 0 ∨ token.length ≤ equals + 1 then
    .error (manifestFormat "node option must be key=value")
  else .ok (token.take equals, token.drop (equals + 1))

def parseEdgeKind (text : Str) : Result EdgeKind :=
  if text = "declared" then .ok .declared
  else if text = "discovered" then .ok .discovered
  else .error (manifestFormat "edge kind must be declared or discovered")

/-- The variables of the loop over the lines. -/
structure ManifestParser where
  manifest : GraphManifest := {}
  nodeNames : ExtTreeSet Str := ∅

/-- The loop over the options of a node. -/
def parseOptions (options : ExtTreeMap Str Str) : List Str → Result (ExtTreeMap Str Str)
  | [] => .ok options
  | option :: rest =>
    match parseOption option with
    | .error status => .error status
    | .ok (key, value) =>
      if key ∈ options then .error (manifestFormat "duplicate node option")
      else parseOptions (options.insert key value) rest

namespace ManifestParser

-- `parts` are the words that are left to extract; behind the last an extraction leaves its string empty.

def parseNode (parser : ManifestParser) (parts : List Str) : Result ManifestParser :=
  let name := parts[0]?.getD []
  let command := parts[1]?.getD []
  if name = [] ∨ command = [] then .error (manifestFormat "node requires name and command")
  else if name ∈ parser.nodeNames then
    .error (Status.error .graphConflict "manifest" "duplicate node name")
  else
    match parseOptions ∅ (parts.drop 2) with
    | .error status => .error status
    | .ok options => .ok
      { manifest := { parser.manifest with nodes := parser.manifest.nodes ++ [⟨name, ⟨command, options⟩⟩] }
        nodeNames := parser.nodeNames.insert name }

def parseEdge (parser : ManifestParser) (parts : List Str) : Result ManifestParser :=
  let fromName := parts[0]?.getD []
  let toName := parts[1]?.getD []
  let kindText := parts[2]?.getD ("declared" : Str)
  if fromName = [] ∨ toName = [] then .error (manifestFormat "edge requires from and to")
  else
    match parseEdgeKind kindText with
    | .error status => .error status
    | .ok kind => .ok { parser with
        manifest := { parser.manifest with edges := parser.manifest.edges ++ [⟨fromName, toName, kind⟩] } }

def parseTarget (parser : ManifestParser) (parts : List Str) : Result ManifestParser :=
  let name := parts[0]?.getD []
  if name = [] then .error (manifestFormat "target requires node name")
  else .ok { parser with
    manifest := { parser.manifest with targets := parser.manifest.targets ++ [name] } }

/-- The words of a line. -/
def parseRecord (parser : ManifestParser) (parts : List Str) : Result ManifestParser :=
  let record := parts[0]?.getD []
  if record = "node" then parser.parseNode (parts.drop 1)
  else if record = "edge" then parser.parseEdge (parts.drop 1)
  else if record = "target" then parser.parseTarget (parts.drop 1)
  else .error (manifestFormat "unknown manifest record")

/-- The loop over the lines; an error gets the number of its line. -/
def parseLines (parser : ManifestParser) (lineNumber : Nat) : List Str → Result ManifestParser
  | [] => .ok parser
  | line :: rest =>
    let lineNumber := lineNumber + 1
    let line := trimComment line
    if line = [] then parser.parseLines lineNumber rest
    else
      match parser.parseRecord (words isSpace line) with
      | .error status => .error { status with offset := lineNumber }
      | .ok parser => parser.parseLines lineNumber rest

end ManifestParser

def parseManifest (text : Str) : Result GraphManifest :=
  match ManifestParser.parseLines {} 0 (lines 10 text) with
  | .error status => .error status
  | .ok parser =>
    if parser.manifest.nodes = [] then .error (manifestFormat "manifest contains no nodes")
    else .ok parser.manifest

/-! ## Records and their words -/

inductive ManifestRecord
  | node (put : ManifestNode)
  | edge (put : ManifestEdge)
  | target (name : Str)

namespace ManifestRecord

def node? : ManifestRecord → Option ManifestNode
  | node put => some put
  | _ => none

def edge? : ManifestRecord → Option ManifestEdge
  | edge put => some put
  | _ => none

def target? : ManifestRecord → Option Str
  | target name => some name
  | _ => none

def optionWord (option : Str × Str) : Str := option.1 ++ 61 :: option.2

def kindWord : EdgeKind → Str
  | .declared => "declared"
  | .discovered => "discovered"

end ManifestRecord

/-- The manifest that has these records, those of each kind in their order. -/
def GraphManifest.ofRecords (records : List ManifestRecord) : GraphManifest where
  nodes := records.filterMap ManifestRecord.node?
  edges := records.filterMap ManifestRecord.edge?
  targets := records.filterMap ManifestRecord.target?

/-! ## Options and kinds -/

/-- Both parts are there, and the key ends at the first `=`. -/
structure IsOption (option : Str × Str) : Prop where
  key : option.1 ≠ []
  value : option.2 ≠ []
  equals : 61 ∉ option.1

theorem parseOption_cut {key : Str} (hkey : 61 ∉ key) (value : Str) :
    parseOption (key ++ 61 :: value) =
      if key = [] ∨ value = [] then .error (manifestFormat "node option must be key=value")
      else .ok (key, value) := by
  have hequals : (key ++ 61 :: value).idxOf 61 = key.length := by
    rw [List.idxOf_append, if_neg hkey, List.idxOf_cons_self, Nat.zero_add]
  rw [parseOption, hequals]
  have hcut : (key.length = (key ++ 61 :: value).length ∨ key.length = 0 ∨
      (key ++ 61 :: value).length ≤ key.length + 1) ↔ key = [] ∨ value = [] := by
    rw [← List.length_eq_zero_iff, ← List.length_eq_zero_iff, List.length_append, List.length_cons]
    omega
  simp only [hcut]
  simp

theorem parseOption_eq_ok_iff {token : Str} {option : Str × Str} :
    parseOption token = .ok option ↔ IsOption option ∧ token = ManifestRecord.optionWord option := by
  constructor
  · intro h
    by_cases hmem : 61 ∈ token
    · obtain ⟨key, value, rfl, hkey⟩ := List.eq_append_cons_of_mem hmem
      rw [parseOption_cut hkey] at h
      split_ifs at h with hempty
      obtain ⟨hne, hne'⟩ := not_or.mp hempty
      obtain rfl : (key, value) = option := Except.ok.inj h
      exact ⟨⟨hne, hne', hkey⟩, rfl⟩
    · rw [parseOption, List.idxOf_eq_length hmem] at h
      simp at h
  · rintro ⟨hoption, rfl⟩
    rw [ManifestRecord.optionWord, parseOption_cut hoption.equals,
      if_neg (not_or.mpr ⟨hoption.key, hoption.value⟩)]

theorem mem_keys_of_perm {options options' : ExtTreeMap Str Str} {after : List (Str × Str)} {option : Str × Str}
    (h : options'.toList.Perm (options.toList ++ option :: after)) :
    option.1 ∉ options := by
  have hnodup := ((h.map Prod.fst).nodup_iff).mp
    (by rw [ExtTreeMap.map_fst_toList_eq_keys]; exact ExtTreeMap.nodup_keys)
  rw [List.map_append, List.nodup_append, List.map_cons, ExtTreeMap.map_fst_toList_eq_keys] at hnodup
  intro hmem
  exact hnodup.2.2 _ (ExtTreeMap.mem_keys.mpr hmem) _ List.mem_cons_self rfl

theorem parseOptions_eq_ok_iff {parts : List Str} :
    ∀ {options options' : ExtTreeMap Str Str}, parseOptions options parts = .ok options' ↔
      ∃ added, (∀ option ∈ added, IsOption option) ∧ parts = added.map ManifestRecord.optionWord ∧
        options'.toList.Perm (options.toList ++ added) := by
  induction parts with
  | nil =>
    intro options options'
    rw [parseOptions]
    constructor
    · intro h
      rw [Except.ok.inj h]
      exact ⟨[], by simp, rfl, by simp⟩
    · rintro ⟨added, -, hparts, hperm⟩
      obtain rfl : added = [] := List.map_eq_nil_iff.mp hparts.symm
      rw [List.append_nil] at hperm
      rw [ExtTreeMap.ext_toList hperm]
  | cons token parts ih =>
    intro options options'
    rw [parseOptions]
    constructor
    · intro h
      cases hoption : parseOption token with
      | error status =>
        rw [hoption] at h
        cases h
      | ok option =>
        rw [hoption] at h
        dsimp only at h
        split_ifs at h with hmem
        obtain ⟨added, hadded, rfl, hperm⟩ := ih.mp h
        obtain ⟨hvalid, rfl⟩ := parseOption_eq_ok_iff.mp hoption
        refine ⟨option :: added, List.forall_mem_cons.mpr ⟨hvalid, hadded⟩, rfl, hperm.trans ?_⟩
        exact ((ExtTreeMap.toList_insert_perm hmem).append_right added).trans List.perm_middle.symm
    · rintro ⟨added, hadded, hparts, hperm⟩
      obtain ⟨option, added, rfl, rfl, rfl⟩ := List.map_eq_cons_iff.mp hparts.symm
      obtain ⟨hvalid, hadded⟩ := List.forall_mem_cons.mp hadded
      have hmem : option.1 ∉ options := mem_keys_of_perm hperm
      rw [parseOption_eq_ok_iff.mpr ⟨hvalid, rfl⟩]
      dsimp only
      rw [if_neg hmem]
      refine ih.mpr ⟨added, hadded, rfl, hperm.trans ?_⟩
      exact List.perm_middle.trans ((ExtTreeMap.toList_insert_perm hmem).append_right added).symm

theorem parseOptions_empty_eq_ok_iff {parts : List Str} {options : ExtTreeMap Str Str} :
    parseOptions ∅ parts = .ok options ↔ ∃ added : List (Str × Str), (∀ option ∈ added, IsOption option) ∧
      added.Perm options.toList ∧ parts = added.map ManifestRecord.optionWord := by
  have hnil : (∅ : ExtTreeMap Str Str).toList = [] := List.eq_nil_of_length_eq_zero (by simp)
  simp only [parseOptions_eq_ok_iff, hnil, List.nil_append]
  constructor
  · rintro ⟨added, hadded, hparts, hperm⟩
    exact ⟨added, hadded, hperm.symm, hparts⟩
  · rintro ⟨added, hadded, hperm, hparts⟩
    exact ⟨added, hadded, hparts, hperm.symm⟩

theorem parseEdgeKind_eq_ok_iff {text : Str} {kind : EdgeKind} :
    parseEdgeKind text = .ok kind ↔ text = ManifestRecord.kindWord kind := by
  rw [parseEdgeKind]
  constructor
  · intro h
    split_ifs at h with hdeclared hdiscovered
    · rw [hdeclared, ← Except.ok.inj h]
      rfl
    · rw [hdiscovered, ← Except.ok.inj h]
      rfl
  · rintro rfl
    cases kind with
    | declared => exact if_pos rfl
    | discovered =>
      rw [if_neg (show (ManifestRecord.kindWord .discovered) ≠ "declared" by decide)]
      exact if_pos rfl

theorem ManifestRecord.kindWord_injective : Function.Injective ManifestRecord.kindWord := by
  intro kind kind' hsame
  have hparsed := parseEdgeKind_eq_ok_iff.mpr hsame
  rw [parseEdgeKind_eq_ok_iff.mpr rfl] at hparsed
  exact Except.ok.inj hparsed

/-! ## Records -/

namespace ManifestRecord

/-- The words are read as this record: those behind an edge with its kind and behind a target are left. -/
def Reads : ManifestRecord → List Str → Prop
  | node put, parts => ∃ options : List (Str × Str), (∀ option ∈ options, IsOption option) ∧
      options.Perm put.action.options.toList ∧
      parts = ("node" : Str) :: put.name :: put.action.command :: options.map optionWord
  | edge put, parts =>
      (∃ rest, parts = ("edge" : Str) :: put.fromName :: put.toName :: kindWord put.kind :: rest) ∨
        put.kind = .declared ∧ parts = [("edge" : Str), put.fromName, put.toName]
  | target name, parts => ∃ rest, parts = ("target" : Str) :: name :: rest

end ManifestRecord

/-- The manifest with these records behind its own. -/
def GraphManifest.extend (manifest : GraphManifest) (records : List ManifestRecord) : GraphManifest where
  nodes := manifest.nodes ++ records.filterMap ManifestRecord.node?
  edges := manifest.edges ++ records.filterMap ManifestRecord.edge?
  targets := manifest.targets ++ records.filterMap ManifestRecord.target?

theorem GraphManifest.extend_nil (manifest : GraphManifest) : manifest.extend [] = manifest := by
  simp [extend]

theorem GraphManifest.extend_cons (manifest : GraphManifest) (record : ManifestRecord)
    (records : List ManifestRecord) :
    manifest.extend (record :: records) = (manifest.extend [record]).extend records := by
  simp [extend, ← List.filterMap_append]

theorem GraphManifest.extend_node (manifest : GraphManifest) (put : ManifestNode) :
    manifest.extend [.node put] = { manifest with nodes := manifest.nodes ++ [put] } := by
  simp [extend, List.filterMap_cons, ManifestRecord.node?, ManifestRecord.edge?, ManifestRecord.target?]

theorem GraphManifest.extend_edge (manifest : GraphManifest) (put : ManifestEdge) :
    manifest.extend [.edge put] = { manifest with edges := manifest.edges ++ [put] } := by
  simp [extend, List.filterMap_cons, ManifestRecord.node?, ManifestRecord.edge?, ManifestRecord.target?]

theorem GraphManifest.extend_target (manifest : GraphManifest) (name : Str) :
    manifest.extend [.target name] = { manifest with targets := manifest.targets ++ [name] } := by
  simp [extend, List.filterMap_cons, ManifestRecord.node?, ManifestRecord.edge?, ManifestRecord.target?]

theorem GraphManifest.extend_empty (records : List ManifestRecord) :
    ({} : GraphManifest).extend records = .ofRecords records := rfl

namespace ManifestParser

variable {parser parser' : ManifestParser} {parts : List Str}

/-- A record is put: a node under a new name. -/
def Puts (parser : ManifestParser) (record : ManifestRecord) (parser' : ManifestParser) : Prop :=
  parser'.manifest = parser.manifest.extend [record] ∧
    match record with
    | .node put => put.name ∉ parser.nodeNames ∧ parser'.nodeNames = parser.nodeNames.insert put.name
    | .edge _ | .target _ => parser'.nodeNames = parser.nodeNames

theorem puts_node {put : ManifestNode} : parser.Puts (.node put) parser' ↔ put.name ∉ parser.nodeNames ∧
    parser' = { manifest := { parser.manifest with nodes := parser.manifest.nodes ++ [put] }
                nodeNames := parser.nodeNames.insert put.name } := by
  rw [Puts, GraphManifest.extend_node]
  cases parser'
  simp only [ManifestParser.mk.injEq]
  tauto

theorem puts_edge {put : ManifestEdge} : parser.Puts (.edge put) parser' ↔
    parser' = { parser with
      manifest := { parser.manifest with edges := parser.manifest.edges ++ [put] } } := by
  rw [Puts, GraphManifest.extend_edge]
  cases parser'
  simp only [ManifestParser.mk.injEq]

theorem puts_target {name : Str} : parser.Puts (.target name) parser' ↔
    parser' = { parser with
      manifest := { parser.manifest with targets := parser.manifest.targets ++ [name] } } := by
  rw [Puts, GraphManifest.extend_target]
  cases parser'
  simp only [ManifestParser.mk.injEq]

theorem parseNode_words {name command : Str} {rest : List Str}
    (hwords : ∀ word ∈ name :: command :: rest, word ≠ []) :
    parser.parseNode (name :: command :: rest) =
      if name ∈ parser.nodeNames then .error (Status.error .graphConflict "manifest" "duplicate node name")
      else
        match parseOptions ∅ rest with
        | .error status => .error status
        | .ok options => .ok
          { manifest := { parser.manifest with nodes := parser.manifest.nodes ++ [⟨name, ⟨command, options⟩⟩] }
            nodeNames := parser.nodeNames.insert name } := by
  have hname : name ≠ [] := hwords name (by simp)
  have hcommand : command ≠ [] := hwords command (by simp)
  simp [parseNode, hname, hcommand]

theorem parseNode_eq_ok_iff (hwords : ∀ word ∈ parts, word ≠ []) :
    parser.parseNode parts = .ok parser' ↔ ∃ put, parser.Puts (.node put) parser' ∧
      ManifestRecord.Reads (.node put) (("node" : Str) :: parts) := by
  simp only [puts_node, ManifestRecord.Reads, List.cons.injEq, true_and]
  rcases parts with _ | ⟨name, _ | ⟨command, rest⟩⟩
  · simp [parseNode]
  · simp [parseNode]
  · simp only [parseNode_words hwords, List.cons.injEq]
    constructor
    · intro h
      split_ifs at h with hmem
      cases hoptions : parseOptions ∅ rest with
      | error status =>
        rw [hoptions] at h
        cases h
      | ok options =>
        rw [hoptions] at h
        obtain ⟨added, hadded, hperm, hrest⟩ := parseOptions_empty_eq_ok_iff.mp hoptions
        exact ⟨⟨name, ⟨command, options⟩⟩, ⟨hmem, (Except.ok.inj h).symm⟩, added, hadded, hperm, rfl, rfl,
          hrest⟩
    · rintro ⟨⟨name', ⟨command', options⟩⟩, ⟨hmem, rfl⟩, added, hadded, hperm, rfl, rfl, hrest⟩
      rw [if_neg hmem, parseOptions_empty_eq_ok_iff.mpr ⟨added, hadded, hperm, hrest⟩]

theorem parseEdge_words {fromName toName : Str} {rest : List Str}
    (hwords : ∀ word ∈ fromName :: toName :: rest, word ≠ []) :
    parser.parseEdge (fromName :: toName :: rest) =
      match parseEdgeKind (rest[0]?.getD ("declared" : Str)) with
      | .error status => .error status
      | .ok kind => .ok { parser with
          manifest := { parser.manifest with
            edges := parser.manifest.edges ++ [⟨fromName, toName, kind⟩] } } := by
  have hfrom : fromName ≠ [] := hwords fromName (by simp)
  have hto : toName ≠ [] := hwords toName (by simp)
  simp [parseEdge, hfrom, hto]

theorem parseEdge_eq_ok_iff (hwords : ∀ word ∈ parts, word ≠ []) :
    parser.parseEdge parts = .ok parser' ↔ ∃ put, parser.Puts (.edge put) parser' ∧
      ManifestRecord.Reads (.edge put) (("edge" : Str) :: parts) := by
  simp only [puts_edge, ManifestRecord.Reads, List.cons.injEq, true_and]
  rcases parts with _ | ⟨fromName, _ | ⟨toName, rest⟩⟩
  · simp [parseEdge]
  · simp [parseEdge]
  · simp only [parseEdge_words hwords, List.cons.injEq]
    have hkind : ∀ kind, parseEdgeKind (rest[0]?.getD ("declared" : Str)) = .ok kind ↔
        (∃ rest', rest = ManifestRecord.kindWord kind :: rest') ∨ kind = .declared ∧ rest = [] := by
      intro kind
      rw [parseEdgeKind_eq_ok_iff]
      rcases rest with _ | ⟨text, rest⟩
      · simp only [List.getElem?_nil, Option.getD_none, reduceCtorEq, exists_false, false_or, and_true]
        rw [show ("declared" : Str) = ManifestRecord.kindWord .declared from rfl,
          ManifestRecord.kindWord_injective.eq_iff, eq_comm]
      · simp
    constructor
    · intro h
      cases hparsed : parseEdgeKind (rest[0]?.getD ("declared" : Str)) with
      | error status =>
        rw [hparsed] at h
        cases h
      | ok kind =>
        rw [hparsed] at h
        refine ⟨⟨fromName, toName, kind⟩, (Except.ok.inj h).symm, ?_⟩
        exact ((hkind kind).mp hparsed).imp (fun ⟨rest', hrest⟩ => ⟨rest', rfl, rfl, hrest⟩)
          fun ⟨hdeclared, hrest⟩ => ⟨hdeclared, rfl, rfl, hrest⟩
    · rintro ⟨⟨fromName', toName', kind⟩, rfl, hread⟩
      have hparsed : parseEdgeKind (rest[0]?.getD ("declared" : Str)) = .ok kind :=
        (hkind kind).mpr (hread.imp (fun ⟨rest', _, _, hrest⟩ => ⟨rest', hrest⟩)
          fun ⟨hdeclared, _, _, hrest⟩ => ⟨hdeclared, hrest⟩)
      obtain ⟨rfl, rfl⟩ : fromName = fromName' ∧ toName = toName' := by
        rcases hread with ⟨rest', hfrom', hto', -⟩ | ⟨-, hfrom', hto', -⟩
        · exact ⟨hfrom', hto'⟩
        · exact ⟨hfrom', hto'⟩
      rw [hparsed]

theorem parseTarget_eq_ok_iff (hwords : ∀ word ∈ parts, word ≠ []) :
    parser.parseTarget parts = .ok parser' ↔ ∃ name, parser.Puts (.target name) parser' ∧
      ManifestRecord.Reads (.target name) (("target" : Str) :: parts) := by
  simp only [puts_target, ManifestRecord.Reads, List.cons.injEq, true_and]
  rcases parts with _ | ⟨name, rest⟩
  · simp [parseTarget]
  · have hname : name ≠ [] := hwords name (by simp)
    have hparse : parser.parseTarget (name :: rest) = .ok { parser with
        manifest := { parser.manifest with targets := parser.manifest.targets ++ [name] } } := by
      simp [parseTarget, hname]
    simp only [hparse, List.cons.injEq]
    constructor
    · intro h
      exact ⟨name, (Except.ok.inj h).symm, rest, rfl, rfl⟩
    · rintro ⟨name', rfl, rest', rfl, rfl⟩
      rfl

theorem parseRecord_cons (record : Str) (rest : List Str) :
    parser.parseRecord (record :: rest) =
      if record = "node" then parser.parseNode rest
      else if record = "edge" then parser.parseEdge rest
      else if record = "target" then parser.parseTarget rest
      else .error (manifestFormat "unknown manifest record") := rfl

theorem parseRecord_node (rest : List Str) :
    parser.parseRecord (("node" : Str) :: rest) = parser.parseNode rest := by
  rw [parseRecord_cons, if_pos rfl]

theorem parseRecord_edge (rest : List Str) :
    parser.parseRecord (("edge" : Str) :: rest) = parser.parseEdge rest := by
  rw [parseRecord_cons, if_neg (by decide), if_pos rfl]

theorem parseRecord_target (rest : List Str) :
    parser.parseRecord (("target" : Str) :: rest) = parser.parseTarget rest := by
  rw [parseRecord_cons, if_neg (by decide), if_neg (by decide), if_pos rfl]

theorem parseRecord_cases (h : parser.parseRecord parts = .ok parser') :
    ∃ rest, parts = ("node" : Str) :: rest ∨ parts = ("edge" : Str) :: rest ∨
      parts = ("target" : Str) :: rest := by
  rcases parts with _ | ⟨record, rest⟩
  · rw [parseRecord, if_neg (by decide), if_neg (by decide), if_neg (by decide)] at h
    cases h
  · refine ⟨rest, ?_⟩
    rw [parseRecord_cons] at h
    split_ifs at h with hnode hedge htarget
    · exact .inl (by rw [hnode])
    · exact .inr (.inl (by rw [hedge]))
    · exact .inr (.inr (by rw [htarget]))

theorem parseRecord_eq_ok_iff (hwords : ∀ word ∈ parts, word ≠ []) :
    parser.parseRecord parts = .ok parser' ↔ ∃ record, parser.Puts record parser' ∧ record.Reads parts := by
  constructor
  · intro h
    obtain ⟨rest, rfl | rfl | rfl⟩ := parseRecord_cases h
    · rw [parseRecord_node, parseNode_eq_ok_iff (List.forall_mem_of_forall_mem_cons hwords)] at h
      exact h.imp' _ fun _ => id
    · rw [parseRecord_edge, parseEdge_eq_ok_iff (List.forall_mem_of_forall_mem_cons hwords)] at h
      exact h.imp' _ fun _ => id
    · rw [parseRecord_target, parseTarget_eq_ok_iff (List.forall_mem_of_forall_mem_cons hwords)] at h
      exact h.imp' _ fun _ => id
  · rintro ⟨record, hputs, hread⟩
    cases record with
    | node put =>
      obtain ⟨options, hoptions, hperm, rfl⟩ := hread
      rw [parseRecord_node, parseNode_eq_ok_iff (List.forall_mem_of_forall_mem_cons hwords)]
      exact ⟨put, hputs, options, hoptions, hperm, rfl⟩
    | edge put =>
      obtain ⟨rest, rfl⟩ : ∃ rest, parts = ("edge" : Str) :: rest := by
        rcases hread with ⟨rest, rfl⟩ | ⟨-, rfl⟩
        · exact ⟨_, rfl⟩
        · exact ⟨_, rfl⟩
      rw [parseRecord_edge, parseEdge_eq_ok_iff (List.forall_mem_of_forall_mem_cons hwords)]
      exact ⟨put, hputs, hread⟩
    | target name =>
      obtain ⟨rest, rfl⟩ := hread
      rw [parseRecord_target, parseTarget_eq_ok_iff (List.forall_mem_of_forall_mem_cons hwords)]
      exact ⟨name, hputs, rest, rfl⟩

/-- The names of the nodes are new, and each stands once. -/
def Distinct (parser : ManifestParser) (records : List ManifestRecord) : Prop :=
  ((records.filterMap ManifestRecord.node?).map ManifestNode.name).Nodup ∧
    ∀ put ∈ records.filterMap ManifestRecord.node?, put.name ∉ parser.nodeNames

theorem distinct_cons {record : ManifestRecord} {records : List ManifestRecord} :
    parser.Distinct (record :: records) ↔ ∃ parser', parser.Puts record parser' ∧ parser'.Distinct records := by
  cases record with
  | node put =>
    simp only [puts_node, Distinct, List.filterMap_cons, ManifestRecord.node?, List.map_cons, List.nodup_cons,
      List.forall_mem_cons]
    constructor
    · rintro ⟨⟨hnotin, hnodup⟩, hnew, hrest⟩
      refine ⟨_, ⟨hnew, rfl⟩, hnodup, fun other hother => ?_⟩
      rw [ExtTreeSet.mem_insert, not_or, Std.compare_eq_iff_eq]
      exact ⟨fun hsame => hnotin (hsame ▸ List.mem_map_of_mem hother), hrest other hother⟩
    · rintro ⟨_, ⟨hnew, rfl⟩, hnodup, hrest⟩
      simp only [ExtTreeSet.mem_insert, not_or, Std.compare_eq_iff_eq] at hrest
      refine ⟨⟨fun hmem => ?_, hnodup⟩, hnew, fun other hother => (hrest other hother).2⟩
      obtain ⟨other, hother, hsame⟩ := List.mem_map.mp hmem
      exact (hrest other hother).1 hsame.symm
  | edge put =>
    rw [show parser.Distinct (.edge put :: records) ↔ parser.Distinct records from Iff.rfl]
    simp only [puts_edge]
    exact ⟨fun h => ⟨_, rfl, h⟩, fun ⟨_, hparser', h⟩ => by rw [hparser'] at h; exact h⟩
  | target name =>
    rw [show parser.Distinct (.target name :: records) ↔ parser.Distinct records from Iff.rfl]
    simp only [puts_target]
    exact ⟨fun h => ⟨_, rfl, h⟩, fun ⟨_, hparser', h⟩ => by rw [hparser'] at h; exact h⟩

theorem foldlM_parseRecord_iff {written : List (List Str)} {manifest : GraphManifest} :
    ∀ {parser : ManifestParser}, (∀ parts ∈ written, ∀ word ∈ parts, word ≠ []) →
      ((∃ parser', written.foldlM parseRecord parser = .ok parser' ∧ parser'.manifest = manifest) ↔
        ∃ records, List.Forall₂ ManifestRecord.Reads records written ∧ parser.Distinct records ∧
          manifest = parser.manifest.extend records) := by
  induction written with
  | nil =>
    intro parser _
    constructor
    · rintro ⟨parser', hparser, rfl⟩
      rw [← Except.ok.inj hparser]
      exact ⟨[], .nil, ⟨List.nodup_nil, by simp⟩, (GraphManifest.extend_nil _).symm⟩
    · rintro ⟨records, hread, -, rfl⟩
      rw [List.forall₂_nil_right_iff.mp hread, GraphManifest.extend_nil]
      exact ⟨parser, rfl, rfl⟩
  | cons parts written ih =>
    intro parser hwords
    obtain ⟨hparts, hwritten⟩ := List.forall_mem_cons.mp hwords
    constructor
    · rintro ⟨parser', hfold, hmanifest⟩
      rw [List.foldlM_cons] at hfold
      cases hrecord : parser.parseRecord parts with
      | error status =>
        rw [hrecord] at hfold
        cases hfold
      | ok parser₁ =>
        rw [hrecord] at hfold
        obtain ⟨record, hputs, hread⟩ := (parseRecord_eq_ok_iff hparts).mp hrecord
        obtain ⟨records, hreads, hdistinct, rfl⟩ := (ih hwritten).mp ⟨parser', hfold, hmanifest⟩
        refine ⟨record :: records, .cons hread hreads, distinct_cons.mpr ⟨parser₁, hputs, hdistinct⟩, ?_⟩
        rw [GraphManifest.extend_cons, hputs.1]
    · rintro ⟨records, hreads, hdistinct, rfl⟩
      obtain ⟨record, records, hread, hrest, rfl⟩ := List.forall₂_cons_right_iff.mp hreads
      obtain ⟨parser₁, hputs, hdistinct⟩ := distinct_cons.mp hdistinct
      obtain ⟨parser', hfold, hmanifest⟩ := (ih hwritten).mpr
        ⟨records, hrest, hdistinct, by rw [GraphManifest.extend_cons, hputs.1]⟩
      refine ⟨parser', ?_, hmanifest⟩
      rw [List.foldlM_cons, (parseRecord_eq_ok_iff hparts).mpr ⟨record, hputs, hread⟩]
      exact hfold

end ManifestParser

/-! ## Whole texts -/

/-- The words of a line, unless it is blank or a comment. -/
def tokenLine (line : Str) : Option (List Str) :=
  if trimComment line = [] then none else some (words isSpace (trimComment line))

/-- The lines of a text that are not blank, in words. -/
def tokenLines (text : Str) : List (List Str) := (lines 10 text).filterMap tokenLine

theorem isWord_of_tokenLine {line : Str} {parts : List Str} (h : tokenLine line = some parts) {word : Str}
    (hword : word ∈ parts) : IsWord isSpace word := by
  rw [tokenLine] at h
  split_ifs at h
  rw [← Option.some.inj h] at hword
  exact Words.isWord_of_mem hword

theorem isWord_of_mem_tokenLines {text : Str} {parts : List Str} (h : parts ∈ tokenLines text) {word : Str}
    (hword : word ∈ parts) : IsWord isSpace word := by
  obtain ⟨line, -, hline⟩ := List.mem_filterMap.mp h
  exact isWord_of_tokenLine hline hword

namespace ManifestParser

theorem parseLines_eq_ok_iff {ls : List Str} {parser' : ManifestParser} :
    ∀ {parser : ManifestParser} {lineNumber : Nat}, parser.parseLines lineNumber ls = .ok parser' ↔
      (ls.filterMap tokenLine).foldlM parseRecord parser = .ok parser' := by
  induction ls with
  | nil => exact Iff.rfl
  | cons line ls ih =>
    intro parser lineNumber
    rw [parseLines, List.filterMap_cons, tokenLine]
    by_cases hblank : trimComment line = []
    · rw [if_pos hblank, if_pos hblank]
      exact ih
    · rw [if_neg hblank, if_neg hblank, List.foldlM_cons]
      cases parser.parseRecord (words isSpace (trimComment line)) with
      | error status =>
        constructor
        · intro h
          cases h
        · intro h
          cases h
      | ok parser₁ => exact ih

end ManifestParser

/-- **What is accepted**: lines read as records, with at least one node and a name for each. -/
theorem parseManifest_eq_ok_iff {text : Str} {manifest : GraphManifest} :
    parseManifest text = .ok manifest ↔ ∃ records,
      List.Forall₂ ManifestRecord.Reads records (tokenLines text) ∧ manifest = .ofRecords records ∧
        manifest.names.Nodup ∧ manifest.nodes ≠ [] := by
  have hwords : ∀ parts ∈ tokenLines text, ∀ word ∈ parts, word ≠ [] := fun parts hparts word hword =>
    (isWord_of_mem_tokenLines hparts hword).ne_nil
  have hdistinct : ∀ records, ({} : ManifestParser).Distinct records ↔
      (GraphManifest.ofRecords records).names.Nodup := fun records =>
    and_iff_left fun put _ => ExtTreeSet.not_mem_empty
  have hfold := @ManifestParser.foldlM_parseRecord_iff _ manifest {} hwords
  simp only [hdistinct, GraphManifest.extend_empty] at hfold
  constructor
  · intro h
    rw [parseManifest] at h
    cases hlines : ManifestParser.parseLines {} 0 (lines 10 text) with
    | error status =>
      rw [hlines] at h
      cases h
    | ok parser =>
      rw [hlines] at h
      dsimp only at h
      split_ifs at h with hnodes
      rw [Except.ok.inj h] at hnodes
      obtain ⟨records, hread, hnodup, hmanifest⟩ := hfold.mp
        ⟨parser, ManifestParser.parseLines_eq_ok_iff.mp hlines, Except.ok.inj h⟩
      exact ⟨records, hread, hmanifest, by rw [hmanifest]; exact hnodup, hnodes⟩
  · rintro ⟨records, hread, hmanifest, hnodup, hnodes⟩
    rw [hmanifest] at hnodup
    obtain ⟨parser, hparsed, hparser⟩ := hfold.mpr ⟨records, hread, hnodup, hmanifest⟩
    rw [parseManifest, ManifestParser.parseLines_eq_ok_iff.mpr hparsed]
    dsimp only
    rw [hparser, if_neg hnodes]

theorem exists_reads {records : List ManifestRecord} {written : List (List Str)}
    (h : List.Forall₂ ManifestRecord.Reads records written) {record : ManifestRecord}
    (hrecord : record ∈ records) : ∃ parts ∈ written, record.Reads parts := by
  induction h with
  | nil => cases hrecord
  | cons hread _ ih =>
    rcases List.mem_cons.mp hrecord with rfl | hrecord
    · exact ⟨_, List.mem_cons_self, hread⟩
    · obtain ⟨parts, hparts, hread⟩ := ih hrecord
      exact ⟨parts, List.mem_cons_of_mem _ hparts, hread⟩

theorem length_records_le {text : Str} {manifest : GraphManifest} (h : parseManifest text = .ok manifest) :
    manifest.nodes.length ≤ text.length + 1 ∧ manifest.edges.length ≤ text.length + 1 := by
  obtain ⟨records, hread, rfl, -⟩ := parseManifest_eq_ok_iff.mp h
  have hrecords : records.length ≤ text.length + 1 := by
    rw [hread.length_eq]
    exact (List.length_filterMap_le _ _).trans (Words.length_lines_le 10 text)
  exact ⟨(List.length_filterMap_le _ _).trans hrecords, (List.length_filterMap_le _ _).trans hrecords⟩

theorem name_ne_nil_of_parse {text : Str} {manifest : GraphManifest} (h : parseManifest text = .ok manifest)
    {put : ManifestNode} (hput : put ∈ manifest.nodes) : put.name ≠ [] := by
  obtain ⟨records, hread, rfl, -⟩ := parseManifest_eq_ok_iff.mp h
  obtain ⟨record, hrecord, hnode⟩ := List.mem_filterMap.mp hput
  obtain rfl : record = .node put := by
    cases record with
    | node _ => rw [Option.some.inj hnode]
    | edge _ => cases hnode
    | target _ => cases hnode
  obtain ⟨parts, hparts, options, -, -, rfl⟩ := exists_reads hread hrecord
  exact (isWord_of_mem_tokenLines hparts (by simp)).ne_nil

end Forge
