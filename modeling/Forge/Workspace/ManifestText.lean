import Forge.Workspace.ManifestParser

/-!
# The text of a manifest

`Writes` says which words are a record. Every text that has the records of a manifest on its lines, whatever
else it has of blanks, comments and line ends, is read as that manifest (`parseManifest_written`). The other
way round a node is read from all words of its line, but words behind an edge with its kind and behind a
target are left unread, so the words of an accepted text are those of its manifest exactly if there are none
of these (`tokens_count_iff`).
-/

namespace Forge

open Std (ExtTreeMap)
open Words (words lines IsWord Spaced)

/-! ## Records and their words -/

/-- A word without separators and comments. -/
def Plain (word : Str) : Prop := IsWord (fun c => isSpace c ∨ c = 35) word

instance (word : Str) : Decidable (Plain word) := inferInstanceAs (Decidable (IsWord _ word))

namespace ManifestRecord

/-- The words are this record: the options of a node stand in any order, and a declared edge may go without
its kind. -/
def Writes : ManifestRecord → List Str → Prop
  | node put, parts => ∃ options : List (Str × Str), options.Perm put.action.options.toList ∧
      parts = ("node" : Str) :: put.name :: put.action.command :: options.map optionWord
  | edge put, parts => parts = [("edge" : Str), put.fromName, put.toName, kindWord put.kind] ∨
      put.kind = .declared ∧ parts = [("edge" : Str), put.fromName, put.toName]
  | target name, parts => parts = [("target" : Str), name]

/-- What can be written. -/
def Valid : ManifestRecord → Prop
  | node put => Plain put.name ∧ Plain put.action.command ∧
      ∀ option ∈ put.action.options.toList, Plain option.1 ∧ Plain option.2 ∧ 61 ∉ option.1
  | edge put => Plain put.fromName ∧ Plain put.toName
  | target name => Plain name

instance (record : ManifestRecord) : Decidable record.Valid :=
  match record with
  | node _ => inferInstanceAs (Decidable (_ ∧ _ ∧ ∀ _ ∈ _, _))
  | edge _ => inferInstanceAs (Decidable (_ ∧ _))
  | target name => inferInstanceAs (Decidable (Plain name))

end ManifestRecord

structure GraphManifest.Writable (manifest : GraphManifest) : Prop where
  nodes_ne_nil : manifest.nodes ≠ []
  names : manifest.names.Nodup
  nodes : ∀ put ∈ manifest.nodes, (ManifestRecord.node put).Valid
  edges : ∀ put ∈ manifest.edges, (ManifestRecord.edge put).Valid
  targets : ∀ name ∈ manifest.targets, (ManifestRecord.target name).Valid

/-- A line that shows these words: with gaps between them and blanks around them, and perhaps a comment and a
carriage return. -/
structure Shows (parts : List Str) (line : Str) : Prop where
  layout : ∃ lead body trail comment ending : Str, line = lead ++ (body ++ (trail ++ (comment ++ ending))) ∧
    (∀ c ∈ lead, isBlank c) ∧ (body = [] ∧ parts = [] ∨ Spaced isSpace parts body) ∧
    (∀ c ∈ trail, isBlank c) ∧ (comment = [] ∨ comment.head? = some 35) ∧ (ending = [] ∨ ending = [13])
  oneLine : 10 ∉ line

/-- The lines of a text that has these records, one on a line, and blank lines and comments besides. -/
inductive WritesLines : List ManifestRecord → List Str → Prop
  | nil : WritesLines [] []
  | blank {records : List ManifestRecord} {line : Str} {ls : List Str} (hline : Shows [] line)
      (hls : WritesLines records ls) : WritesLines records (line :: ls)
  | record {record : ManifestRecord} {parts : List Str} {records : List ManifestRecord} {line : Str}
      {ls : List Str} (hwrites : record.Writes parts) (hline : Shows parts line)
      (hls : WritesLines records ls) : WritesLines (record :: records) (line :: ls)

/-! ## Lines -/

theorem isSpace_of_isBlank {c : Byte} (h : isBlank c = true) : isSpace c = true := by
  simp only [isBlank, isSpace, decide_eq_true_eq] at h ⊢
  rcases h with rfl | rfl
  · exact .inl rfl
  · exact .inr (by decide)

theorem isSpace_ne_comment {c : Byte} (h : isSpace c = true) : c ≠ 35 := by
  rintro rfl
  revert h
  decide

/-- What stands in front of the comment. -/
def uncommented (line : Str) : Str := line.takeWhile (· ≠ 35)

theorem words_trimComment (line : Str) :
    words isSpace (trimComment line) = words isSpace (uncommented line) := by
  rw [trimComment, Words.words_dropWhile fun c => isSpace_of_isBlank, Words.words_rdropWhile, uncommented]
  intro c hc
  rcases of_decide_eq_true hc with hc | rfl
  · exact isSpace_of_isBlank hc
  · decide

theorem Shows.uncommented_eq {parts : List Str} {line : Str} (h : Shows parts line)
    (hparts : ∀ word ∈ parts, Plain word) :
    ∃ lead body trail : Str, uncommented line = lead ++ (body ++ trail) ∧ (∀ c ∈ lead, isBlank c) ∧
      (body = [] ∧ parts = [] ∨ Spaced isSpace parts body) ∧ ∀ c ∈ trail, isBlank c ∨ c = 13 := by
  obtain ⟨lead, body, trail, comment, ending, rfl, hlead, hbody, htrail, hcomment, hending⟩ := h.layout
  have hplain : ∀ c ∈ lead ++ (body ++ trail), c ≠ 35 := by
    intro c hc
    rw [List.mem_append, List.mem_append] at hc
    rcases hc with hc | hc | hc
    · exact isSpace_ne_comment (isSpace_of_isBlank (hlead c hc))
    · rcases hbody with ⟨rfl, -⟩ | hspaced
      · cases hc
      · refine hspaced.forall_mem (fun word hword c hc => ?_) (fun c => isSpace_ne_comment) c hc
        have hletter := (hparts word hword).letters c hc
        simp only [decide_eq_false_iff_not, not_or] at hletter
        exact hletter.2
    · exact isSpace_ne_comment (isSpace_of_isBlank (htrail c hc))
  rcases hcomment with rfl | hcomment
  · refine ⟨lead, body, trail ++ ending, ?_, hlead, hbody, fun c hc => ?_⟩
    · rw [uncommented, List.takeWhile_eq_self_iff.mpr, List.nil_append]
      intro c hc
      simp only [List.nil_append, ← List.append_assoc] at hc
      rw [List.append_assoc lead] at hc
      rcases List.mem_append.mp hc with hc | hc
      · simpa using hplain c hc
      · rcases hending with rfl | rfl
        · cases hc
        · rw [List.mem_singleton.mp hc]
          decide
    · rcases List.mem_append.mp hc with hc | hc
      · exact .inl (htrail c hc)
      · rcases hending with rfl | rfl
        · cases hc
        · exact .inr (List.mem_singleton.mp hc)
  · obtain ⟨rest, rfl⟩ : ∃ rest, comment = 35 :: rest := by
      rcases comment with _ | ⟨c, rest⟩
      · cases hcomment
      · exact ⟨rest, by rw [Option.some.inj hcomment]⟩
    refine ⟨lead, body, trail, ?_, hlead, hbody, fun c hc => .inl (htrail c hc)⟩
    rw [uncommented, ← List.append_assoc body, ← List.append_assoc lead,
      List.takeWhile_append_of_pos fun c hc => by simpa using hplain c hc]
    simp

/-- **A line is read as the words it shows**, and passed over if it shows none. -/
theorem Shows.tokenLine_eq {parts : List Str} {line : Str} (h : Shows parts line)
    (hparts : ∀ word ∈ parts, Plain word) : tokenLine line = if parts = [] then none else some parts := by
  obtain ⟨lead, body, trail, hline, hlead, hbody, htrail⟩ := h.uncommented_eq hparts
  rw [tokenLine]
  rcases hbody with ⟨rfl, rfl⟩ | hspaced
  · have hblank : trimComment line = [] := by
      show ((uncommented line).rdropWhile _).dropWhile isBlank = []
      rw [hline, List.nil_append, List.rdropWhile_eq_nil_iff.mpr]
      · rfl
      · intro c hc
        rcases List.mem_append.mp hc with hc | hc
        · simp [hlead c hc]
        · simpa using htrail c hc
    rw [if_pos hblank, if_pos rfl]
  · have hwords : words isSpace (trimComment line) = parts := by
      rw [words_trimComment, hline, Words.words_gap_append fun c hc => isSpace_of_isBlank (hlead c hc),
        Words.words_append_gap, hspaced.words_eq]
      · intro word hword
        refine ⟨(hparts word hword).ne_nil, fun c hc => ?_⟩
        have hletter := (hparts word hword).letters c hc
        simp only [decide_eq_false_iff_not, not_or, Bool.not_eq_true] at hletter
        exact hletter.1
      · intro c hc
        rcases htrail c hc with hc | rfl
        · exact isSpace_of_isBlank hc
        · decide
    have hparts : parts ≠ [] := by
      rintro rfl
      cases hspaced
    rw [if_neg hparts, if_neg, hwords]
    intro hblank
    rw [hblank] at hwords
    exact hparts hwords.symm

/-! ## Writing and reading -/

namespace ManifestRecord

variable {record : ManifestRecord} {parts : List Str}

theorem Writes.ne_nil (h : record.Writes parts) : parts ≠ [] := by
  rintro rfl
  cases record with
  | node put =>
    obtain ⟨options, -, hparts⟩ := h
    cases hparts
  | edge put =>
    rcases h with hparts | ⟨-, hparts⟩
    · cases hparts
    · cases hparts
  | target name => cases h

theorem plain_kindWord (kind : EdgeKind) : Plain (kindWord kind) := by
  cases kind with
  | declared => decide +kernel
  | discovered => decide +kernel

theorem plain_optionWord {option : Str × Str} (hkey : Plain option.1) (hvalue : Plain option.2) :
    Plain (optionWord option) := by
  refine ⟨by simp [optionWord], fun c hc => ?_⟩
  rcases List.mem_append.mp hc with hc | hc
  · exact hkey.letters c hc
  · rcases List.mem_cons.mp hc with rfl | hc
    · decide
    · exact hvalue.letters c hc

theorem Writes.plain (h : record.Writes parts) (hvalid : record.Valid) : ∀ word ∈ parts, Plain word := by
  cases record with
  | node put =>
    obtain ⟨options, hperm, rfl⟩ := h
    obtain ⟨hname, hcommand, hoptions⟩ := hvalid
    refine List.forall_mem_cons.mpr ⟨by decide +kernel,
      List.forall_mem_cons.mpr ⟨hname, List.forall_mem_cons.mpr ⟨hcommand, fun word hword => ?_⟩⟩⟩
    obtain ⟨option, hmem, rfl⟩ := List.mem_map.mp hword
    obtain ⟨hkey, hvalue, -⟩ := hoptions option (hperm.mem_iff.mp hmem)
    exact plain_optionWord hkey hvalue
  | edge put =>
    have hedge : Plain ("edge" : Str) := by decide +kernel
    rcases h with rfl | ⟨-, rfl⟩
    · simpa using ⟨hedge, hvalid.1, hvalid.2, plain_kindWord put.kind⟩
    · simpa using ⟨hedge, hvalid.1, hvalid.2⟩
  | target name =>
    obtain rfl := h
    have htarget : Plain ("target" : Str) := by decide +kernel
    simpa using ⟨htarget, hvalid⟩

theorem Writes.reads (h : record.Writes parts) (hvalid : record.Valid) : record.Reads parts := by
  cases record with
  | node put =>
    obtain ⟨options, hperm, rfl⟩ := h
    refine ⟨options, fun option hmem => ?_, hperm, rfl⟩
    obtain ⟨hkey, hvalue, hequals⟩ := hvalid.2.2 option (hperm.mem_iff.mp hmem)
    exact ⟨hkey.ne_nil, hvalue.ne_nil, hequals⟩
  | edge put => exact h.imp (fun hparts => ⟨[], hparts⟩) id
  | target name => exact ⟨[], h⟩

end ManifestRecord

variable {records : List ManifestRecord} {ls : List Str} {text : Str} {manifest : GraphManifest}

theorem WritesLines.oneLine (h : WritesLines records ls) : ∀ line ∈ ls, 10 ∉ line := by
  induction h with
  | nil => simp
  | blank hline _ ih => exact List.forall_mem_cons.mpr ⟨hline.oneLine, ih⟩
  | record _ hline _ ih => exact List.forall_mem_cons.mpr ⟨hline.oneLine, ih⟩

theorem WritesLines.reads (h : WritesLines records ls) (hvalid : ∀ record ∈ records, record.Valid) :
    List.Forall₂ ManifestRecord.Reads records (ls.filterMap tokenLine) := by
  induction h with
  | nil => exact .nil
  | blank hline _ ih =>
    rw [List.filterMap_cons, hline.tokenLine_eq (by simp), if_pos rfl]
    exact ih hvalid
  | record hwrites hline _ ih =>
    obtain ⟨hrecord, hrest⟩ := List.forall_mem_cons.mp hvalid
    rw [List.filterMap_cons, hline.tokenLine_eq (hwrites.plain hrecord), if_neg hwrites.ne_nil]
    exact .cons (hwrites.reads hrecord) (ih hrest)

theorem tokenLines_eq (hne : ls ≠ []) (hls : ∀ line ∈ ls, 10 ∉ line)
    (htext : text = List.intercalate [10] ls ∨ text = List.intercalate [10] ls ++ [10]) :
    tokenLines text = ls.filterMap tokenLine := by
  -- without its end an empty last line is no line, but it is blank
  rw [tokenLines]
  rcases htext with rfl | rfl
  · rw [Words.lines_intercalate hne hls]
    split_ifs with hlast
    · obtain ⟨front, rfl⟩ : ∃ front, ls = front ++ [[]] := ⟨_, (List.dropLast_append_getLast? _ hlast).symm⟩
      rw [List.dropLast_concat, List.filterMap_append]
      exact (List.append_nil _).symm
    · rfl
  · rw [Words.lines_intercalate_append hne hls]

theorem GraphManifest.Writable.valid (h : (GraphManifest.ofRecords records).Writable) :
    ∀ record ∈ records, record.Valid := by
  intro record hmem
  cases record with
  | node put => exact h.nodes put (List.mem_filterMap.mpr ⟨_, hmem, rfl⟩)
  | edge put => exact h.edges put (List.mem_filterMap.mpr ⟨_, hmem, rfl⟩)
  | target name => exact h.targets name (List.mem_filterMap.mpr ⟨_, hmem, rfl⟩)

/-- **A manifest is read from every text that lists it.** -/
theorem parseManifest_written (hmanifest : manifest.Writable) (hrecords : manifest = .ofRecords records)
    (hls : WritesLines records ls)
    (htext : text = List.intercalate [10] ls ∨ text = List.intercalate [10] ls ++ [10]) :
    parseManifest text = .ok manifest := by
  subst hrecords
  have hread := hls.reads hmanifest.valid
  have hne : ls ≠ [] := by
    rintro rfl
    rw [List.filterMap_nil, List.forall₂_nil_right_iff] at hread
    exact hmanifest.nodes_ne_nil (by rw [hread]; rfl)
  rw [← tokenLines_eq hne hls.oneLine htext] at hread
  exact parseManifest_eq_ok_iff.mpr ⟨records, hread, rfl, hmanifest.names, hmanifest.nodes_ne_nil⟩

def loopRecords : List ManifestRecord :=
  [.node ⟨"a", ⟨"cc", (∅ : ExtTreeMap Str Str).insert "o" "x=y"⟩⟩, .edge ⟨"a", "a", .declared⟩, .target "a"]

/-- An option whose value has a `=` of its own and a comment at its end, and an edge without its kind. -/
theorem parseManifest_written_loop :
    parseManifest " # c\r\n\tnode  a cc o=x=y#c\nedge a\ta \r\ntarget a" = .ok (.ofRecords loopRecords) := by
  have hcomment : Shows [] (" # c\r" : Str) :=
    ⟨⟨" ", [], [], "# c", [13], by decide +kernel, by decide +kernel, .inl ⟨rfl, rfl⟩, by decide +kernel,
      .inr (by decide +kernel), .inr rfl⟩, by decide +kernel⟩
  have hnodeWords : Spaced isSpace [("node" : Str), "a", "cc", "o=x=y"] (("node" : Str) ++ (("  " : Str) ++
      (("a" : Str) ++ ((" " : Str) ++ (("cc" : Str) ++ ((" " : Str) ++ ("o=x=y" : Str))))))) :=
    .cons _ (by decide +kernel) (by decide +kernel) (.cons _ (by decide +kernel) (by decide +kernel)
      (.cons _ (by decide +kernel) (by decide +kernel) (.last _)))
  have hnode : Shows [("node" : Str), "a", "cc", "o=x=y"] ("\tnode  a cc o=x=y#c" : Str) :=
    ⟨⟨"\t", _, [], "#c", [], by decide +kernel, by decide +kernel, .inr hnodeWords, by decide +kernel,
      .inr (by decide +kernel), .inl rfl⟩, by decide +kernel⟩
  have hedgeWords : Spaced isSpace [("edge" : Str), "a", "a"] (("edge" : Str) ++ ((" " : Str) ++
      (("a" : Str) ++ (("\t" : Str) ++ ("a" : Str))))) :=
    .cons _ (by decide +kernel) (by decide +kernel) (.cons _ (by decide +kernel) (by decide +kernel) (.last _))
  have hedge : Shows [("edge" : Str), "a", "a"] ("edge a\ta \r" : Str) :=
    ⟨⟨[], _, " ", [], "\r", by decide +kernel, by decide +kernel, .inr hedgeWords, by decide +kernel, .inl rfl,
      .inr (by decide +kernel)⟩, by decide +kernel⟩
  have htargetWords : Spaced isSpace [("target" : Str), "a"]
      (("target" : Str) ++ ((" " : Str) ++ ("a" : Str))) :=
    .cons _ (by decide +kernel) (by decide +kernel) (.last _)
  have htarget : Shows [("target" : Str), "a"] ("target a" : Str) :=
    ⟨⟨[], _, [], [], [], by decide +kernel, by decide +kernel, .inr htargetWords, by decide +kernel, .inl rfl,
      .inl rfl⟩, by decide +kernel⟩
  have hlines : WritesLines loopRecords [" # c\r", "\tnode  a cc o=x=y#c", "edge a\ta \r", "target a"] :=
    .blank hcomment (.record ⟨_, .refl _, by decide +kernel⟩ hnode (.record (.inr ⟨rfl, rfl⟩) hedge
      (.record rfl htarget .nil)))
  exact parseManifest_written ⟨by decide +kernel, by decide +kernel, by decide +kernel, by decide +kernel,
    by decide +kernel⟩ rfl hlines (.inl (by decide +kernel))

/-! ## Words that do not count -/

/-- The words behind a record that are not looked at. -/
def unread : List Str → List Str
  | [] => []
  | record :: rest =>
    if record = "edge" then rest.drop 3
    else if record = "target" then rest.drop 1
    else []

/-- The same words, up to the order of the options and a `declared` that may be omitted. -/
inductive SameLine : List Str → List Str → Prop
  | refl (parts : List Str) : SameLine parts parts
  | options (name command : Str) {options options' : List Str} (h : options.Perm options') :
      SameLine (("node" : Str) :: name :: command :: options) (("node" : Str) :: name :: command :: options')
  | omitted (fromName toName : Str) :
      SameLine [("edge" : Str), fromName, toName] [("edge" : Str), fromName, toName, "declared"]
  | written (fromName toName : Str) :
      SameLine [("edge" : Str), fromName, toName, "declared"] [("edge" : Str), fromName, toName]

/-- The lines of a kind of records. -/
def linesOf (kind : Str) (text : Str) : List (List Str) :=
  (tokenLines text).filter fun parts => parts.head? = some kind

/-- The same lines of each kind, in their order. -/
def SameLines (text text' : Str) : Prop :=
  ∀ kind, List.Forall₂ SameLine (linesOf kind text) (linesOf kind text')

theorem unread_node (rest : List Str) : unread (("node" : Str) :: rest) = [] := by
  rw [unread, if_neg (by decide +kernel), if_neg (by decide +kernel)]

theorem unread_edge (rest : List Str) : unread (("edge" : Str) :: rest) = rest.drop 3 := by
  rw [unread, if_pos rfl]

theorem unread_target (rest : List Str) : unread (("target" : Str) :: rest) = rest.drop 1 := by
  rw [unread, if_neg (by decide +kernel), if_pos rfl]

theorem SameLine.unread_eq {parts parts' : List Str} (h : SameLine parts parts') :
    unread parts = unread parts' := by
  cases h with
  | refl => rfl
  | options => rw [unread_node, unread_node]
  | omitted => rw [unread_edge, unread_edge]; rfl
  | written => rw [unread_edge, unread_edge]; rfl

namespace ManifestRecord

/-- The first word of its line. -/
def word : ManifestRecord → Str
  | node _ => "node"
  | edge _ => "edge"
  | target _ => "target"

variable {record : ManifestRecord} {parts parts' : List Str}

theorem Reads.head?_eq (h : record.Reads parts) : parts.head? = some record.word := by
  cases record with
  | node put =>
    obtain ⟨options, -, -, rfl⟩ := h
    rfl
  | edge put =>
    rcases h with ⟨rest, rfl⟩ | ⟨-, rfl⟩
    · rfl
    · rfl
  | target name =>
    obtain ⟨rest, rfl⟩ := h
    rfl

theorem Writes.unread_eq (h : record.Writes parts) : unread parts = [] := by
  cases record with
  | node put =>
    obtain ⟨options, -, rfl⟩ := h
    exact unread_node _
  | edge put =>
    rcases h with rfl | ⟨-, rfl⟩
    · rfl
    · rfl
  | target name =>
    obtain rfl := h
    exact unread_target _

theorem Reads.writes (h : record.Reads parts) (hunread : unread parts = []) : record.Writes parts := by
  cases record with
  | node put =>
    obtain ⟨options, -, hperm, rfl⟩ := h
    exact ⟨options, hperm, rfl⟩
  | edge put =>
    rcases h with ⟨rest, rfl⟩ | ⟨hdeclared, rfl⟩
    · obtain rfl : rest = [] := hunread
      exact .inl rfl
    · exact .inr ⟨hdeclared, rfl⟩
  | target name =>
    obtain ⟨rest, rfl⟩ := h
    obtain rfl : rest = [] := by rwa [unread_target] at hunread
    rfl

theorem Reads.sameLine_iff (h : record.Reads parts) (h' : record.Reads parts') :
    SameLine parts parts' ↔ unread parts = unread parts' := by
  refine ⟨SameLine.unread_eq, fun hunread => ?_⟩
  cases record with
  | node put =>
    obtain ⟨options, -, hperm, rfl⟩ := h
    obtain ⟨options', -, hperm', rfl⟩ := h'
    exact .options _ _ ((hperm.trans hperm'.symm).map _)
  | edge put =>
    rcases h with ⟨rest, rfl⟩ | ⟨hdeclared, rfl⟩
    · rcases h' with ⟨rest', rfl⟩ | ⟨hdeclared, rfl⟩
      · obtain rfl : rest = rest' := hunread
        exact .refl _
      · obtain rfl : rest = [] := hunread
        rw [hdeclared]
        exact .written _ _
    · rcases h' with ⟨rest', rfl⟩ | ⟨-, rfl⟩
      · obtain rfl : [] = rest' := hunread
        rw [hdeclared]
        exact .omitted _ _
      · exact .refl _
  | target name =>
    obtain ⟨rest, rfl⟩ := h
    obtain ⟨rest', rfl⟩ := h'
    rw [unread_target, unread_target] at hunread
    obtain rfl : rest = rest' := hunread
    exact .refl _

end ManifestRecord

theorem unread_of_writes {written : List (List Str)}
    (h : List.Forall₂ ManifestRecord.Writes records written) : ∀ parts ∈ written, unread parts = [] := by
  induction h with
  | nil => simp
  | cons hwrites _ ih => exact List.forall_mem_cons.mpr ⟨hwrites.unread_eq, ih⟩

theorem writes_of_reads {written : List (List Str)} (h : List.Forall₂ ManifestRecord.Reads records written)
    (hunread : ∀ parts ∈ written, unread parts = []) :
    List.Forall₂ ManifestRecord.Writes records written := by
  induction h with
  | nil => exact .nil
  | cons hread _ ih =>
    obtain ⟨hparts, hrest⟩ := List.forall_mem_cons.mp hunread
    exact .cons (hread.writes hparts) (ih hrest)

theorem forall₂_sameLine_iff {written written' : List (List Str)}
    (h : List.Forall₂ ManifestRecord.Reads records written)
    (h' : List.Forall₂ ManifestRecord.Reads records written') :
    List.Forall₂ SameLine written written' ↔ written.map unread = written'.map unread := by
  induction h generalizing written' with
  | nil =>
    rw [List.forall₂_nil_left_iff.mp h']
    simp
  | cons hread _ ih =>
    obtain ⟨parts', rest', hread', hrest', rfl⟩ := List.forall₂_cons_left_iff.mp h'
    rw [List.forall₂_cons, List.map_cons, List.map_cons, List.cons.injEq, hread.sameLine_iff hread', ih hrest']

/-- The records of a kind that a manifest has. -/
def GraphManifest.recordsOf (manifest : GraphManifest) (kind : Str) : List ManifestRecord :=
  if kind = "node" then manifest.nodes.map .node
  else if kind = "edge" then manifest.edges.map .edge
  else if kind = "target" then manifest.targets.map .target
  else []

theorem filter_word_eq (records : List ManifestRecord) (kind : Str) :
    records.filter (fun record => record.word = kind) = (GraphManifest.ofRecords records).recordsOf kind := by
  obtain ⟨hedge, htarget, hte⟩ : ("edge" : Str) ≠ "node" ∧ ("target" : Str) ≠ "node" ∧
      ("target" : Str) ≠ "edge" := by decide +kernel
  simp only [GraphManifest.recordsOf, GraphManifest.ofRecords]
  induction records with
  | nil => simp
  | cons record records ih =>
    rw [List.filter_cons, ih]
    cases record with
    | node put =>
      by_cases hkind : kind = "node"
      · simp [hkind, ManifestRecord.word, ManifestRecord.node?]
      · simp [hkind, Ne.symm hkind, ManifestRecord.word, ManifestRecord.edge?, ManifestRecord.target?,
          List.filterMap_cons]
    | edge put =>
      by_cases hkind : kind = "edge"
      · simp [hkind, hedge, ManifestRecord.word, ManifestRecord.edge?]
      · simp [hkind, Ne.symm hkind, ManifestRecord.word, ManifestRecord.node?, ManifestRecord.target?,
          List.filterMap_cons]
    | target name =>
      by_cases hkind : kind = "target"
      · simp [hkind, htarget, hte, ManifestRecord.word, ManifestRecord.target?]
      · simp [hkind, Ne.symm hkind, ManifestRecord.word, ManifestRecord.node?, ManifestRecord.edge?,
          List.filterMap_cons]

theorem forall₂_linesOf (h : List.Forall₂ ManifestRecord.Reads records (tokenLines text)) (kind : Str) :
    List.Forall₂ ManifestRecord.Reads (records.filter fun record => record.word = kind)
      (linesOf kind text) := by
  refine List.rel_filter ?_ h
  intro record parts hread
  simp [hread.head?_eq]

/-- **When every word counts.** The lines of a text are its records exactly if no word is left unread, and two
texts of one manifest have, kind by kind, the same lines exactly if the same words are left unread in them. -/
theorem tokens_count_iff (h : parseManifest text = .ok manifest) :
    ((∃ records, List.Forall₂ ManifestRecord.Writes records (tokenLines text) ∧
        manifest = .ofRecords records) ↔ ∀ parts ∈ tokenLines text, unread parts = []) ∧
      ∀ text', parseManifest text' = .ok manifest → (SameLines text text' ↔
        ∀ kind, (linesOf kind text).map unread = (linesOf kind text').map unread) := by
  obtain ⟨records, hread, hmanifest, -⟩ := parseManifest_eq_ok_iff.mp h
  refine ⟨⟨?_, fun hunread => ⟨records, writes_of_reads hread hunread, hmanifest⟩⟩, fun text' h' => ?_⟩
  · rintro ⟨records', hwrites, -⟩
    exact unread_of_writes hwrites
  · obtain ⟨records', hread', hmanifest', -⟩ := parseManifest_eq_ok_iff.mp h'
    refine forall_congr' fun kind => ?_
    have hlines := forall₂_linesOf hread kind
    rw [filter_word_eq, ← hmanifest, hmanifest', ← filter_word_eq] at hlines
    exact forall₂_sameLine_iff hlines (forall₂_linesOf hread' kind)

def simpleText : Str :=
  "# as in the examples\nnode core mock-core mode=debug\nnode app mock-app\nedge app core\ntarget app"

def simpleManifest : GraphManifest where
  nodes := [⟨"core", ⟨"mock-core", (∅ : ExtTreeMap Str Str).insert "mode" "debug"⟩⟩,
    ⟨"app", { command := "mock-app" }⟩]
  edges := [⟨"app", "core", .declared⟩]
  targets := ["app"]

theorem tokens_count_iff_simple :
    ∃ records, List.Forall₂ ManifestRecord.Writes records (tokenLines simpleText) ∧
      simpleManifest = .ofRecords records :=
  (tokens_count_iff (show parseManifest simpleText = .ok simpleManifest by decide +kernel)).1.mpr
    (by decide +kernel)

/-- A second target on the line of the first is not looked at. -/
def twoTargets : Str := "node a x\ntarget a b"

theorem target_tokens_ignored :
    ∃ manifest, parseManifest twoTargets = .ok manifest ∧ parseManifest "node a x\ntarget a" = .ok manifest ∧
      (¬ ∃ records, List.Forall₂ ManifestRecord.Writes records (tokenLines twoTargets) ∧
        manifest = .ofRecords records) ∧ ¬ SameLines twoTargets "node a x\ntarget a" := by
  refine ⟨{ nodes := [⟨"a", { command := "x" }⟩], targets := ["a"] }, by decide +kernel, by decide +kernel,
    ?_, fun hsame => ?_⟩
  · rintro ⟨records, hwrites, -⟩
    have hunread := unread_of_writes hwrites
    revert hunread
    decide +kernel
  · have htargets := hsame "target"
    rw [show linesOf "target" twoTargets = [[("target" : Str), "a", "b"]] by decide +kernel,
      show linesOf "target" "node a x\ntarget a" = [[("target" : Str), "a"]] by decide +kernel,
      List.forall₂_cons] at htargets
    have hunread := htargets.1.unread_eq
    revert hunread
    decide +kernel

end Forge
