import Forge.State.Compaction

/-!
# Failed file replacements

`replace_file` puts the new content under the final name with a rename. Where that fails it removes
the target and tries again, and where the second rename fails too it removes the temporary file and
returns an error: the file is gone with its old content. What a failed replacement keeps is stated for
the file (`FailedReplaceKeeps`) and for what `recover` returns after a failed `append_transaction` or
`checkpoint`, and `failed_replacement_keeps_iff` says for which answers and contents each holds.
-/

namespace Forge

namespace ReplaceOutcomes

/-- The new content gets under the final name. -/
def Publishes (io : ReplaceOutcomes) : Prop :=
  io.createDirectories ∧ io.openTemp ∧ io.writeTemp = none ∧
    (io.firstRename ∨ (io.removeTarget ∧ io.secondRename))

/-- The temporary file cannot be written, so the final name is not touched. -/
def Keeps (io : ReplaceOutcomes) : Prop :=
  ¬ io.createDirectories ∨ ¬ io.openTemp ∨ io.writeTemp ≠ none

/-- Both renames fail and both removals succeed. -/
def Removes (io : ReplaceOutcomes) : Prop :=
  io.createDirectories ∧ io.openTemp ∧ io.writeTemp = none ∧ ¬ io.firstRename ∧ io.removeTarget ∧
    ¬ io.secondRename ∧ io.removeTemp

/-- A removal throws. -/
def Throws (io : ReplaceOutcomes) : Prop :=
  io.createDirectories ∧ io.openTemp ∧ io.writeTemp = none ∧ ¬ io.firstRename ∧
    (¬ io.removeTarget ∨ (¬ io.secondRename ∧ ¬ io.removeTemp))

theorem not_keeps_iff {io : ReplaceOutcomes} :
    ¬ io.Keeps ↔ io.createDirectories ∧ io.openTemp ∧ io.writeTemp = none := by
  unfold Keeps
  push Not
  exact Iff.rfl

theorem Publishes.not_keeps {io : ReplaceOutcomes} (h : io.Publishes) : ¬ io.Keeps :=
  not_keeps_iff.mpr ⟨h.1, h.2.1, h.2.2.1⟩

theorem Publishes.not_removes {io : ReplaceOutcomes} : io.Publishes → ¬ io.Removes :=
  fun ⟨_, _, _, hrename⟩ ⟨_, _, _, hfirst, _, hsecond, _⟩ => hrename.elim hfirst fun h => hsecond h.2

theorem Removes.not_keeps {io : ReplaceOutcomes} (h : io.Removes) : ¬ io.Keeps :=
  not_keeps_iff.mpr ⟨h.1, h.2.1, h.2.2.1⟩

theorem Throws.not_keeps {io : ReplaceOutcomes} (h : io.Throws) : ¬ io.Keeps :=
  not_keeps_iff.mpr ⟨h.1, h.2.1, h.2.2.1⟩

theorem Throws.not_publishes {io : ReplaceOutcomes} : io.Throws → ¬ io.Publishes :=
  fun ⟨_, _, _, hfirst, hremoval⟩ ⟨_, _, _, hrename⟩ =>
    hrename.elim hfirst fun h => hremoval.elim (· h.1) fun hremoval => hremoval.1 h.2

theorem Throws.not_removes {io : ReplaceOutcomes} : io.Throws → ¬ io.Removes :=
  fun ⟨_, _, _, _, hremoval⟩ ⟨_, _, _, _, hremove, _, htemp⟩ =>
    hremoval.elim (· hremove) fun hremoval => hremoval.2 htemp

end ReplaceOutcomes

namespace FileStateStore

/-! ## What a replacement does -/

theorem replaceFile_of_publishes {io : ReplaceOutcomes} (h : io.Publishes) (file : StateFile)
    (bytes : Bytes) : replaceFile io file bytes = (.value (.ok ()), ⟨some bytes, none⟩) := by
  obtain ⟨hdirs, hopen, hwrite, hrename⟩ := h
  unfold replaceFile
  simp only [hdirs, hopen, hwrite]
  rcases hrename with hfirst | ⟨hremove, hsecond⟩
  · simp [hfirst]
  · simp [hremove, hsecond]

theorem replaceFile_of_keeps {io : ReplaceOutcomes} (h : io.Keeps) (file : StateFile) (bytes : Bytes) :
    ∃ status temp, replaceFile io file bytes = (.value (.error status), { file with temp }) := by
  unfold replaceFile
  by_cases hdirs : io.createDirectories
  · by_cases hopen : io.openTemp
    · obtain ⟨n, hwrite⟩ := Option.ne_none_iff_exists'.mp
        ((h.resolve_left (not_not_intro hdirs)).resolve_left (not_not_intro hopen))
      simp only [hdirs, hopen, hwrite]
      exact ⟨_, _, rfl⟩
    · rw [if_neg (by simp [hdirs]), if_pos (by simpa using hopen)]
      exact ⟨_, file.temp, rfl⟩
  · rw [if_pos (by simpa using hdirs)]
    exact ⟨_, file.temp, rfl⟩

theorem replaceFile_of_removes {io : ReplaceOutcomes} (h : io.Removes) (file : StateFile) (bytes : Bytes) :
    ∃ status, replaceFile io file bytes = (.value (.error status), ⟨none, none⟩) := by
  obtain ⟨hdirs, hopen, hwrite, hfirst, hremove, hsecond, htemp⟩ := h
  unfold replaceFile
  simp only [hdirs, hopen, hwrite, hfirst, hremove, hsecond, htemp]
  exact ⟨_, rfl⟩

theorem replaceFile_of_throws {io : ReplaceOutcomes} (h : io.Throws) (file : StateFile) (bytes : Bytes) :
    ∃ file', replaceFile io file bytes = (.threw, file') := by
  obtain ⟨hdirs, hopen, hwrite, hfirst, hremoval⟩ := h
  unfold replaceFile
  simp only [hdirs, hopen, hwrite, hfirst]
  by_cases hremove : io.removeTarget
  · obtain ⟨hsecond, htemp⟩ := hremoval.resolve_left (not_not_intro hremove)
    simp [hremove, hsecond, htemp]
  · simp [hremove]

/-- **The four ways a replacement ends.** -/
theorem replaceOutcomes_cases (io : ReplaceOutcomes) :
    io.Publishes ∨ io.Keeps ∨ io.Removes ∨ io.Throws := by
  by_cases hkeeps : io.Keeps
  · exact .inr (.inl hkeeps)
  obtain ⟨hdirs, hopen, hwrite⟩ := ReplaceOutcomes.not_keeps_iff.mp hkeeps
  by_cases hfirst : io.firstRename
  · exact .inl ⟨hdirs, hopen, hwrite, .inl hfirst⟩
  by_cases hremove : io.removeTarget
  · by_cases hsecond : io.secondRename
    · exact .inl ⟨hdirs, hopen, hwrite, .inr ⟨hremove, hsecond⟩⟩
    · by_cases htemp : io.removeTemp
      · exact .inr (.inr (.inl ⟨hdirs, hopen, hwrite, hfirst, hremove, hsecond, htemp⟩))
      · exact .inr (.inr (.inr ⟨hdirs, hopen, hwrite, hfirst, .inr ⟨hsecond, htemp⟩⟩))
  · exact .inr (.inr (.inr ⟨hdirs, hopen, hwrite, hfirst, .inl hremove⟩))

/-- The target keeps its content if `replace_file` returns an error. -/
def FailedReplaceKeeps (io : ReplaceOutcomes) (file : StateFile) (bytes : Bytes) : Prop :=
  ∀ status, (replaceFile io file bytes).1 = .value (.error status) →
    (replaceFile io file bytes).2.content = file.content

theorem failedReplaceKeeps_iff (io : ReplaceOutcomes) (file : StateFile) (bytes : Bytes) :
    FailedReplaceKeeps io file bytes ↔ ¬ (io.Removes ∧ file.content ≠ none) := by
  unfold FailedReplaceKeeps
  constructor
  · rintro hkeeps ⟨hremoves, hcontent⟩
    obtain ⟨status, hreplace⟩ := replaceFile_of_removes hremoves file bytes
    rw [hreplace] at hkeeps
    exact hcontent (hkeeps status rfl).symm
  · intro hnot status hfails
    rcases replaceOutcomes_cases io with h | h | h | h
    · rw [replaceFile_of_publishes h] at hfails
      cases hfails
    · obtain ⟨_, temp, hreplace⟩ := replaceFile_of_keeps h file bytes
      rw [hreplace]
    · obtain ⟨_, hreplace⟩ := replaceFile_of_removes h file bytes
      rw [hreplace]
      by_contra hcontent
      exact hnot ⟨h, fun hnone => hcontent hnone.symm⟩
    · obtain ⟨_, hreplace⟩ := replaceFile_of_throws h file bytes
      rw [hreplace] at hfails
      cases hfails

/-! ## What recover shows -/

/-- Sequence and records, up to transaction ids, that `recover` returns. -/
def visible (store : FileStateStore) : Return (UInt64 × List StateRecord) :=
  (recovered store).map fun found => (found.1, found.2.map sansTxnId)

/-- What `recover` shows of two files that replay to `saved` and `log`. -/
def joined (saved log : RecoveryResult) : UInt64 × List StateRecord :=
  (if log.committedRecords = [] then saved.sequence else log.sequence,
    (saved.committedRecords ++ log.committedRecords).map sansTxnId)

theorem visible_eq (store : FileStateStore) :
    visible store = .value (.ok
      (joined (recoverLog (bytesOf store.checkpointFile)) (recoverLog (bytesOf store.logFile)))) := by
  unfold visible
  rw [recovered_eq]
  rfl

theorem joined_nil_iff (saved log : RecoveryResult) :
    joined saved {} = joined saved log ↔ log.committedRecords = [] := by
  unfold joined
  constructor
  · intro hsame
    have hrecords := (Prod.ext_iff.mp hsame).2
    have hlength := congrArg List.length hrecords
    simp only [List.length_map, List.length_append, List.length_nil] at hlength
    exact List.eq_nil_of_length_eq_zero (by omega)
  · intro hempty
    rw [hempty]
    rfl

theorem joined_clean {bytes clean : Bytes} (h : cleanLogBytes bytes = .ok clean) (saved : RecoveryResult) :
    joined saved (recoverLog clean) = joined saved (recoverLog bytes) := by
  cases cleanLogBytes_ok h with
  | intact => rfl
  | drops _ hempty => exact (joined_nil_iff saved _).mpr hempty
  | merges _ hok =>
    rw [recoverLog_merged hok]
    simp only [joined, merged, stamped, hok.1, List.map_eq_nil_iff, if_false, List.map_append,
      map_sansTxnId_stamp]

/-! ## Appends -/

/-- `append_transaction` compacts the log before it appends. -/
def Compacts (log : StateFile) : Prop :=
  ∃ clean, cleanLogBytes (bytesOf log) = .ok clean ∧ clean.length ≠ (bytesOf log).length

/-- The part of `append_transaction` behind the compaction, with the log it goes on with. -/
def appendBehind (store : FileStateStore) (clean : Bytes) (log : StateFile)
    (txnId baseSequence newSequence : UInt64) (records : List StateRecord) :
    Return Unit × FileStateStore :=
  match writeTransaction ⟨clean⟩ txnId baseSequence newSequence records with
  | .error status => (.value (.error status), { store with logFile := log })
  | .ok written =>
    let (appended, log) := appendFile {} log (written.bytes.drop clean.length)
    (.value appended, { store with logFile := log })

/-- `recover` shows the same after an `append_transaction` that returns an error; the calls inside
`replace_file` may fail. -/
def FailedAppendKeeps (store : FileStateStore) (io : ReplaceOutcomes)
    (txnId baseSequence newSequence : UInt64) (records : List StateRecord) : Prop :=
  let (ending, after) := store.appendTransaction { compact := io } txnId baseSequence newSequence records
  ∀ status, ending = .value (.error status) → visible after = visible store

theorem appendTransaction_of_removes {store : FileStateStore} {io : ReplaceOutcomes}
    (hcompacts : Compacts store.logFile) (hremoves : io.Removes)
    (txnId baseSequence newSequence : UInt64) (records : List StateRecord) :
    ∃ status, store.appendTransaction { compact := io } txnId baseSequence newSequence records =
      (.value (.error status), { store with logFile := {} }) := by
  obtain ⟨clean, hclean, hsize⟩ := hcompacts
  obtain ⟨status, hreplace⟩ := replaceFile_of_removes hremoves store.logFile clean
  refine ⟨status, ?_⟩
  simp only [appendTransaction, readFile_success, hclean, if_pos hsize, hreplace]

theorem visible_of_append_failed {store : FileStateStore} {io : ReplaceOutcomes}
    {txnId baseSequence newSequence : UInt64} {records : List StateRecord}
    (hnot : ¬ (Compacts store.logFile ∧ io.Removes)) :
    FailedAppendKeeps store io txnId baseSequence newSequence records := by
  -- an append that fails has at most cleaned the log
  unfold FailedAppendKeeps appendTransaction
  simp only [readFile_success]
  cases hclean : cleanLogBytes (bytesOf store.logFile) with
  | error status => exact fun _ _ => rfl
  | ok clean =>
    simp only
    -- the log with which the append goes on shows the same
    have hgoesOn (log : StateFile)
        (hlog : visible { store with logFile := log } = visible store) (status : Status) :
        (appendBehind store clean log txnId baseSequence newSequence records).1 = .value (.error status) →
          visible (appendBehind store clean log txnId baseSequence newSequence records).2 =
            visible store := by
      unfold appendBehind
      cases writeTransaction ⟨clean⟩ txnId baseSequence newSequence records with
      | error _ => exact fun _ => hlog
      | ok written =>
        intro hends
        cases hends
    by_cases hsize : clean.length ≠ (bytesOf store.logFile).length
    · rw [if_pos hsize]
      rcases replaceOutcomes_cases io with h | h | h | h
      · rw [replaceFile_of_publishes h]
        refine hgoesOn _ ?_
        rw [visible_eq, visible_eq]
        exact congrArg (fun shown => Return.value (.ok shown)) (joined_clean hclean _)
      · obtain ⟨_, temp, hreplace⟩ := replaceFile_of_keeps h store.logFile clean
        rw [hreplace]
        exact fun _ _ => rfl
      · exact absurd ⟨⟨clean, hclean, hsize⟩, h⟩ hnot
      · obtain ⟨_, hreplace⟩ := replaceFile_of_throws h store.logFile clean
        rw [hreplace]
        intro _ hends
        cases hends
    · rw [if_neg hsize]
      exact hgoesOn store.logFile rfl

theorem failedAppendKeeps_iff (store : FileStateStore) (io : ReplaceOutcomes)
    (txnId baseSequence newSequence : UInt64) (records : List StateRecord) :
    FailedAppendKeeps store io txnId baseSequence newSequence records ↔
      ¬ (Compacts store.logFile ∧ io.Removes ∧
        (recoverLog (bytesOf store.logFile)).committedRecords ≠ []) := by
  by_cases hremoved : Compacts store.logFile ∧ io.Removes
  · obtain ⟨status, happend⟩ :=
      appendTransaction_of_removes hremoved.1 hremoved.2 txnId baseSequence newSequence records
    have hshows : visible { store with logFile := {} } = visible store ↔
        (recoverLog (bytesOf store.logFile)).committedRecords = [] := by
      rw [visible_eq, visible_eq, Return.value.injEq, Except.ok.injEq,
        ← joined_nil_iff (recoverLog (bytesOf store.checkpointFile))]
      exact Iff.rfl
    unfold FailedAppendKeeps
    rw [happend]
    constructor
    · intro hkeeps hlost
      exact hlost.2.2 (hshows.mp (hkeeps status rfl))
    · intro hnot _ _
      refine hshows.mpr (by_contra fun hrecords => hnot ⟨hremoved.1, hremoved.2, hrecords⟩)
  · exact ⟨fun _ hlost => hremoved ⟨hlost.1, hlost.2.1⟩, fun _ => visible_of_append_failed hremoved⟩

/-! ## Checkpoints -/

/-- `recover` shows the same after a `checkpoint` that returns an error. -/
def FailedCheckpointKeeps (store : FileStateStore) (io : CheckpointIo) (sequence : UInt64)
    (payload : Bytes) : Prop :=
  ∀ status, (store.checkpoint io sequence payload).1 = .value (.error status) →
    visible (store.checkpoint io sequence payload).2 = visible store

/-- In front of this log `recover` shows the same of both checkpoints. -/
def SameBefore (log saved saved' : RecoveryResult) : Prop :=
  (log.committedRecords = [] → saved'.sequence = saved.sequence) ∧
    saved'.committedRecords.map sansTxnId = saved.committedRecords.map sansTxnId

theorem joined_eq_iff (log saved saved' : RecoveryResult) :
    joined saved' log = joined saved log ↔ SameBefore log saved saved' := by
  unfold joined SameBefore
  rw [Prod.ext_iff, List.map_append, List.map_append, List.append_left_inj]
  refine and_congr_left fun _ => ?_
  by_cases hempty : log.committedRecords = []
  · simp [hempty]
  · simp [hempty]

/-- Where the checkpoint file gets lost, it held nothing; where the log cannot be rotated behind the new
checkpoint, that is what the files held already. -/
def CheckpointHarmless (store : FileStateStore) (io : CheckpointIo) (sequence : UInt64)
    (payload : Bytes) : Prop :=
  let saved := recoverLog (bytesOf store.checkpointFile)
  let log := recoverLog (bytesOf store.logFile)
  let new := recoverLog (logBytes [] [stamped kCompactionTxnId 0 sequence [checkpointRecord payload]])
  (io.publish.Removes → SameBefore log saved {}) ∧
    (io.publish.Publishes → io.rotate.Keeps → SameBefore log saved new) ∧
    (io.publish.Publishes → io.rotate.Removes → joined new {} = joined saved log)

theorem checkpoint_of_publishes {io : CheckpointIo} (h : io.publish.Publishes) (store : FileStateStore)
    (sequence : UInt64) (payload : Bytes) :
    store.checkpoint io sequence payload =
      let (rotated, log) := replaceFile io.rotate store.logFile []
      (rotated, ⟨log,
        ⟨some (logBytes [] [stamped kCompactionTxnId 0 sequence [checkpointRecord payload]]), none⟩⟩) := by
  simp only [checkpoint, checkpointBytes_eq, replaceFile_of_publishes h]

theorem checkpoint_of_not_published {io : CheckpointIo} {store : FileStateStore} {sequence : UInt64}
    {payload : Bytes} {ending : Return Unit} {file : StateFile}
    (h : replaceFile io.publish store.checkpointFile
      (logBytes [] [stamped kCompactionTxnId 0 sequence [checkpointRecord payload]]) = (ending, file))
    (hending : ending ≠ .value (.ok ())) :
    store.checkpoint io sequence payload = (ending, { store with checkpointFile := file }) := by
  simp only [checkpoint, checkpointBytes_eq, h]

theorem failedCheckpointKeeps_iff (store : FileStateStore) (io : CheckpointIo) (sequence : UInt64)
    (payload : Bytes) :
    FailedCheckpointKeeps store io sequence payload ↔ CheckpointHarmless store io sequence payload := by
  unfold FailedCheckpointKeeps CheckpointHarmless
  simp only [visible_eq, Return.value.injEq, Except.ok.injEq, ← joined_eq_iff]
  rcases replaceOutcomes_cases io.publish with h | h | h | h
  · -- the checkpoint is published, so the log decides
    rw [checkpoint_of_publishes h]
    rcases replaceOutcomes_cases io.rotate with hr | hr | hr | hr
    · rw [replaceFile_of_publishes hr]
      simp [h.not_removes, hr.not_keeps, hr.not_removes]
    · obtain ⟨status, temp, hreplace⟩ := replaceFile_of_keeps hr store.logFile []
      rw [hreplace]
      have hnot : ¬ io.rotate.Removes := fun hremoves => hremoves.not_keeps hr
      simp [h, h.not_removes, hr, hnot, bytesOf]
    · obtain ⟨status, hreplace⟩ := replaceFile_of_removes hr store.logFile []
      rw [hreplace]
      simp [h, h.not_removes, hr, hr.not_keeps, bytesOf, recoverLog_nil]
    · obtain ⟨_, hreplace⟩ := replaceFile_of_throws hr store.logFile []
      rw [hreplace]
      simp [h.not_removes, hr.not_keeps, hr.not_removes]
  · obtain ⟨status, temp, hreplace⟩ := replaceFile_of_keeps h store.checkpointFile
      (logBytes [] [stamped kCompactionTxnId 0 sequence [checkpointRecord payload]])
    rw [checkpoint_of_not_published hreplace (by simp)]
    have hpublishes : ¬ io.publish.Publishes := fun hpublishes => hpublishes.not_keeps h
    have hremoves : ¬ io.publish.Removes := fun hremoves => hremoves.not_keeps h
    simp [hpublishes, hremoves, bytesOf]
  · obtain ⟨status, hreplace⟩ := replaceFile_of_removes h store.checkpointFile
      (logBytes [] [stamped kCompactionTxnId 0 sequence [checkpointRecord payload]])
    rw [checkpoint_of_not_published hreplace (by simp)]
    have hpublishes : ¬ io.publish.Publishes := fun hpublishes => hpublishes.not_removes h
    simp [hpublishes, h, bytesOf, recoverLog_nil]
  · obtain ⟨_, hreplace⟩ := replaceFile_of_throws h store.checkpointFile
      (logBytes [] [stamped kCompactionTxnId 0 sequence [checkpointRecord payload]])
    rw [checkpoint_of_not_published hreplace (by simp)]
    simp [h.not_publishes, h.not_removes]

/-- The same for a payload that fits, read off the arguments and what the files replay to before: the
checkpoint file holds nothing where it gets lost; it holds the same checkpoint where the log stays behind
the new one; both files together show the new checkpoint where the log gets lost. -/
def CheckpointRepeats (store : FileStateStore) (io : CheckpointIo) (sequence : UInt64)
    (payload : Bytes) : Prop :=
  let saved := recoverLog (bytesOf store.checkpointFile)
  let log := recoverLog (bytesOf store.logFile)
  (io.publish.Removes →
      saved.committedRecords = [] ∧ (log.committedRecords = [] → saved.sequence = 0)) ∧
    (io.publish.Publishes → io.rotate.Keeps →
      saved.committedRecords.map sansTxnId = [checkpointRecord payload] ∧
        (log.committedRecords = [] → saved.sequence = sequence)) ∧
    (io.publish.Publishes → io.rotate.Removes →
      (saved.committedRecords ++ log.committedRecords).map sansTxnId = [checkpointRecord payload] ∧
        (if log.committedRecords = [] then saved.sequence else log.sequence) = sequence)

theorem checkpointHarmless_iff (store : FileStateStore) (io : CheckpointIo) (sequence : UInt64)
    {payload : Bytes} (hfit : StateCodec.Fits (checkpointRecord payload)) :
    CheckpointHarmless store io sequence payload ↔ CheckpointRepeats store io sequence payload := by
  unfold CheckpointHarmless CheckpointRepeats SameBefore
  simp only [recoverLog_checkpoint sequence hfit]
  refine and_congr (imp_congr_right fun _ => ?_)
    (and_congr (imp_congr_right fun _ => imp_congr_right fun _ => ?_)
      (imp_congr_right fun _ => imp_congr_right fun _ => ?_))
  · rw [and_comm, eq_comm (a := (0 : UInt64)), List.map_nil, eq_comm, List.map_eq_nil_iff]
  · rw [and_comm, eq_comm (a := sequence), eq_comm]
    exact Iff.rfl
  · rw [joined, joined, if_pos rfl, Prod.ext_iff, and_comm, eq_comm (a := sequence), eq_comm]
    exact Iff.rfl

/-! ## Failed replacements -/

/-- **When a failed replacement keeps what was there.** The file itself: unless both renames fail and
its old content is removed between them. An append: unless that happens in its compaction to a log with
committed records. A checkpoint: `CheckpointHarmless`, which is `CheckpointRepeats` for a payload that
fits. -/
theorem failed_replacement_keeps_iff (io : ReplaceOutcomes) (file : StateFile) (bytes : Bytes)
    (store : FileStateStore) (txnId baseSequence newSequence : UInt64) (records : List StateRecord)
    (checkpointIo : CheckpointIo) (sequence : UInt64) (payload : Bytes) :
    (FailedReplaceKeeps io file bytes ↔ ¬ (io.Removes ∧ file.content ≠ none)) ∧
    (FailedAppendKeeps store io txnId baseSequence newSequence records ↔
      ¬ (Compacts store.logFile ∧ io.Removes ∧
        (recoverLog (bytesOf store.logFile)).committedRecords ≠ [])) ∧
    (FailedCheckpointKeeps store checkpointIo sequence payload ↔
      CheckpointHarmless store checkpointIo sequence payload) ∧
    (StateCodec.Fits (checkpointRecord payload) →
      (FailedCheckpointKeeps store checkpointIo sequence payload ↔
        CheckpointRepeats store checkpointIo sequence payload)) :=
  ⟨failedReplaceKeeps_iff io file bytes,
    failedAppendKeeps_iff store io txnId baseSequence newSequence records,
    failedCheckpointKeeps_iff store checkpointIo sequence payload, fun hfit =>
      (failedCheckpointKeeps_iff store checkpointIo sequence payload).trans
        (checkpointHarmless_iff store checkpointIo sequence hfit)⟩

/-- A checkpoint with both renames failing behind an earlier one: the file of that is gone, and `recover`
returns nothing. -/
theorem checkpoint_removes_earlier :
    let store := (FileStateStore.checkpoint {} {} 5 [9, 9]).2
    let io : CheckpointIo := { publish := { firstRename := false, secondRename := false } }
    recovered store = checkpointed 5 [9, 9] ∧ recovered (store.checkpoint io 6 [8]).2 = .value (.ok (0, [])) ∧
      ¬ FailedReplaceKeeps io.publish store.checkpointFile [8] ∧
      ¬ FailedCheckpointKeeps store io 6 [8] := by
  intro store io
  refine ⟨by decide +kernel, by decide +kernel, fun hkeeps => ?_, fun hkeeps => ?_⟩
  · have hcontent := hkeeps (storeError "unable to publish state file") (by decide +kernel)
    exact absurd hcontent (by decide +kernel)
  · have hvisible := hkeeps (storeError "unable to publish state file") (by decide +kernel)
    exact absurd hvisible (by decide +kernel)

end FileStateStore

end Forge
