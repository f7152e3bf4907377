import Forge.Lib.Runs
import Forge.State.Appending

/-!
# Several writers on one directory

Runs of `append_transaction` and `checkpoint` on one directory. A `FileStateStore` holds nothing but
its path, so it does not matter which writer makes a call. The calls inside may fail in any way.
A log that these calls have written is `Sound`, and `Appends.effect` says what an append does to it: to
`recover` it looks as before, or the file was lost in a failed replacement, or the transaction is there.

From this follow the two laws of the sequence number and their limits. An acknowledged append sets it
unless the transaction is empty in a log without records (`sequence_follows_iff`). And nothing compares
it with the base of a transaction: in no state does the store chain transactions (`never_checks_base`);
it is the writers who keep the sequence from going back (`writers_advance`).
-/

namespace Forge

open StateCodec

/-! ## Sizes -/

theorem length_encodeAll_mod (records : List StateRecord) : (encodeAll records).length % 8 = 0 := by
  induction records with
  | nil => rfl
  | cons record records ih =>
    have hhead := length_encode_mod record
    rw [encodeAll_cons, List.length_append]
    omega

namespace FileStateStore

/-! ## Logs of the store -/

/-- The log has not been cut in the padding of its last record, and no control record is committed in
it. -/
structure Sound (log : Bytes) : Prop where
  not_cut : ¬ CutPadding log
  plain : ∀ record ∈ (recoverLog log).committedRecords, ¬ record.Control

theorem sound_nil : Sound [] := ⟨by decide, by simp [recoverLog_nil]⟩

/-- What `recover` shows does not tell the two logs apart. -/
def ShowsSame (found now : RecoveryResult) : Prop := ∀ saved, joined saved now = joined saved found

theorem ShowsSame.of_reports {found kept : RecoveryResult} (h : Reports found kept) :
    ShowsSame kept found := by
  intro saved
  rw [joined, joined, h.committedRecords, h.sequence]

theorem ShowsSame.trans {found kept now : RecoveryResult} (h : ShowsSame found kept)
    (h' : ShowsSame kept now) : ShowsSame found now := fun saved => (h' saved).trans (h saved)

theorem plain_of_sansTxnId {records kept : List StateRecord}
    (h : records.map sansTxnId = kept.map sansTxnId) (hplain : ∀ record ∈ kept, ¬ record.Control) :
    ∀ record ∈ records, ¬ record.Control := by
  intro record hrecord
  have hmem : sansTxnId record ∈ kept.map sansTxnId := by
    rw [← h]
    exact List.mem_map_of_mem hrecord
  obtain ⟨other, hother, hsame⟩ := List.mem_map.mp hmem
  have htype : (sansTxnId other).type = (sansTxnId record).type := by rw [hsame]
  have hnot := hplain other hother
  rwa [StateRecord.Control, show other.type = record.type from htype] at hnot

theorem cleanLogBytes_of_plain {log : Bytes}
    (hplain : ∀ record ∈ (recoverLog log).committedRecords, ¬ record.Control) :
    ∃ clean, cleanLogBytes log = .ok clean := by
  unfold cleanLogBytes
  simp only
  split_ifs
  · exact ⟨_, rfl⟩
  · exact ⟨_, rfl⟩
  · exact ⟨_, rfl⟩
  · exact ⟨_, encodeTransaction_eq hplain _ _ _⟩

theorem clean_aligned {log clean : Bytes} (h : cleanLogBytes log = .ok clean) (hcut : ¬ CutPadding log) :
    clean.length % 8 = 0 := by
  cases cleanLogBytes_ok h with
  | intact hintact => exact not_not.mp fun hodd => hcut ⟨hintact, hodd⟩
  | drops => rfl
  | merges =>
    have haligned := length_encodeAll_mod (merged (recoverLog log)).records
    rw [logBytes, logBytes, List.append_nil, Txn.length_bytes]
    omega

variable {log : Bytes}

theorem Sound.clean (hsound : Sound log) {clean : Bytes} (hclean : cleanLogBytes log = .ok clean) :
    Sound clean ∧ ShowsSame (recoverLog log) (recoverLog clean) :=
  ⟨⟨fun hcut => hcut.2 (clean_aligned hclean hsound.not_cut),
    plain_of_sansTxnId (sansTxnId_clean hclean) hsound.plain⟩, joined_clean hclean⟩

theorem Sound.written (hsound : Sound log) {clean : Bytes} (hclean : cleanLogBytes log = .ok clean)
    {t : Txn} (ht : t.Valid) :
    Sound (clean ++ t.bytes clean) ∧ Replays (recoverLog log) (recoverLog (clean ++ t.bytes clean)) t := by
  have hreplays := replays_written hclean hsound.not_cut ht
  refine ⟨⟨fun hcut => hcut.2 ?_, fun record hrecord => ?_⟩, hreplays⟩
  · have hfront := clean_aligned hclean hsound.not_cut
    have hrecords := length_encodeAll_mod t.records
    rw [List.length_append, Txn.length_bytes]
    omega
  · obtain ⟨kept, hkept, hsame⟩ := hreplays.records
    rw [hkept] at hrecord
    rcases List.mem_append.mp hrecord with hrecord | hrecord
    · exact plain_of_sansTxnId hsame hsound.plain record hrecord
    · exact (ht record hrecord).1

theorem Sound.torn (hsound : Sound log) {clean : Bytes} (hclean : cleanLogBytes log = .ok clean)
    {t : Txn} (ht : t.Valid) {n : Nat} (hn : n < (t.bytes clean).length) :
    Sound (clean ++ (t.bytes clean).take n) ∧
      ShowsSame (recoverLog log) (recoverLog (clean ++ (t.bytes clean).take n)) := by
  obtain ⟨hsoundClean, hsame⟩ := hsound.clean hclean
  rcases Nat.eq_zero_or_pos n with rfl | hpos
  · rw [List.take_zero, List.append_nil]
    exact ⟨hsoundClean, hsame⟩
  · have hreports := (settled_clean hclean hsound.not_cut).torn ht hpos hn
    refine ⟨⟨fun hcut => hreports.diagnosed hcut.1, ?_⟩, hsame.trans (.of_reports hreports)⟩
    rw [hreports.committedRecords]
    exact hsoundClean.plain

/-- **What an append does to a log of the store.** -/
theorem Appends.effect {io : AppendIo} {t : Txn} {ending : Return Unit} {after : Bytes}
    (h : Appends log io t ending after) (hsound : Sound log)
    (hfit : (∀ record ∈ t.records, ¬ record.Control) → ∀ record ∈ t.records, Fits record) :
    Sound after ∧
      (ending ≠ .value (.ok ()) ∧ ShowsSame (recoverLog log) (recoverLog after) ∨
        ending ≠ .value (.ok ()) ∧ io.compact.Loses ∧ after = [] ∨
        Replays (recoverLog log) (recoverLog after) t ∧ (∀ record ∈ t.records, ¬ record.Control) ∧
          ∀ n, io.append.write = some n → 96 + (encodeAll t.records).length ≤ n) := by
  have hvalid (hplain : ∀ record ∈ t.records, ¬ record.Control) : t.Valid :=
    fun record hrecord => ⟨hplain record hrecord, hfit hplain record hrecord⟩
  cases h with
  | refuses hending => exact ⟨hsound, .inl ⟨hending, fun _ => rfl⟩⟩
  | loses hending hloses => exact ⟨sound_nil, .inr (.inl ⟨hending, hloses, rfl⟩)⟩
  | compacts hending hclean =>
    obtain ⟨hsoundClean, hsame⟩ := hsound.clean hclean
    exact ⟨hsoundClean, .inl ⟨hending, hsame⟩⟩
  | @tears _ clean n hending hclean hplain hwrite =>
    rcases Nat.lt_or_ge n (t.bytes clean).length with hn | hn
    · obtain ⟨hsoundTorn, hsame⟩ := hsound.torn hclean (hvalid hplain) hn
      exact ⟨hsoundTorn, .inl ⟨hending, hsame⟩⟩
    · obtain ⟨hsoundWritten, hreplays⟩ := hsound.written hclean (hvalid hplain)
      rw [List.take_of_length_le hn]
      refine ⟨hsoundWritten, .inr (.inr ⟨hreplays, hplain, fun m hm => ?_⟩)⟩
      rw [hwrite] at hm
      rwa [← Option.some.inj hm, ← Txn.length_bytes clean]
  | writes hclean hplain hio =>
    obtain ⟨hsoundWritten, hreplays⟩ := hsound.written hclean (hvalid hplain)
    exact ⟨hsoundWritten, .inr (.inr ⟨hreplays, hplain, fun m hm => by rw [hio.2.2] at hm; cases hm⟩)⟩

/-- What a checkpoint does: it is published, with the log emptied or not, or the log stays and so does
the checkpoint that was there, unless its file is lost. -/
theorem checkpoint_spec (store : FileStateStore) (io : CheckpointIo) (sequence : UInt64)
    (payload : Bytes) :
    let after := (store.checkpoint io sequence payload).2
    (bytesOf after.checkpointFile =
          logBytes [] [stamped kCompactionTxnId 0 sequence [checkpointRecord payload]] ∧
        (bytesOf after.logFile = bytesOf store.logFile ∨ bytesOf after.logFile = [])) ∨
      (bytesOf after.logFile = bytesOf store.logFile ∧
        (bytesOf after.checkpointFile = bytesOf store.checkpointFile ∨
          io.publish.Loses ∧ bytesOf after.checkpointFile = [])) := by
  intro after
  have hbytes {file file' : StateFile} (h : file.content = file'.content) : bytesOf file = bytesOf file' := by
    rw [bytesOf, bytesOf, h]
  rcases replaceFile_spec io.publish store.checkpointFile
    (logBytes [] [stamped kCompactionTxnId 0 sequence [checkpointRecord payload]]) with h | ⟨hends, hkept⟩
  · left
    simp only [after, checkpoint, checkpointBytes_eq, h]
    refine ⟨rfl, ?_⟩
    rcases replaceFile_spec io.rotate store.logFile [] with h' | ⟨-, hkept' | ⟨-, hlost⟩⟩
    · rw [h']
      exact .inr rfl
    · exact .inl (hbytes hkept')
    · exact .inr (by rw [bytesOf, hlost]; rfl)
  · right
    generalize hreplaced : replaceFile io.publish store.checkpointFile
      (logBytes [] [stamped kCompactionTxnId 0 sequence [checkpointRecord payload]]) = replaced at hends hkept
    obtain ⟨ending, file⟩ := replaced
    simp only [after, checkpoint_of_not_published hreplaced (hends ())]
    rcases hkept with hkept | ⟨hloses, hlost⟩
    · exact ⟨trivial, .inl (hbytes hkept)⟩
    · exact ⟨trivial, .inr ⟨hloses, by rw [bytesOf, hlost]; rfl⟩⟩

/-! ## Runs of writers -/

/-- A call on the directory, by any writer. -/
inductive WriterStep
  | append (io : AppendIo) (txnId baseSequence newSequence : UInt64) (records : List StateRecord)
  | checkpoint (io : CheckpointIo) (sequence : UInt64) (payload : Bytes)
deriving DecidableEq, Repr

def WriterStep.exec (store : FileStateStore) : WriterStep → FileStateStore
  | append io txnId baseSequence newSequence records =>
    (store.appendTransaction io txnId baseSequence newSequence records).2
  | checkpoint io sequence payload => (FileStateStore.checkpoint store io sequence payload).2

/-- The sequence `recover` returns. -/
def sequenceOf (store : FileStateStore) : Return UInt64 := (store.recover {}).map (·.sequence)

theorem sequenceOf_eq (store : FileStateStore) :
    sequenceOf store = .value (.ok
      (joined (recoverLog (bytesOf store.checkpointFile)) (recoverLog (bytesOf store.logFile))).1) := by
  rw [sequenceOf, recover_eq]
  rfl

/-- The append reads the log that is there, and records that are written fit their length fields. -/
def Written (store : FileStateStore) (io : AppendIo) (records : List StateRecord) : Prop :=
  Sees io.read store.logFile ∧
    ((∀ record ∈ records, ¬ record.Control) → ∀ record ∈ records, Fits record)

instance (store : FileStateStore) (io : AppendIo) (records : List StateRecord) :
    Decidable (Written store io records) := inferInstanceAs (Decidable (_ ∧ (_ → _)))

def Writes (store : FileStateStore) : WriterStep → Prop
  | .append io _ _ _ records => Written store io records
  | .checkpoint _ _ _ => True

instance (store : FileStateStore) : DecidablePred (Writes store)
  | .append io _ _ _ records => inferInstanceAs (Decidable (Written store io records))
  | .checkpoint _ _ _ => inferInstanceAs (Decidable True)

theorem append_effect {store : FileStateStore} (hsound : Sound (bytesOf store.logFile)) {io : AppendIo}
    {records : List StateRecord} (hwritten : Written store io records)
    (txnId baseSequence newSequence : UInt64) :
    let t := stamped txnId baseSequence newSequence records
    let run := store.appendTransaction io txnId baseSequence newSequence records
    let found := recoverLog (bytesOf store.logFile)
    let now := recoverLog (bytesOf run.2.logFile)
    Sound (bytesOf run.2.logFile) ∧
      (run.1 ≠ .value (.ok ()) ∧ ShowsSame found now ∨
        run.1 ≠ .value (.ok ()) ∧ io.compact.Loses ∧ bytesOf run.2.logFile = [] ∨
        Replays found now t ∧ (∀ record ∈ records, ¬ record.Control) ∧
          ∀ n, io.append.write = some n → (t.bytes []).length ≤ n) := by
  intro t run found now
  have happends := appendTransaction_appends hwritten.1 txnId baseSequence newSequence records
  obtain ⟨hafter, heffect⟩ := happends.effect hsound fun hplain =>
    List.forall_mem_map.mpr (hwritten.2 (stamped_plain_iff.mp hplain))
  refine ⟨hafter, heffect.imp_right (Or.imp_right ?_)⟩
  rintro ⟨hreplays, hplain, hsize⟩
  refine ⟨hreplays, stamped_plain_iff.mp hplain, fun n hn => ?_⟩
  rw [Txn.length_bytes]
  exact hsize n hn

theorem sound_step {store : FileStateStore} {step : WriterStep} (hsound : Sound (bytesOf store.logFile))
    (hwrites : Writes store step) : Sound (bytesOf (step.exec store).logFile) := by
  cases step with
  | append io txnId baseSequence newSequence records =>
    exact (append_effect hsound hwrites txnId baseSequence newSequence).1
  | checkpoint io sequence payload =>
    rcases checkpoint_spec store io sequence payload with ⟨-, hlog | hlog⟩ | ⟨hlog, -⟩
    · rwa [WriterStep.exec, hlog]
    · rw [WriterStep.exec, hlog]
      exact sound_nil
    · rwa [WriterStep.exec, hlog]

theorem sound_run {steps : List WriterStep} (hrun : Runs.Admissible WriterStep.exec Writes {} steps) :
    Sound (bytesOf (steps.foldl WriterStep.exec {}).logFile) := by
  have hkeeps (store : FileStateStore) (step : WriterStep) (hsound : Sound (bytesOf store.logFile))
      (hwrites : Writes store step) : Sound (bytesOf (step.exec store).logFile) :=
    sound_step hsound hwrites
  have hempty : Sound (bytesOf (logFile {})) := sound_nil
  exact Runs.invariant_of_admissible hkeeps hempty hrun

/-! ## The sequence after an append -/

/-- A torn append: its write stops within the transaction. Its compaction, if it makes one, does not lose
the log. -/
def Torn : WriterStep → Prop
  | .append io txnId baseSequence newSequence records =>
    ¬ io.compact.Loses ∧ ∃ n, io.append.write = some n ∧
      n < ((stamped txnId baseSequence newSequence records).bytes []).length
  | .checkpoint _ _ _ => False

theorem ShowsSame.sequenceOf_eq {store after : FileStateStore}
    (hcheckpoint : after.checkpointFile = store.checkpointFile)
    (h : ShowsSame (recoverLog (bytesOf store.logFile)) (recoverLog (bytesOf after.logFile))) :
    sequenceOf after = sequenceOf store := by
  rw [FileStateStore.sequenceOf_eq, FileStateStore.sequenceOf_eq, hcheckpoint, h]

theorem sequenceOf_torn {store : FileStateStore} (hsound : Sound (bytesOf store.logFile))
    {step : WriterStep} (hwrites : Writes store step) (htorn : Torn step) :
    sequenceOf (step.exec store) = sequenceOf store := by
  cases step with
  | append io txnId baseSequence newSequence records =>
    obtain ⟨hkeeps, n, hwrite, hn⟩ := htorn
    obtain ⟨-, ⟨-, hsame⟩ | ⟨-, hloses, -⟩ | ⟨-, -, hwhole⟩⟩ :=
      append_effect hsound hwrites txnId baseSequence newSequence
    · exact ShowsSame.sequenceOf_eq (appendTransaction_checkpointFile ..) hsame
    · exact absurd hloses hkeeps
    · exact absurd (hwhole n hwrite) (by omega)
  | checkpoint => exact htorn.elim

theorem sequenceOf_torn_run {store : FileStateStore} {steps : List WriterStep}
    (hsound : Sound (bytesOf store.logFile))
    (hrun : Runs.Admissible WriterStep.exec Writes store steps) (htorn : ∀ step ∈ steps, Torn step) :
    sequenceOf (steps.foldl WriterStep.exec store) = sequenceOf store := by
  induction steps generalizing store with
  | nil => rfl
  | cons step steps ih =>
    obtain ⟨hwrites, hrest⟩ := hrun
    rw [List.foldl_cons, ih (sound_step hsound hwrites) hrest
      (fun other hother => htorn other (by simp [hother])),
      sequenceOf_torn hsound hwrites (htorn step (by simp))]

theorem replays_of_append_ok {store : FileStateStore} (hsound : Sound (bytesOf store.logFile))
    {io : AppendIo} {txnId baseSequence newSequence : UInt64} {records : List StateRecord}
    (hwritten : Written store io records)
    (hends : (store.appendTransaction io txnId baseSequence newSequence records).1 = .value (.ok ())) :
    Replays (recoverLog (bytesOf store.logFile))
      (recoverLog
        (bytesOf (store.appendTransaction io txnId baseSequence newSequence records).2.logFile))
      (stamped txnId baseSequence newSequence records) := by
  obtain ⟨-, ⟨hfails, -⟩ | ⟨hfails, -⟩ | ⟨hreplays, -⟩⟩ :=
    append_effect hsound hwritten txnId baseSequence newSequence
  · exact absurd hends hfails
  · exact absurd hends hfails
  · exact hreplays

variable {found now saved : RecoveryResult} {t : Txn}

theorem Replays.committedRecords_eq_nil_iff (h : Replays found now t) :
    now.committedRecords = [] ↔ found.committedRecords = [] ∧ t.records = [] := by
  obtain ⟨kept, hkept, hsame⟩ := h.records
  have hnone : kept = [] ↔ found.committedRecords = [] := by
    rw [← List.map_eq_nil_iff (f := sansTxnId), hsame, List.map_eq_nil_iff]
  rw [hkept, List.append_eq_nil_iff, hnone]

theorem joined_sequence (h : Replays found now t) :
    (joined saved now).1 =
      if found.committedRecords = [] ∧ t.records = [] then (joined saved found).1 else t.newSequence := by
  rw [joined, h.sequence]
  by_cases hempty : found.committedRecords = [] ∧ t.records = []
  · rw [if_pos (h.committedRecords_eq_nil_iff.mpr hempty), if_pos hempty, joined, if_pos hempty.1]
  · rw [if_neg fun hnow => hempty (h.committedRecords_eq_nil_iff.mp hnow), if_neg hempty]

theorem sequenceOf_append_iff {store : FileStateStore} (hsound : Sound (bytesOf store.logFile))
    {io : AppendIo} {txnId baseSequence newSequence : UInt64} {records : List StateRecord}
    (hwritten : Written store io records)
    (hends : (store.appendTransaction io txnId baseSequence newSequence records).1 = .value (.ok ())) :
    sequenceOf (store.appendTransaction io txnId baseSequence newSequence records).2 = .value (.ok newSequence) ↔
      records ≠ [] ∨ (recoverLog (bytesOf store.logFile)).committedRecords ≠ [] ∨
        sequenceOf store = .value (.ok newSequence) := by
  have hreplays := replays_of_append_ok hsound hwritten hends
  have hrecords : (stamped txnId baseSequence newSequence records).records = [] ↔ records = [] :=
    List.map_eq_nil_iff
  rw [sequenceOf_eq, sequenceOf_eq, appendTransaction_checkpointFile, joined_sequence hreplays]
  by_cases hempty : (recoverLog (bytesOf store.logFile)).committedRecords = [] ∧ records = []
  · rw [if_pos ⟨hempty.1, hrecords.mpr hempty.2⟩]
    simp [hempty]
  · have hsome : records ≠ [] ∨ (recoverLog (bytesOf store.logFile)).committedRecords ≠ [] := by
      by_contra! hnone
      exact hempty ⟨hnone.2, hnone.1⟩
    rw [if_neg fun hboth => hempty ⟨hboth.1, hrecords.mp hboth.2⟩, ← or_assoc]
    exact iff_of_true rfl (.inl hsome)

/-- **When the sequence follows an acknowledged append.** In every state that a run from an empty
directory reaches, `recover` returns the sequence of an append that returned ok, there and behind all
torn appends and their compactions, if and only if the append has records, the log has committed ones, or
that sequence was the one before. -/
theorem sequence_follows_iff {before : List WriterStep}
    (hrun : Runs.Admissible WriterStep.exec Writes {} before) {io : AppendIo}
    {txnId baseSequence newSequence : UInt64} {records : List StateRecord}
    (hwritten : Written (before.foldl WriterStep.exec {}) io records)
    (hends : ((before.foldl WriterStep.exec {}).appendTransaction io txnId baseSequence newSequence
      records).1 = .value (.ok ())) :
    let store := before.foldl WriterStep.exec {}
    let after := (store.appendTransaction io txnId baseSequence newSequence records).2
    (∀ later, Runs.Admissible WriterStep.exec Writes after later → (∀ step ∈ later, Torn step) →
        sequenceOf (later.foldl WriterStep.exec after) = .value (.ok newSequence)) ↔
      records ≠ [] ∨ (recoverLog (bytesOf store.logFile)).committedRecords ≠ [] ∨
        sequenceOf store = .value (.ok newSequence) := by
  intro store after
  have hsound : Sound (bytesOf store.logFile) := sound_run hrun
  have hafter : Sound (bytesOf after.logFile) :=
    (append_effect hsound hwritten txnId baseSequence newSequence).1
  rw [← sequenceOf_append_iff hsound hwritten hends]
  constructor
  · intro hfollows
    exact hfollows [] trivial (by simp)
  · intro hsequence later hlater htorn
    rw [sequenceOf_torn_run hafter hlater htorn, hsequence]

/-- A transaction behind a checkpoint, then a torn one and one that compacts the log and is torn too. -/
theorem sequence_follows_torn :
    let before : List WriterStep := [.checkpoint {} 1 [9]]
    let later : List WriterStep :=
      [.append { append := { write := some 60 } } 3 2 7 [⟨.inputDelta, 3, 0, 7, [2]⟩],
        .append { append := { write := some 1 } } 4 2 8 []]
    let steps := before ++ .append {} 2 1 2 [⟨.graphDelta, 2, 0, 2, [1]⟩] :: later
    Runs.Admissible WriterStep.exec Writes {} steps ∧
      sequenceOf (steps.foldl WriterStep.exec {}) = .value (.ok 2) := by
  intro before later steps
  have hrun : Runs.Admissible WriterStep.exec Writes {} steps := by decide +kernel
  obtain ⟨hbefore, hwritten, hlater⟩ := Runs.admissible_append.mp hrun
  have htorn : ∀ step ∈ later, Torn step := by
    refine List.forall_mem_cons.mpr ⟨⟨by decide, 60, rfl, ?_⟩,
      List.forall_mem_cons.mpr ⟨⟨by decide, 1, rfl, ?_⟩, by simp⟩⟩
    · rw [length_bytes_stamped]
      omega
    · rw [length_bytes_stamped]
      omega
  have hends : ((before.foldl WriterStep.exec {}).appendTransaction {} 2 1 2
      [⟨.graphDelta, 2, 0, 2, [1]⟩]).1 = .value (.ok ()) := by decide +kernel
  have hfollows := (sequence_follows_iff hbefore hwritten hends).mpr (.inl (by simp))
  refine ⟨hrun, ?_⟩
  rw [List.foldl_append, List.foldl_cons]
  exact hfollows later hlater htorn

/-- An empty transaction in an empty directory: acknowledged, and `recover` returns another sequence. -/
theorem empty_append_not_followed :
    (appendTransaction {} {} 1 0 5 []).1 = .value (.ok ()) ∧
      sequenceOf (appendTransaction {} {} 1 0 5 []).2 = .value (.ok 0) ∧
      sequenceOf (appendTransaction {} {} 1 0 5 []).2 ≠ .value (.ok 5) := by
  decide +kernel

/-! ## Bases -/

/-- The append returns ok and its transaction is found in the log. -/
def Admitted (store : FileStateStore) (io : AppendIo) (txnId baseSequence newSequence : UInt64)
    (records : List StateRecord) : Prop :=
  (store.appendTransaction io txnId baseSequence newSequence records).1 = .value (.ok ()) ∧
    Replays (recoverLog (bytesOf store.logFile))
      (recoverLog
        (bytesOf (store.appendTransaction io txnId baseSequence newSequence records).2.logFile))
      (stamped txnId baseSequence newSequence records)

/-- The law of the base in one state: a transaction is admitted only if its base is the sequence that
`recover` returns there and its own is greater. -/
def ChecksBase (store : FileStateStore) : Prop :=
  ∀ io txnId baseSequence newSequence records,
    Admitted store io txnId baseSequence newSequence records →
      sequenceOf store = .value (.ok baseSequence) ∧ baseSequence < newSequence

theorem admitted_any {store : FileStateStore} (hsound : Sound (bytesOf store.logFile))
    {records : List StateRecord} (hrecords : ∀ record ∈ records, ¬ record.Control ∧ Fits record)
    (txnId baseSequence newSequence : UInt64) :
    Admitted store {} txnId baseSequence newSequence records := by
  obtain ⟨clean, hclean⟩ := cleanLogBytes_of_plain hsound.plain
  have hplain : ∀ record ∈ records, ¬ record.Control := fun record hrecord => (hrecords record hrecord).1
  obtain ⟨-, hbytes⟩ := appendTransaction_files hclean (clean_eq_of_length hclean) hplain txnId
    baseSequence newSequence none
  rw [Option.getD_none, List.take_length] at hbytes
  constructor
  · simp only [appendTransaction, readFile_success, hclean, writeTransaction_eq hplain,
      replaceFile_success]
    split_ifs <;> rfl
  · show Replays _ (recoverLog (bytesOf (store.appendTransaction { append := { write := none } } txnId
      baseSequence newSequence records).2.logFile)) _
    rw [hbytes]
    exact replays_written hclean hsound.not_cut (stamped_valid_iff.mpr hrecords)

/-- **Nothing chains transactions.** In no state that a run from an empty directory reaches does the law
of the base hold. A transaction with records is admitted there with any base and any sequence, and the
sequence that `recover` returns is its own from then on, however high it was before. -/
theorem never_checks_base {steps : List WriterStep}
    (hrun : Runs.Admissible WriterStep.exec Writes {} steps) :
    ¬ ChecksBase (steps.foldl WriterStep.exec {}) ∧
      ∀ records : List StateRecord, records ≠ [] → (∀ record ∈ records, ¬ record.Control ∧ Fits record) →
        ∀ txnId baseSequence newSequence,
          Admitted (steps.foldl WriterStep.exec {}) {} txnId baseSequence newSequence records ∧
            sequenceOf ((steps ++ [WriterStep.append {} txnId baseSequence newSequence records]).foldl
              WriterStep.exec {}) = .value (.ok newSequence) := by
  have hsound := sound_run hrun
  constructor
  · intro hchecks
    have hplain : ∀ record ∈ [(⟨.graphDelta, 0, 0, 0, []⟩ : StateRecord)], ¬ record.Control ∧ Fits record := by
      decide
    -- a sequence that is not above the base
    have hadmitted := admitted_any hsound hplain 0 0 0
    exact UInt64.lt_irrefl 0 (hchecks _ _ _ _ _ hadmitted).2
  · intro records hsome hrecords txnId baseSequence newSequence
    have hadmitted := admitted_any hsound hrecords txnId baseSequence newSequence
    have hwritten : Written (steps.foldl WriterStep.exec {}) {} records :=
      ⟨by simp [Sees], fun _ record hrecord => (hrecords record hrecord).2⟩
    refine ⟨hadmitted, ?_⟩
    rw [List.foldl_append]
    exact (sequenceOf_append_iff hsound hwritten hadmitted.1).mpr (.inl hsome)

/-- Behind a transaction and a checkpoint, a writer that has read neither takes the sequence back to 1. -/
theorem never_checks_base_two :
    let steps : List WriterStep := [.append {} 1 0 5 [⟨.graphDelta, 1, 0, 5, [1]⟩], .checkpoint {} 6 [9]]
    ¬ ChecksBase (steps.foldl WriterStep.exec {}) ∧
      sequenceOf ((steps ++ [WriterStep.append {} 2 0 1 [⟨.jobDelta, 2, 0, 1, [2]⟩]]).foldl WriterStep.exec {}) =
        .value (.ok 1) := by
  intro steps
  have hrun : Runs.Admissible WriterStep.exec Writes {} steps := by decide
  obtain ⟨hlaw, hadmits⟩ := never_checks_base hrun
  exact ⟨hlaw, (hadmits [⟨.jobDelta, 2, 0, 1, [2]⟩] (by simp) (by decide) 2 0 1).2⟩

/-- A second writer that has not seen the first one's transaction: its own is admitted, and the sequence
goes back. -/
theorem stale_base_admitted :
    let store := WriterStep.exec {} (.append {} 1 0 5 [⟨.graphDelta, 1, 0, 5, [1]⟩])
    Admitted store {} 2 0 3 [⟨.jobDelta, 2, 0, 3, [2]⟩] ∧ sequenceOf store = .value (.ok 5) ∧
      sequenceOf (WriterStep.exec store (.append {} 2 0 3 [⟨.jobDelta, 2, 0, 3, [2]⟩])) = .value (.ok 3) := by
  intro store
  have hsound : Sound (bytesOf store.logFile) := sound_step sound_nil (by decide)
  exact ⟨admitted_any hsound (by decide) 2 0 3, by decide +kernel, by decide +kernel⟩

/-! ## Writers that advance -/

/-- The call has no lower sequence than `recover` returns, unless it is an append that writes nothing, and
does not lose a file it replaces. -/
def Advances (store : FileStateStore) : WriterStep → Prop
  | .append io _ _ newSequence records =>
    Written store io records ∧ ¬ io.compact.Loses ∧
      ((∀ record ∈ records, ¬ record.Control) →
        ∃ current, sequenceOf store = .value (.ok current) ∧ current ≤ newSequence)
  | .checkpoint io sequence payload =>
    Fits (checkpointRecord payload) ∧ ¬ io.publish.Loses ∧
      ∃ current, sequenceOf store = .value (.ok current) ∧ current ≤ sequence

/-- From the one state to the other the sequence that `recover` returns does not go back. -/
def SequenceLe (store after : FileStateStore) : Prop :=
  ∃ current next, sequenceOf store = .value (.ok current) ∧ sequenceOf after = .value (.ok next) ∧ current ≤ next

/-- And the records it returns stay in front of the later ones, up to their transaction ids. -/
def ShowsPrefix (store after : FileStateStore) : Prop :=
  ∃ found now, visible store = .value (.ok found) ∧ visible after = .value (.ok now) ∧ found.2 <+: now.2

def WriterStep.IsAppend : WriterStep → Prop
  | .append .. => True
  | .checkpoint .. => False

/-- What `recover` shows of the directory. -/
def shown (store : FileStateStore) : UInt64 × List StateRecord :=
  joined (recoverLog (bytesOf store.checkpointFile)) (recoverLog (bytesOf store.logFile))

theorem sequenceOf_le_iff {store : FileStateStore} {bound : UInt64} :
    (∃ current, sequenceOf store = .value (.ok current) ∧ current ≤ bound) ↔ (shown store).1 ≤ bound := by
  simp only [sequenceOf_eq, Return.value.injEq, Except.ok.injEq, exists_eq_left', shown]

theorem sequenceLe_iff {store after : FileStateStore} :
    SequenceLe store after ↔ (shown store).1 ≤ (shown after).1 := by
  simp only [SequenceLe, sequenceOf_eq, Return.value.injEq, Except.ok.injEq, exists_and_left, exists_eq_left',
    shown]

theorem showsPrefix_iff {store after : FileStateStore} :
    ShowsPrefix store after ↔ (shown store).2 <+: (shown after).2 := by
  simp only [ShowsPrefix, visible_eq, Return.value.injEq, Except.ok.injEq, exists_and_left, exists_eq_left',
    shown]

theorem SequenceLe.refl (store : FileStateStore) : SequenceLe store store :=
  sequenceLe_iff.mpr (UInt64.le_refl _)

theorem SequenceLe.trans {store mid after : FileStateStore} (h : SequenceLe store mid)
    (h' : SequenceLe mid after) : SequenceLe store after :=
  sequenceLe_iff.mpr (UInt64.le_trans (sequenceLe_iff.mp h) (sequenceLe_iff.mp h'))

theorem ShowsPrefix.refl (store : FileStateStore) : ShowsPrefix store store :=
  showsPrefix_iff.mpr List.prefix_rfl

theorem ShowsPrefix.trans {store mid after : FileStateStore} (h : ShowsPrefix store mid)
    (h' : ShowsPrefix mid after) : ShowsPrefix store after :=
  showsPrefix_iff.mpr ((showsPrefix_iff.mp h).trans (showsPrefix_iff.mp h'))

theorem joined_prefix {found now saved : RecoveryResult} {t : Txn} (h : Replays found now t) :
    (joined saved found).2 <+: (joined saved now).2 := by
  obtain ⟨kept, hkept, hsame⟩ := h.records
  rw [joined, joined, hkept, List.map_append, List.map_append, List.map_append, hsame,
    ← List.append_assoc]
  exact List.prefix_append _ _

theorem advances_append {store : FileStateStore} (hsound : Sound (bytesOf store.logFile)) {io : AppendIo}
    {txnId baseSequence newSequence : UInt64} {records : List StateRecord}
    (hadvances : Advances store (.append io txnId baseSequence newSequence records)) :
    let after := WriterStep.exec store (.append io txnId baseSequence newSequence records)
    SequenceLe store after ∧ ShowsPrefix store after := by
  intro after
  obtain ⟨hwritten, hkeeps, hsequence⟩ := hadvances
  rw [sequenceLe_iff, showsPrefix_iff]
  have hshown : shown after =
      joined (recoverLog (bytesOf store.checkpointFile)) (recoverLog (bytesOf after.logFile)) := by
    rw [shown, show after.checkpointFile = _ from
      appendTransaction_checkpointFile store io txnId baseSequence newSequence records]
  rw [hshown]
  rcases (append_effect hsound hwritten txnId baseSequence newSequence).2 with
    ⟨-, hsame⟩ | ⟨-, hloses, -⟩ | ⟨hreplays, hplain, -⟩
  · rw [show joined _ (recoverLog (bytesOf after.logFile)) = shown store from hsame _]
    exact ⟨UInt64.le_refl _, List.prefix_rfl⟩
  · exact absurd hloses hkeeps
  · refine ⟨?_, joined_prefix hreplays⟩
    rw [show (joined _ (recoverLog (bytesOf after.logFile))).1 = _ from joined_sequence hreplays]
    split_ifs
    · exact UInt64.le_refl _
    · exact sequenceOf_le_iff.mp (hsequence hplain)

theorem advances_checkpoint {store : FileStateStore} {io : CheckpointIo} {sequence : UInt64}
    {payload : Bytes} (hadvances : Advances store (.checkpoint io sequence payload)) :
    SequenceLe store (WriterStep.exec store (.checkpoint io sequence payload)) := by
  obtain ⟨hfit, hkeeps, hsequence⟩ := hadvances
  have hbound := sequenceOf_le_iff.mp hsequence
  rw [shown] at hbound
  rw [sequenceLe_iff, shown]
  have hsaved := recoverLog_checkpoint sequence hfit
  rcases checkpoint_spec store io sequence payload with
    ⟨hcheckpoint, hlog | hlog⟩ | ⟨hlog, hcheckpoint | ⟨hloses, -⟩⟩
  · -- the log is still there, and its sequence counts if it has records
    rw [shown, WriterStep.exec, hcheckpoint, hlog, hsaved]
    by_cases hempty : (recoverLog (bytesOf store.logFile)).committedRecords = []
    · rw [joined, joined, if_pos hempty, if_pos hempty]
      rwa [joined, if_pos hempty] at hbound
    · rw [joined, joined, if_neg hempty, if_neg hempty]
      exact UInt64.le_refl _
  · rw [shown, WriterStep.exec, hcheckpoint, hlog, hsaved, recoverLog_nil]
    exact hbound
  · rw [shown, WriterStep.exec, hcheckpoint, hlog]
    exact UInt64.le_refl _
  · exact absurd hloses hkeeps

theorem Advances.writes {store : FileStateStore} {step : WriterStep} (h : Advances store step) :
    Writes store step := by
  cases step with
  | append => exact h.1
  | checkpoint => trivial

theorem advances_run {store : FileStateStore} (hsound : Sound (bytesOf store.logFile))
    {steps : List WriterStep} (hrun : Runs.Admissible WriterStep.exec Advances store steps) :
    SequenceLe store (steps.foldl WriterStep.exec store) ∧
      ((∀ step ∈ steps, step.IsAppend) → ShowsPrefix store (steps.foldl WriterStep.exec store)) := by
  induction steps generalizing store with
  | nil => exact ⟨.refl store, fun _ => .refl store⟩
  | cons step steps ih =>
    obtain ⟨hadvances, hrest⟩ := hrun
    obtain ⟨hle, hfront⟩ := ih (sound_step hsound hadvances.writes) hrest
    cases step with
    | append io txnId baseSequence newSequence records =>
      obtain ⟨hstep, hshows⟩ := advances_append hsound hadvances
      exact ⟨hstep.trans hle, fun happends =>
        hshows.trans (hfront fun other hother => happends other (by simp [hother]))⟩
    | checkpoint io sequence payload =>
      exact ⟨(advances_checkpoint hadvances).trans hle, fun happends =>
        (happends (.checkpoint io sequence payload) (by simp)).elim⟩

/-- **Writers that advance.** In a run from an empty directory whose calls have no lower sequence than
`recover` returns, it never goes back, and appends only add to the records that `recover` returns. -/
theorem writers_advance {before later : List WriterStep}
    (hrun : Runs.Admissible WriterStep.exec Advances {} (before ++ later)) :
    let store := before.foldl WriterStep.exec {}
    SequenceLe store (later.foldl WriterStep.exec store) ∧
      ((∀ step ∈ later, step.IsAppend) → ShowsPrefix store (later.foldl WriterStep.exec store)) := by
  obtain ⟨hbefore, hlater⟩ := Runs.admissible_append.mp hrun
  have hwrites : Runs.Admissible WriterStep.exec Writes {} before :=
    hbefore.imp fun _ _ => Advances.writes
  exact advances_run (sound_run hwrites) hlater

/-- Two writers, a checkpoint, and behind it a torn append, a whole one and one that compacts the log. -/
theorem writers_advance_four :
    let before : List WriterStep := [.append {} 1 0 5 [⟨.graphDelta, 1, 0, 5, [1]⟩], .checkpoint {} 5 [9]]
    let later : List WriterStep :=
      [.append { append := { write := some 60 } } 2 5 6 [⟨.jobDelta, 2, 5, 6, [2]⟩],
        .append {} 3 0 6 [⟨.inputDelta, 3, 0, 6, [3]⟩]]
    ShowsPrefix (before.foldl WriterStep.exec {}) (later.foldl WriterStep.exec
      (before.foldl WriterStep.exec {})) := by
  intro before later
  have hrun : Runs.Admissible WriterStep.exec Advances {} (before ++ later) :=
    ⟨⟨by decide, by decide, fun _ => ⟨0, by decide +kernel, by decide⟩⟩,
      ⟨by decide, by decide, 5, by decide +kernel, by decide⟩,
      ⟨by decide, by decide, fun _ => ⟨5, by decide +kernel, by decide⟩⟩,
      ⟨by decide, by decide, fun _ => ⟨5, by decide +kernel, by decide⟩⟩, trivial⟩
  refine (writers_advance hrun).2 fun step hstep => ?_
  rcases List.mem_pair.mp hstep with rfl | rfl <;> trivial

end FileStateStore

end Forge
