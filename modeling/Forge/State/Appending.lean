import Forge.State.FailedReplacement
import Forge.State.LogSpace

/-!
# Appends to arbitrary logs

What `append_transaction` does to a log of any bytes. A log is `Settled` when replay stands between two
transactions at its end whatever follows; then a transaction written behind it is published, and a part
of one is not. What `clean_log_bytes` returns is settled, with one exception: a log that replays without
a diagnostic and ends inside the padding of its last record (`CutPadding`). Replay takes the first bytes
of the next transaction for that padding, so the transaction is lost (`append_recoverable_iff`).
-/

namespace Forge

open StateCodec

variable {log : Bytes}

/-! ## Bytes behind a log -/

theorem replayRecord_append {s : Replay} (h : s.offset ≤ log.length) (rest : Bytes)
    (record : StateRecord) (consumed : Nat) :
    replayRecord (log ++ rest) s record consumed = replayRecord log s record consumed := by
  have htake := @replayRecord_take (log ++ rest) s log.length h record consumed
  rw [← htake, List.take_left]

theorem LogRun.eq_of_end {s t : Replay} {turns : List LogTurn} (h : LogRun log s turns t)
    (hend : log.length ≤ s.offset) : t = s := by
  cases h with
  | done => rfl
  | stop message hlt => omega
  | turn hlt => omega

theorem LogRun.extend {s t : Replay} {turns : List LogTurn} (h : LogRun log s turns t)
    (hs : s.offset % 8 = 0) (ht : t.offset = log.length) (rest : Bytes) :
    replay (log ++ rest) s =
      replay (log ++ rest)
        { t with offset := min (log.length + padding log.length) (log ++ rest).length } := by
  induction h with
  | @done s hend =>
    have hpadding : padding log.length = 0 := by
      unfold padding
      omega
    have hmin : min (log.length + padding log.length) (log ++ rest).length = s.offset := by
      rw [hpadding, List.length_append, ht]
      omega
    rw [hmin]
  | @stop s message hlt hturn =>
    have hoffset : (s.diagnose message).offset = s.offset := rfl
    omega
  | @turn s t u record consumed turns hlt hdecode hnext htail ih =>
    have hdrop : (log ++ rest).drop s.offset = log.drop s.offset ++ rest :=
      List.drop_append_of_le_length hlt.le
    obtain ⟨hlen, hconsumed⟩ := decode_size hdecode
    have hmore := decode_extend hdecode rest
    rw [← hdrop] at hmore
    have hsize := length_encode record
    have haligned := length_encode_mod record
    rw [List.length_drop] at hlen hconsumed
    obtain ⟨hoffset, hnext'⟩ := replayRecord_consumed hnext
      (min (encode record).length ((log ++ rest).drop s.offset).length)
    rw [← replayRecord_append hlt.le rest] at hnext'
    have hstep : replay (log ++ rest) s = replay (log ++ rest)
        { t with offset := s.offset + min (encode record).length ((log ++ rest).drop s.offset).length } := by
      rw [replay_eq, if_pos (by rw [List.length_append]; omega), replayTurn, hmore]
      simp only [hnext']
    rw [hstep, List.length_drop]
    by_cases hcut : log.length - s.offset < (encode record).length
    · -- the end of the log cuts the padding of this record
      obtain rfl := htail.eq_of_end (by omega)
      have hend : s.offset + min (encode record).length ((log ++ rest).length - s.offset) =
          min (log.length + padding log.length) (log ++ rest).length := by
        unfold padding at hsize ⊢
        rw [List.length_append]
        omega
      rw [hend]
    · have hsame : s.offset + min (encode record).length ((log ++ rest).length - s.offset) = t.offset := by
        rw [List.length_append]
        omega
      rw [hsame]
      exact ih (by omega) ht

theorem LogRun.ended {s t : Replay} {turns : List LogTurn} (h : LogRun log s turns t)
    (hs : s.offset ≤ log.length) : t.offset = log.length ∨ t.result.diagnostics ≠ [] := by
  induction h with
  | done hend => exact .inl (by omega)
  | stop message hlt hturn => exact .inr (by simp [Replay.diagnose])
  | @turn s t u record consumed turns hlt hdecode hnext htail ih =>
    have hoffset := (replayRecord_consumed hnext consumed).1
    have hle := (decode_consumed hdecode).2
    rw [List.length_drop] at hle
    exact ih (by omega)

theorem intact_end (h : (recoverLog log).diagnostics = []) :
    AtBoundary (replay log {}) (recoverLog log) log.length := by
  have hout : (replay log {}).inTxn = false := by
    by_contra hin
    rw [Bool.not_eq_false] at hin
    exact (reports_in_txn hin).diagnosed (by rwa [← recoverLog_eq])
  have hfinish : recoverLog log = (replay log {}).result := by
    rw [recoverLog_eq, Replay.finish, hout]
    rfl
  refine ⟨hfinish.symm, ?_, hout⟩
  exact ((logRun log).ended (Nat.zero_le _)).resolve_right (by rw [← hfinish]; exact not_not_intro h)

/-! ## Settled logs -/

/-- Behind `log`, whatever follows, the replay is between two transactions and has found `result`. -/
def Settled (log : Bytes) (result : RecoveryResult) : Prop :=
  ∀ rest, ∃ s, AtBoundary s result log.length ∧ replay (log ++ rest) {} = replay (log ++ rest) s

/-- The log replays without a diagnostic and ends inside the padding of its last record. -/
def CutPadding (log : Bytes) : Prop := (recoverLog log).diagnostics = [] ∧ log.length % 8 ≠ 0

instance (log : Bytes) : Decidable (CutPadding log) := inferInstanceAs (Decidable (_ ∧ _))

theorem settled_of_intact (h : (recoverLog log).diagnostics = []) (hcut : ¬ CutPadding log) :
    Settled log (recoverLog log) := by
  have haligned : log.length % 8 = 0 := by
    by_contra hodd
    exact hcut ⟨h, hodd⟩
  intro rest
  have hend := intact_end h
  have hmin : min (log.length + padding log.length) (log ++ rest).length = (replay log {}).offset := by
    rw [hend.offset_eq, List.length_append]
    unfold padding
    omega
  refine ⟨replay log {}, hend, ?_⟩
  rw [(logRun log).extend rfl hend.offset_eq rest, hmin]

theorem settled_logBytes {ts : List Txn} (hvalid : ∀ t ∈ ts, t.Valid) :
    Settled (logBytes [] ts) (recoverLog (logBytes [] ts)) := by
  intro rest
  obtain ⟨s, hs, hrun⟩ := replay_log_intact hvalid [] rest atBoundary_init
  rw [recoverLog_log hvalid]
  exact ⟨s, hs, hrun⟩

namespace Settled

variable {result : RecoveryResult}

theorem recoverLog_eq (h : Settled log result) : recoverLog log = result := by
  obtain ⟨s, hs, hrun⟩ := h []
  rw [List.append_nil] at hrun
  rw [Forge.recoverLog_eq, hrun, replay_end (by rw [hs.offset_eq]), Replay.finish, hs.not_in_txn]
  exact hs.result_eq

theorem append (h : Settled log result) {t : Txn} (ht : t.Valid) :
    Settled (log ++ t.bytes log) (result.publish t) := by
  intro rest
  obtain ⟨s, hs, hrun⟩ := h (t.bytes log ++ rest)
  obtain ⟨s', hs', hrun'⟩ := replay_intact ht log rest hs
  rw [List.append_assoc]
  exact ⟨s', hs', hrun.trans hrun'⟩

theorem torn (h : Settled log result) {t : Txn} (ht : t.Valid) {n : Nat} (hpos : 0 < n)
    (hn : n < (t.bytes log).length) : Reports (recoverLog (log ++ (t.bytes log).take n)) result := by
  obtain ⟨s, hs, hrun⟩ := h ((t.bytes log).take n)
  rw [Forge.recoverLog_eq, hrun]
  exact replay_torn ht log hpos hn hs

end Settled

/-! ## Logs with cut padding -/

theorem published_eq (commits : List LogTurn) :
    published commits = 96 * commits.length + (encodeAll (commits.flatMap (·.state.staged))).length := by
  induction commits with
  | nil => rfl
  | cons commit commits ih =>
    rw [published, List.map_cons, List.sum_cons, ← published, ih, List.flatMap_cons, encodeAll_append,
      List.length_append, List.length_cons]
    omega

theorem recoverLog_behind_cut (hcut : CutPadding log) {rest : Bytes} (hrest : rest ≠ []) :
    ∃ commits : List LogTurn, published commits < rest.length ∧
      (recoverLog (log ++ rest)).committedRecords =
        (recoverLog log).committedRecords ++ commits.flatMap (·.state.staged) ∧
      (recoverLog (log ++ rest)).sequence =
        (commits.getLast?.map (·.record.newSequence)).getD (recoverLog log).sequence := by
  -- a byte at least of what was written is taken for the padding
  obtain ⟨hintact, hodd⟩ := hcut
  have hend := intact_end hintact
  have hpos := List.length_pos_of_ne_nil hrest
  have hrun := (logRun log).extend rfl hend.offset_eq rest
  generalize hs : { replay log {} with
    offset := min (log.length + padding log.length) (log ++ rest).length } = s at hrun
  have hoffset : log.length < s.offset ∧ s.offset ≤ (log ++ rest).length := by
    rw [← hs, List.length_append]
    dsimp only
    unfold padding
    omega
  have hresult : s.result = recoverLog log := by rw [← hs, ← hend.result_eq]
  have hheld : s.held = 0 := by
    rw [Replay.held, ← hs, hend.not_in_txn]
    rfl
  obtain ⟨turns, hbehind⟩ : ∃ turns, LogRun (log ++ rest) s turns (replay (log ++ rest) s) :=
    ⟨_, logRun_loop _ s le_rfl⟩
  obtain ⟨hspace, -⟩ := hbehind.space hoffset.2
  obtain ⟨hrecords, hsequence⟩ := hbehind.result
  obtain ⟨hfinish, hfinishSequence⟩ := finish_result (replay (log ++ rest) s)
  refine ⟨turns.filter (LogTurn.publishes (log ++ rest)), ?_, ?_, ?_⟩
  · rw [List.length_append] at hspace hoffset
    omega
  · rw [recoverLog_eq, hrun, hfinish, ← hresult]
    exact hrecords
  · rw [recoverLog_eq, hrun, hfinishSequence, ← hresult]
    exact hsequence

/-! ## Answers of the operating system -/

/-- The first rename fails, the target is removed and the second rename fails. -/
def ReplaceOutcomes.Loses (io : ReplaceOutcomes) : Prop :=
  io.createDirectories ∧ io.openTemp ∧ io.writeTemp = none ∧ ¬ io.firstRename ∧ io.removeTarget ∧
    ¬ io.secondRename

instance (io : ReplaceOutcomes) : Decidable io.Loses := inferInstanceAs (Decidable (_ ∧ _))

/-- All calls inside `append_file` succeed. -/
def AppendOutcomes.Succeed (io : AppendOutcomes) : Prop :=
  io.createDirectories ∧ io.openLog ∧ io.write = none

instance (io : AppendOutcomes) : Decidable io.Succeed := inferInstanceAs (Decidable (_ ∧ _))

namespace FileStateStore

/-! ## Cleaned logs -/

theorem settled_clean {bytes clean : Bytes} (h : cleanLogBytes bytes = .ok clean)
    (hcut : ¬ CutPadding bytes) : Settled clean (recoverLog clean) := by
  cases cleanLogBytes_ok h with
  | intact hintact => exact settled_of_intact hintact hcut
  | drops => exact @settled_logBytes [] (by simp)
  | merges _ hok => exact settled_logBytes (stamped_whole hok _ _ _).valid

theorem clean_eq_or_shorter {bytes clean : Bytes} (h : cleanLogBytes bytes = .ok clean) :
    clean = bytes ∨ clean.length < bytes.length := by
  -- a log with a diagnostic is longer than the records that are written again
  cases cleanLogBytes_ok h with
  | intact => exact .inl rfl
  | drops hdamaged =>
    refine .inr (List.length_pos_of_ne_nil fun hnil => hdamaged ?_)
    rw [hnil, recoverLog_nil]
  | merges hdamaged hok =>
    refine .inr ?_
    obtain ⟨-, hspace⟩ := (logRun bytes).space (Nat.zero_le _)
    have hless := hspace (by rwa [← recoverLog_eq])
    have hrecords := (recoverLog_result bytes).1
    rw [← acceptedCommits, published_eq, ← hrecords] at hless
    have hcommits : 0 < (acceptedCommits bytes).length := by
      refine List.length_pos_of_ne_nil fun hnone => hok.1 ?_
      rw [hrecords, hnone]
      rfl
    rw [logBytes, logBytes, List.append_nil, merged, length_bytes_stamped]
    have hheld : Replay.held {} = 0 := rfl
    omega

theorem clean_eq_of_length {bytes clean : Bytes} (h : cleanLogBytes bytes = .ok clean)
    (hlen : clean.length = bytes.length) : clean = bytes :=
  (clean_eq_or_shorter h).resolve_right (by omega)

theorem sansTxnId_clean {bytes clean : Bytes} (h : cleanLogBytes bytes = .ok clean) :
    (recoverLog clean).committedRecords.map sansTxnId =
      (recoverLog bytes).committedRecords.map sansTxnId := by
  have hjoined := joined_clean h {}
  exact (Prod.ext_iff.mp hjoined).2

/-! ## What an append does -/

theorem replaceFile_spec (io : ReplaceOutcomes) (file : StateFile) (bytes : Bytes) :
    replaceFile io file bytes = (.value (.ok ()), ⟨some bytes, none⟩) ∨
      (∀ value, (replaceFile io file bytes).1 ≠ .value (.ok value)) ∧
        ((replaceFile io file bytes).2.content = file.content ∨
          io.Loses ∧ (replaceFile io file bytes).2.content = none) := by
  rcases replaceOutcomes_cases io with h | h | h | h
  · exact .inl (replaceFile_of_publishes h file bytes)
  · obtain ⟨status, temp, hreplace⟩ := replaceFile_of_keeps h file bytes
    rw [hreplace]
    exact .inr ⟨by simp, .inl rfl⟩
  · obtain ⟨status, hreplace⟩ := replaceFile_of_removes h file bytes
    obtain ⟨hdirs, hopen, hwrite, hfirst, hremove, hsecond, -⟩ := h
    rw [hreplace]
    exact .inr ⟨by simp, .inr ⟨⟨hdirs, hopen, hwrite, hfirst, hremove, hsecond⟩, rfl⟩⟩
  · obtain ⟨hdirs, hopen, hwrite, hfirst, hremoval⟩ := h
    unfold replaceFile
    simp only [hdirs, hopen, hwrite, hfirst]
    by_cases hremove : io.removeTarget
    · obtain ⟨hsecond, htemp⟩ := hremoval.resolve_left (not_not_intro hremove)
      refine .inr ⟨by simp [hremove, hsecond, htemp], .inr ⟨⟨hdirs, hopen, hwrite, hfirst, hremove,
        hsecond⟩, by simp [hremove, hsecond, htemp]⟩⟩
    · exact .inr ⟨by simp [hremove], .inl (by simp [hremove])⟩

/-- The ways `append_transaction` can end, with the bytes it leaves in the log. -/
inductive Appends (log : Bytes) (io : AppendIo) (t : Txn) : Return Unit → Bytes → Prop
  | refuses {ending : Return Unit} (hending : ending ≠ .value (.ok ())) : Appends log io t ending log
  | loses {ending : Return Unit} (hending : ending ≠ .value (.ok ())) (hloses : io.compact.Loses) :
      Appends log io t ending []
  | compacts {ending : Return Unit} {clean : Bytes} (hending : ending ≠ .value (.ok ()))
      (hclean : cleanLogBytes log = .ok clean) : Appends log io t ending clean
  | tears {ending : Return Unit} {clean : Bytes} {n : Nat} (hending : ending ≠ .value (.ok ()))
      (hclean : cleanLogBytes log = .ok clean) (hplain : ∀ record ∈ t.records, ¬ record.Control)
      (hwrite : io.append.write = some n) :
      Appends log io t ending (clean ++ (t.bytes clean).take n)
  | writes {clean : Bytes} (hclean : cleanLogBytes log = .ok clean)
      (hplain : ∀ record ∈ t.records, ¬ record.Control) (hio : io.append.Succeed) :
      Appends log io t (.value (.ok ())) (clean ++ t.bytes clean)

/-- `exists` does not take a file with something in it for a missing one. -/
def Sees (io : ReadOutcome) (file : StateFile) : Prop := io = .statFails → bytesOf file = []

instance (io : ReadOutcome) (file : StateFile) : Decidable (Sees io file) :=
  inferInstanceAs (Decidable (_ → _))

theorem readFile_ok {io : ReadOutcome} {file : StateFile} (hsees : Sees io file) {bytes : Bytes}
    (h : readFile io file = .value (.ok bytes)) : bytes = bytesOf file := by
  unfold readFile at h
  cases io with
  | statFails => rw [hsees rfl, ← Except.ok.inj (Return.value.inj h)]
  | success =>
    unfold bytesOf
    cases hcontent : file.content <;> rw [hcontent] at h <;>
      exact (Except.ok.inj (Return.value.inj h)).symm
  | openFails =>
    unfold bytesOf
    cases hcontent : file.content <;> rw [hcontent] at h <;> cases h
    rfl
  | readFails =>
    unfold bytesOf
    cases hcontent : file.content <;> rw [hcontent] at h <;> cases h
    rfl

theorem appendFile_spec (io : AppendOutcomes) (file : StateFile) (bytes : Bytes) :
    (io.Succeed ∧ (appendFile io file bytes).1 = .ok () ∧
        bytesOf (appendFile io file bytes).2 = bytesOf file ++ bytes) ∨
      (appendFile io file bytes).1 ≠ .ok () ∧
        (bytesOf (appendFile io file bytes).2 = bytesOf file ∨
          ∃ n, io.write = some n ∧
            bytesOf (appendFile io file bytes).2 = bytesOf file ++ bytes.take n) := by
  unfold appendFile
  by_cases hdirs : io.createDirectories
  · by_cases hopen : io.openLog
    · simp only [hdirs, hopen]
      cases hwrite : io.write with
      | none => exact .inl ⟨⟨hdirs, hopen, hwrite⟩, rfl, rfl⟩
      | some n => exact .inr ⟨by simp, .inr ⟨n, rfl, rfl⟩⟩
    · simp [hdirs, hopen]
  · simp [hdirs]

theorem appendTransaction_checkpointFile (store : FileStateStore) (io : AppendIo)
    (txnId baseSequence newSequence : UInt64) (records : List StateRecord) :
    (store.appendTransaction io txnId baseSequence newSequence records).2.checkpointFile =
      store.checkpointFile := by
  unfold appendTransaction
  split
  · rfl
  · rfl
  · split
    · rfl
    · dsimp only
      split
      · split
        · rfl
        · rfl
      · rfl

theorem drop_written {clean : Bytes} {txnId baseSequence newSequence : UInt64} {records : List StateRecord}
    {written : AppendLog}
    (hwritten : writeTransaction ⟨clean⟩ txnId baseSequence newSequence records = .ok written) :
    written.bytes.drop clean.length = (stamped txnId baseSequence newSequence records).bytes clean := by
  rw [writeTransaction_eq (writeTransaction_noControl hwritten)] at hwritten
  obtain rfl := Except.ok.inj hwritten
  rw [Txn.write_bytes, List.drop_left]

theorem appends_written {log clean : Bytes} {io : AppendIo} {txnId baseSequence newSequence : UInt64}
    {records : List StateRecord} {written : AppendLog} (hclean : cleanLogBytes log = .ok clean)
    (hwritten : writeTransaction ⟨clean⟩ txnId baseSequence newSequence records = .ok written)
    {file : StateFile} (hfile : bytesOf file = clean) :
    Appends log io (stamped txnId baseSequence newSequence records)
      (.value (appendFile io.append file (written.bytes.drop clean.length)).1)
      (bytesOf (appendFile io.append file (written.bytes.drop clean.length)).2) := by
  have hstamped := (@stamped_plain_iff txnId baseSequence newSequence records).mpr
    (writeTransaction_noControl hwritten)
  rw [drop_written hwritten]
  rcases appendFile_spec io.append file ((stamped txnId baseSequence newSequence records).bytes clean) with
    ⟨hio, hends, hbytes⟩ | ⟨hfails, hbytes | ⟨n, hwrite, hbytes⟩⟩
  · rw [hends, hbytes, hfile]
    exact .writes hclean hstamped hio
  · rw [hbytes, hfile]
    exact .compacts (by simpa using hfails) hclean
  · rw [hbytes, hfile]
    exact .tears (by simpa using hfails) hclean hstamped hwrite

theorem appends_unreplaced {io : AppendIo} (t : Txn) {file file' : StateFile} {ending : Return Unit}
    (hends : ending ≠ .value (.ok ()))
    (hkept : file'.content = file.content ∨ io.compact.Loses ∧ file'.content = none) :
    Appends (bytesOf file) io t ending (bytesOf file') := by
  unfold bytesOf
  rcases hkept with hkept | ⟨hloses, hlost⟩
  · rw [hkept]
    exact .refuses hends
  · rw [hlost]
    exact .loses hends hloses

/-- **What an append does to the log**, whatever it holds and whatever the operating system answers. -/
theorem appendTransaction_appends {store : FileStateStore} {io : AppendIo}
    (hsees : Sees io.read store.logFile)
    (txnId baseSequence newSequence : UInt64) (records : List StateRecord) :
    Appends (bytesOf store.logFile) io (stamped txnId baseSequence newSequence records)
      (store.appendTransaction io txnId baseSequence newSequence records).1
      (bytesOf (store.appendTransaction io txnId baseSequence newSequence records).2.logFile) := by
  unfold appendTransaction
  rcases hexisting : readFile io.read store.logFile with (status | existing) | _
  · exact .refuses (by simp)
  · obtain rfl := readFile_ok hsees hexisting
    simp only
    cases hclean : cleanLogBytes (bytesOf store.logFile) with
    | error status => exact .refuses (by simp)
    | ok clean =>
      simp only
      by_cases hsize : clean.length ≠ (bytesOf store.logFile).length
      · rw [if_pos hsize]
        rcases replaceFile_spec io.compact store.logFile clean with h | ⟨hends, hkept⟩
        · rw [h]
          simp only
          cases hwritten : writeTransaction ⟨clean⟩ txnId baseSequence newSequence records with
          | error status => exact .compacts (by simp) hclean
          | ok written => exact appends_written hclean hwritten rfl
        · generalize replaceFile io.compact store.logFile clean = replaced at hends hkept
          obtain ⟨ending, file⟩ := replaced
          have hstops := appends_unreplaced (stamped txnId baseSequence newSequence records) (hends ()) hkept
          rcases ending with (status | _) | _
          · exact hstops
          · exact absurd rfl (hends ())
          · exact hstops
      · rw [if_neg hsize]
        have hsame := clean_eq_of_length hclean (not_not.mp hsize)
        simp only
        cases hwritten : writeTransaction ⟨clean⟩ txnId baseSequence newSequence records with
        | error status =>
          rw [← hsame] at hclean ⊢
          exact .compacts (by simp) hclean
        | ok written => exact appends_written hclean hwritten hsame.symm
  · exact .refuses (by simp)

/-- **The sizes tell whether compaction changed the log.** What `clean_log_bytes` returns is the log
itself or shorter. So an append either writes nothing of its transaction, or the digest of the
transaction is over the log as it was read or over what it has just been replaced with: over the bytes of
the file it is written to, if those were read. -/
theorem sizes_tell_compaction {bytes clean : Bytes} (h : cleanLogBytes bytes = .ok clean) :
    (clean.length = bytes.length → clean = bytes) ∧
    (clean.length ≠ bytes.length → clean.length < bytes.length) ∧
    ∀ (store : FileStateStore) (io : AppendIo) (txnId baseSequence newSequence : UInt64)
      (records : List StateRecord), readFile io.read store.logFile = .value (.ok bytes) →
      let run := store.appendTransaction io txnId baseSequence newSequence records
      let tail := (stamped txnId baseSequence newSequence records).bytes clean
      run.1 ≠ .value (.ok ()) ∧ (run.2.logFile = store.logFile ∨
          run.2.logFile = (replaceFile io.compact store.logFile clean).2) ∨
        ∃ file, (file = store.logFile ∧ clean = bytes ∨ file.content = some clean) ∧
          (bytesOf store.logFile = bytes → bytesOf file = clean) ∧
          run.1 = .value (appendFile io.append file tail).1 ∧
          run.2.logFile = (appendFile io.append file tail).2 := by
  refine ⟨clean_eq_of_length h, fun hlen => (clean_eq_or_shorter h).resolve_left fun hsame =>
    hlen (congrArg List.length hsame), ?_⟩
  intro store io txnId baseSequence newSequence records hread run tail
  simp only [run, tail, appendTransaction, hread, h]
  -- the last write, to a file that holds the clean bytes if the log was read as it is
  have hwrites : ∀ file, (file = store.logFile ∧ clean = bytes ∨ file.content = some clean) →
      (bytesOf store.logFile = bytes → bytesOf file = clean) := by
    rintro file (⟨rfl, rfl⟩ | hcontent) hbytes
    · exact hbytes
    · rw [bytesOf, hcontent]
      rfl
  by_cases hsize : clean.length = bytes.length
  · rw [if_neg (not_not_intro hsize)]
    have hfile : store.logFile = store.logFile ∧ clean = bytes ∨ store.logFile.content = some clean :=
      .inl ⟨rfl, clean_eq_of_length h hsize⟩
    cases hwritten : writeTransaction ⟨clean⟩ txnId baseSequence newSequence records with
    | error status => exact .inl ⟨by simp, .inl rfl⟩
    | ok written =>
      rw [← drop_written hwritten]
      exact .inr ⟨store.logFile, hfile, hwrites _ hfile, rfl, rfl⟩
  · rw [if_pos hsize]
    rcases replaceFile_spec io.compact store.logFile clean with hreplaced | ⟨hends, _⟩
    · rw [hreplaced]
      have hfile : (⟨some clean, none⟩ : StateFile) = store.logFile ∧ clean = bytes ∨
          (⟨some clean, none⟩ : StateFile).content = some clean := .inr rfl
      cases hwritten : writeTransaction ⟨clean⟩ txnId baseSequence newSequence records with
      | error status => exact .inl ⟨by simp, .inr rfl⟩
      | ok written =>
        rw [← drop_written hwritten]
        exact .inr ⟨_, hfile, hwrites _ hfile, rfl, rfl⟩
    · generalize replaceFile io.compact store.logFile clean = replaced at hends
      obtain ⟨ending, file⟩ := replaced
      rcases ending with (status | _) | _
      · exact .inl ⟨by simp, .inr rfl⟩
      · exact absurd rfl (hends ())
      · exact .inl ⟨by simp, .inr rfl⟩

/-- A log with a part of a record behind its transaction, and an append to it. -/
theorem sizes_tell_compaction_torn :
    let bytes := logBytes [] [stamped 1 0 2 [⟨.graphDelta, 1, 0, 2, [1]⟩]] ++ [48, 0, 0]
    let clean := logBytes [] [stamped kCompactionTxnId 0 2 [⟨.graphDelta, 1, 0, 2, [1]⟩]]
    let run := appendTransaction ⟨⟨some bytes, none⟩, {}⟩ {} 3 2 4 [⟨.graphDelta, 1, 0, 4, [2]⟩]
    cleanLogBytes bytes = .ok clean ∧ clean.length < bytes.length ∧
      ∃ file, bytesOf file = clean ∧ run.2.logFile = (appendFile {} file
        ((stamped 3 2 4 [⟨.graphDelta, 1, 0, 4, [2]⟩]).bytes clean)).2 := by
  intro bytes clean run
  have hclean : cleanLogBytes bytes = .ok clean := by decide +kernel
  have hlen : clean.length ≠ bytes.length := by decide +kernel
  refine ⟨hclean, (sizes_tell_compaction hclean).2.1 hlen, ?_⟩
  rcases (sizes_tell_compaction hclean).2.2 ⟨⟨some bytes, none⟩, {}⟩ {} 3 2 4
    [⟨.graphDelta, 1, 0, 4, [2]⟩] rfl with ⟨hends, _⟩ | ⟨file, _, hbytes, _, hfile⟩
  · exact absurd (by decide +kernel) hends
  · exact ⟨file, hbytes rfl, hfile⟩

theorem appendTransaction_intact {store : FileStateStore} {io : AppendIo} (hread : io.read = .success)
    (hio : io.append.Succeed) (hintact : (recoverLog (bytesOf store.logFile)).diagnostics = [])
    {records : List StateRecord} (hplain : ∀ record ∈ records, ¬ record.Control)
    (txnId baseSequence newSequence : UInt64) :
    let run := store.appendTransaction io txnId baseSequence newSequence records
    run.1 = .value (.ok ()) ∧
      bytesOf run.2.logFile = bytesOf store.logFile ++
        (stamped txnId baseSequence newSequence records).bytes (bytesOf store.logFile) := by
  obtain ⟨hdirs, hopen, hwrite⟩ := hio
  simp only [appendTransaction, hread, readFile_success, cleanLogBytes_of_intact hintact, ne_eq,
    not_true_eq_false, if_false, writeTransaction_eq hplain, Txn.write_bytes, List.drop_left]
  simp [appendFile, hdirs, hopen, hwrite, bytesOf]

theorem read_of_append_ok {store : FileStateStore} {io : AppendIo} {txnId baseSequence newSequence : UInt64}
    {records : List StateRecord} (hsees : Sees io.read store.logFile) (hheld : bytesOf store.logFile ≠ [])
    (hends : (store.appendTransaction io txnId baseSequence newSequence records).1 = .value (.ok ())) :
    io.read = .success := by
  obtain ⟨bytes, hcontent⟩ : ∃ bytes, store.logFile.content = some bytes := by
    refine Option.ne_none_iff_exists'.mp fun hnone => hheld ?_
    rw [bytesOf, hnone]
    rfl
  unfold appendTransaction readFile at hends
  cases hio : io.read with
  | success => rfl
  | statFails => exact absurd (hsees hio) hheld
  | openFails =>
    rw [hio, hcontent] at hends
    cases hends
  | readFails =>
    rw [hio, hcontent] at hends
    cases hends

/-! ## Acknowledged appends -/

/-- Of a log that replayed to `found` and now replays to `now`: the records are as before, up to
transaction ids, and behind them are those of the transaction, whose sequence is the last one. -/
structure Replays (found now : RecoveryResult) (t : Txn) : Prop where
  records : ∃ kept, now.committedRecords = kept ++ t.records ∧
    kept.map sansTxnId = found.committedRecords.map sansTxnId
  sequence : now.sequence = t.newSequence

/-- If the append returns ok, its transaction is found in the log. -/
def AppendRecoverable (store : FileStateStore) (io : AppendIo) (txnId baseSequence newSequence : UInt64)
    (records : List StateRecord) : Prop :=
  (store.appendTransaction io txnId baseSequence newSequence records).1 = .value (.ok ()) →
    Replays (recoverLog (bytesOf store.logFile))
      (recoverLog
        (bytesOf (store.appendTransaction io txnId baseSequence newSequence records).2.logFile))
      (stamped txnId baseSequence newSequence records)

theorem replays_written {log clean : Bytes} (hclean : cleanLogBytes log = .ok clean) (hcut : ¬ CutPadding log)
    {t : Txn} (ht : t.Valid) : Replays (recoverLog log) (recoverLog (clean ++ t.bytes clean)) t := by
  rw [((settled_clean hclean hcut).append ht).recoverLog_eq]
  exact ⟨⟨_, rfl, sansTxnId_clean hclean⟩, rfl⟩

theorem replays_behind_cut_iff {log : Bytes} (hcut : CutPadding log)
    (txnId baseSequence newSequence : UInt64) (records : List StateRecord) :
    let t := stamped txnId baseSequence newSequence records
    Replays (recoverLog log) (recoverLog (log ++ t.bytes log)) t ↔
      records = [] ∧ (recoverLog log).sequence = newSequence := by
  -- there is no room behind the cut padding for a transaction that changes anything
  intro t
  have hlength : (t.bytes log).length = 96 + (encodeAll records).length :=
    length_bytes_stamped txnId baseSequence newSequence records log
  obtain ⟨commits, hspace, hfound, hsequence⟩ :=
    @recoverLog_behind_cut log hcut (t.bytes log) (List.ne_nil_of_length_pos (by omega))
  rw [published_eq] at hspace
  constructor
  · rintro ⟨⟨kept, hkept, hsame⟩, hnew⟩
    have hlen := congrArg List.length hsame
    simp only [List.length_map] at hlen
    obtain ⟨-, hstaged⟩ := List.append_inj (hfound.symm.trans hkept) hlen.symm
    rw [hlength] at hspace
    rw [Txn.length_bytes, ← hstaged] at hlength
    have hnone : commits = [] := List.eq_nil_of_length_eq_zero (by omega)
    rw [hnone] at hstaged hsequence
    exact ⟨List.map_eq_nil_iff.mp hstaged.symm, hsequence.symm.trans hnew⟩
  · rintro ⟨rfl, hsame⟩
    have hnone : commits = [] :=
      List.eq_nil_of_length_eq_zero (by rw [encodeAll_nil, List.length_nil] at hlength; omega)
    rw [hnone] at hfound hsequence
    exact ⟨⟨_, hfound, rfl⟩, hsequence.trans hsame⟩

/-- **When an acknowledged append is recoverable**, whatever the log held: unless it went behind cut
padding and was more than an empty transaction of the sequence that was there. -/
theorem append_recoverable_iff {store : FileStateStore} {io : AppendIo}
    (hsees : Sees io.read store.logFile)
    {records : List StateRecord} (hrecords : ∀ record ∈ records, ¬ record.Control ∧ Fits record)
    (txnId baseSequence newSequence : UInt64) :
    AppendRecoverable store io txnId baseSequence newSequence records ↔
      ¬ (io.read = .success ∧ io.append.Succeed ∧ CutPadding (bytesOf store.logFile) ∧
        ¬ (records = [] ∧ (recoverLog (bytesOf store.logFile)).sequence = newSequence)) := by
  unfold AppendRecoverable
  constructor
  · rintro hreplays ⟨hsuccess, hio, hcut, hmore⟩
    obtain ⟨hends, hbytes⟩ := appendTransaction_intact hsuccess hio hcut.1
      (fun record hrecord => (hrecords record hrecord).1) txnId baseSequence newSequence
    have hfound := hreplays hends
    rw [hbytes] at hfound
    exact hmore ((replays_behind_cut_iff hcut _ _ _ _).mp hfound)
  · intro hnot hends
    have happends := appendTransaction_appends hsees txnId baseSequence newSequence records
    generalize hafter : bytesOf
      (store.appendTransaction io txnId baseSequence newSequence records).2.logFile = after at happends ⊢
    rw [hends] at happends
    cases happends with
    | refuses hending => exact absurd rfl hending
    | loses hending => exact absurd rfl hending
    | compacts hending => exact absurd rfl hending
    | tears hending => exact absurd rfl hending
    | @writes clean hclean hplain hio =>
      by_cases hcut : CutPadding (bytesOf store.logFile)
      · have hheld : bytesOf store.logFile ≠ [] := fun hnil => hcut.2 (by rw [hnil]; rfl)
        have hempty := not_not.mp fun hmore =>
          hnot ⟨read_of_append_ok hsees hheld hends, hio, hcut, hmore⟩
        have hsame : clean = bytesOf store.logFile := by
          rw [cleanLogBytes_of_intact hcut.1] at hclean
          exact (Except.ok.inj hclean).symm
        rw [hsame]
        exact (replays_behind_cut_iff hcut _ _ _ _).mpr hempty
      · exact replays_written hclean hcut (stamped_valid_iff.mpr hrecords)

/-- A transaction behind a record that belongs to none and is cut in its padding. -/
theorem append_recoverable_iff_stray :
    AppendRecoverable
        ⟨⟨some ((encode ⟨.graphDelta, 1, 0, 0, [7]⟩).take 41), none⟩, {}⟩ {} 1 0 2
        [⟨.jobDelta, 1, 0, 2, [1]⟩] ↔
      ¬ (({} : AppendIo).read = .success ∧ ({} : AppendIo).append.Succeed ∧
        CutPadding ((encode ⟨.graphDelta, 1, 0, 0, [7]⟩).take 41) ∧
        ¬ ([(⟨.jobDelta, 1, 0, 2, [1]⟩ : StateRecord)] = [] ∧
          (recoverLog ((encode ⟨.graphDelta, 1, 0, 0, [7]⟩).take 41)).sequence = 2)) :=
  append_recoverable_iff (by decide) (by decide) 1 0 2

/-- The same transaction is acknowledged and lost. -/
theorem append_behind_stray_lost :
    let store : FileStateStore := ⟨⟨some ((encode ⟨.graphDelta, 1, 0, 0, [7]⟩).take 41), none⟩, {}⟩
    let run := store.appendTransaction {} 1 0 2 [⟨.jobDelta, 1, 0, 2, [1]⟩]
    run.1 = .value (.ok ()) ∧ (recoverLog (bytesOf run.2.logFile)).committedRecords = [] ∧
      ¬ AppendRecoverable store {} 1 0 2 [⟨.jobDelta, 1, 0, 2, [1]⟩] := by
  intro store run
  have hlost : (recoverLog (bytesOf run.2.logFile)).committedRecords = [] := by decide +kernel
  have hends : run.1 = .value (.ok ()) := by decide +kernel
  refine ⟨hends, hlost, fun hfound => ?_⟩
  obtain ⟨⟨kept, hkept, -⟩, -⟩ := hfound hends
  exact absurd (hlost.symm.trans hkept) (by simp [stamped])

end FileStateStore

end Forge
