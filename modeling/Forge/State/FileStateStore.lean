import Forge.State.Transactions

/-!
# The file state store

`FileStateStore` of `file_state_store.cpp`: a directory with `state.log` and `checkpoint.fst`. Each
operating-system call the store makes can fail, so the operations take the answers to these calls as
an argument, `{}` being the answers when nothing fails. `std::filesystem::remove` is used in its
throwing form, so a call may also end with an exception (`Return.threw`).
-/

namespace Forge

/-! ## Files -/

/-- A file of the directory and its temporary sibling; `none` is a missing file. -/
structure StateFile where
  content : Option Bytes := none
  temp : Option Bytes := none
deriving DecidableEq, Repr

/-- The files under `root_`. -/
structure FileStateStore where
  logFile : StateFile := {}
  checkpointFile : StateFile := {}
deriving DecidableEq, Repr

inductive ReadOutcome
  | success | statFails | openFails | readFails
deriving DecidableEq, Repr

/-- Answers to the calls inside `replace_file`; `writeTemp` is the number of bytes that reached the
temporary file when writing or flushing fails. -/
structure ReplaceOutcomes where
  createDirectories : Bool := true
  openTemp : Bool := true
  writeTemp : Option Nat := none
  firstRename : Bool := true
  removeTarget : Bool := true
  secondRename : Bool := true
  removeTemp : Bool := true
deriving DecidableEq, Repr

/-- Answers to the calls inside `append_file`; `write` is the number of bytes that reached the file
when writing or flushing fails. -/
structure AppendOutcomes where
  createDirectories : Bool := true
  openLog : Bool := true
  write : Option Nat := none
deriving DecidableEq, Repr

namespace FileStateStore

def storeError (message : Str) : Status := Status.error .io "file-state-store" message

/-- The bytes of a file, none for a missing one. -/
def bytesOf (file : StateFile) : Bytes := file.content.getD []

def readFile (io : ReadOutcome) (file : StateFile) : Return Bytes :=
  match io, file.content with
  -- `exists` is false when it fails, so its error is never reported
  | .statFails, _ => .value (.ok [])
  | _, none => .value (.ok [])
  | .success, some bytes => .value (.ok bytes)
  | .openFails, some _ => .value (.error (storeError "unable to open state file"))
  -- the buffer throws under its iterator, so `bad` is never asked
  | .readFails, some _ => .threw

def replaceFile (io : ReplaceOutcomes) (file : StateFile) (bytes : Bytes) : Return Unit × StateFile :=
  if !io.createDirectories then
    (.value (.error (storeError "unable to create state directory")), file)
  else if !io.openTemp then
    (.value (.error (storeError "unable to open temporary state file")), file)
  else
    match io.writeTemp with
    | some n =>
      (.value (.error (storeError "unable to write temporary state file")),
        { file with temp := some (bytes.take n) })
    | none =>
      if io.firstRename then (.value (.ok ()), ⟨some bytes, none⟩)
      else if !io.removeTarget then (.threw, { file with temp := some bytes })
      else if io.secondRename then (.value (.ok ()), ⟨some bytes, none⟩)
      else if !io.removeTemp then (.threw, ⟨none, some bytes⟩)
      else (.value (.error (storeError "unable to publish state file")), ⟨none, none⟩)

def appendFile (io : AppendOutcomes) (file : StateFile) (bytes : Bytes) : Result Unit × StateFile :=
  if !io.createDirectories then
    (.error (storeError "unable to create state directory"), file)
  else if !io.openLog then
    (.error (storeError "unable to open append log"), file)
  else
    match io.write with
    | some n =>
      (.error (storeError "unable to append state transaction"),
        { file with content := some (bytesOf file ++ bytes.take n) })
    | none => (.ok (), { file with content := some (bytesOf file ++ bytes) })

/-! ## Operations -/

def kCompactionTxnId : UInt64 := 0xC0FFEE

/-- The loop over the records of `encode_transaction` and `append_transaction`. -/
def appendRecords (txnId : UInt64) : List StateRecord → AppendLog → Result AppendLog
  | [], log => .ok log
  | record :: records, log =>
    if record.Control then
      .error (Status.error .stateRecovery "file-state-store" "transaction control records are reserved")
    else appendRecords txnId records (log.append { record with txnId })

/-- Begin, records and commit behind `log`, the part `encode_transaction` and `append_transaction`
share. -/
def writeTransaction (log : AppendLog) (txnId baseSequence newSequence : UInt64)
    (records : List StateRecord) : Result AppendLog := do
  let log ← appendRecords txnId records (log.begin txnId baseSequence (UInt64.ofNat records.length))
  return log.commit txnId newSequence

def encodeTransaction (txnId baseSequence newSequence : UInt64) (records : List StateRecord) :
    Result Bytes := do
  let log ← writeTransaction {} txnId baseSequence newSequence records
  return log.bytes

def cleanLogBytes (bytes : Bytes) : Result Bytes :=
  if bytes = [] then .ok []
  else
    let recovered := recoverLog bytes
    if recovered.diagnostics = [] then .ok bytes
    else if recovered.committedRecords = [] then .ok []
    else encodeTransaction kCompactionTxnId 0 recovered.sequence recovered.committedRecords

/-- Answers to the calls inside `append_transaction`. -/
structure AppendIo where
  read : ReadOutcome := .success
  compact : ReplaceOutcomes := {}
  append : AppendOutcomes := {}
deriving DecidableEq, Repr

def appendTransaction (store : FileStateStore) (io : AppendIo) (txnId baseSequence newSequence : UInt64)
    (records : List StateRecord) : Return Unit × FileStateStore :=
  match readFile io.read store.logFile with
  | .threw => (.threw, store)
  | .value (.error status) => (.value (.error status), store)
  | .value (.ok existing) =>
    match cleanLogBytes existing with
    | .error status => (.value (.error status), store)
    | .ok clean =>
      let (replaced, log) :=
        if clean.length ≠ existing.length then replaceFile io.compact store.logFile clean
        else (.value (.ok ()), store.logFile)
      match replaced with
      | .value (.ok ()) =>
        match writeTransaction ⟨clean⟩ txnId baseSequence newSequence records with
        | .error status => (.value (.error status), { store with logFile := log })
        | .ok written =>
          let (appended, log) := appendFile io.append log (written.bytes.drop clean.length)
          (.value appended, { store with logFile := log })
      | failed => (failed, { store with logFile := log })

/-- Answers to the calls inside `checkpoint`. -/
structure CheckpointIo where
  publish : ReplaceOutcomes := {}
  rotate : ReplaceOutcomes := {}
deriving DecidableEq, Repr

/-- The record `checkpoint` writes. -/
def checkpointRecord (payload : Bytes) : StateRecord := ⟨.checkpoint, 0, 0, 0, payload⟩

def checkpointBytes (sequence : UInt64) (payload : Bytes) : Result Bytes :=
  encodeTransaction kCompactionTxnId 0 sequence [checkpointRecord payload]

def checkpoint (store : FileStateStore) (io : CheckpointIo) (sequence : UInt64) (payload : Bytes) :
    Return Unit × FileStateStore :=
  match checkpointBytes sequence payload with
  | .error status => (.value (.error status), store)
  | .ok encoded =>
    let (published, checkpoint) := replaceFile io.publish store.checkpointFile encoded
    match published with
    | .value (.ok ()) =>
      let (rotated, log) := replaceFile io.rotate store.logFile []
      (rotated, ⟨log, checkpoint⟩)
    | failed => (failed, { store with checkpointFile := checkpoint })

/-- Answers to the calls inside `recover`. -/
structure RecoverIo where
  checkpoint : ReadOutcome := .success
  log : ReadOutcome := .success
deriving DecidableEq, Repr

def recover (store : FileStateStore) (io : RecoverIo) : Return RecoveryResult :=
  match readFile io.checkpoint store.checkpointFile with
  | .threw => .threw
  | .value (.error status) => .value (.error status)
  | .value (.ok checkpointBytes) =>
    let result : RecoveryResult :=
      if checkpointBytes = [] then {}
      else
        let checkpoint := recoverLog checkpointBytes
        ⟨checkpoint.sequence, checkpoint.committedRecords, checkpoint.diagnostics⟩
    match readFile io.log store.logFile with
    | .threw => .threw
    | .value (.error status) => .value (.error status)
    | .value (.ok logBytes) =>
      if logBytes = [] then .value (.ok result)
      else
        let log := recoverLog logBytes
        .value (.ok {
          sequence := if log.committedRecords = [] then result.sequence else log.sequence
          committedRecords := result.committedRecords ++ log.committedRecords
          diagnostics := result.diagnostics ++ log.diagnostics })

/-! ## When no call fails -/

@[simp] theorem readFile_success (file : StateFile) :
    readFile .success file = .value (.ok (bytesOf file)) := by
  unfold readFile bytesOf
  cases file.content <;> rfl

@[simp] theorem replaceFile_success (file : StateFile) (bytes : Bytes) :
    replaceFile {} file bytes = (.value (.ok ()), ⟨some bytes, none⟩) := rfl

/-- The transaction that `encode_transaction` and `append_transaction` write: the records get its
id. -/
def stamped (txnId baseSequence newSequence : UInt64) (records : List StateRecord) : Txn :=
  ⟨txnId, baseSequence, newSequence, records.map fun record => { record with txnId }⟩

theorem length_bytes_stamped (txnId baseSequence newSequence : UInt64) (records : List StateRecord)
    (pre : Bytes) :
    ((stamped txnId baseSequence newSequence records).bytes pre).length =
      96 + (encodeAll records).length := by
  have hstamp : (encodeAll (records.map fun record => { record with txnId })).length =
      (encodeAll records).length := by
    induction records with
    | nil => rfl
    | cons record records ih => simp [ih, StateCodec.length_encode]
  rw [Txn.length_bytes, stamped, hstamp]

theorem stamped_plain_iff {txnId baseSequence newSequence : UInt64} {records : List StateRecord} :
    (∀ record ∈ (stamped txnId baseSequence newSequence records).records, ¬ record.Control) ↔
      ∀ record ∈ records, ¬ record.Control :=
  List.forall_mem_map

theorem stamped_valid_iff {txnId baseSequence newSequence : UInt64} {records : List StateRecord} :
    (stamped txnId baseSequence newSequence records).Valid ↔
      ∀ record ∈ records, ¬ record.Control ∧ StateCodec.Fits record :=
  List.forall_mem_map

theorem appendRecords_eq {txnId : UInt64} {records : List StateRecord}
    (hrecords : ∀ r ∈ records, ¬ r.Control) (log : AppendLog) :
    appendRecords txnId records log =
      .ok ((records.map fun record => { record with txnId }).foldl AppendLog.append log) := by
  induction records generalizing log with
  | nil => rfl
  | cons record records ih =>
    rw [appendRecords, if_neg (hrecords record (by simp)), ih fun r hr => hrecords r (by simp [hr])]
    rfl

theorem writeTransaction_eq {records : List StateRecord} (hrecords : ∀ r ∈ records, ¬ r.Control)
    (log : AppendLog) (txnId baseSequence newSequence : UInt64) :
    writeTransaction log txnId baseSequence newSequence records =
      .ok ((stamped txnId baseSequence newSequence records).write log) := by
  simp only [writeTransaction, appendRecords_eq hrecords, Txn.write, stamped, List.length_map, bind,
    Except.bind, pure, Except.pure]

theorem write_empty_bytes (t : Txn) : (t.write {}).bytes = logBytes [] [t] := by
  rw [Txn.write_bytes, logBytes, logBytes, List.append_nil]
  exact List.nil_append _

theorem encodeTransaction_eq {records : List StateRecord} (hrecords : ∀ r ∈ records, ¬ r.Control)
    (txnId baseSequence newSequence : UInt64) :
    encodeTransaction txnId baseSequence newSequence records =
      .ok (logBytes [] [stamped txnId baseSequence newSequence records]) := by
  rw [encodeTransaction, writeTransaction_eq hrecords, ← write_empty_bytes]
  rfl

theorem checkpointBytes_eq (sequence : UInt64) (payload : Bytes) :
    checkpointBytes sequence payload =
      .ok (logBytes [] [stamped kCompactionTxnId 0 sequence [checkpointRecord payload]]) :=
  encodeTransaction_eq (by simp [checkpointRecord, StateRecord.Control]; decide) _ _ _

/-- `append_transaction` up to the answer to its last write, `none` when that succeeds. The file ends
as the clean log and what was written of the transaction behind it. -/
theorem appendTransaction_files {store : FileStateStore} {clean : Bytes}
    (hclean : cleanLogBytes (bytesOf store.logFile) = .ok clean)
    (hsize : clean.length = (bytesOf store.logFile).length → clean = bytesOf store.logFile)
    {records : List StateRecord} (hrecords : ∀ r ∈ records, ¬ r.Control)
    (txnId baseSequence newSequence : UInt64) (write : Option Nat) :
    let t := stamped txnId baseSequence newSequence records
    let after := (appendTransaction store { append := { write } } txnId baseSequence newSequence
      records).2
    after.checkpointFile = store.checkpointFile ∧
      bytesOf after.logFile = clean ++ (t.bytes clean).take (write.getD (t.bytes clean).length) := by
  have htail (t : Txn) : ((t.write ⟨clean⟩).bytes).drop clean.length = t.bytes clean := by
    rw [Txn.write_bytes, List.drop_left]
  simp only [appendTransaction, readFile_success, hclean, writeTransaction_eq hrecords, htail,
    replaceFile_success]
  by_cases hlen : clean.length = (bytesOf store.logFile).length
  · rw [if_neg (by simp [hlen]), hsize hlen]
    cases write <;> simp [appendFile, bytesOf]
  · rw [if_pos hlen]
    cases write <;> simp [appendFile, bytesOf]

theorem checkpoint_files (store : FileStateStore) (sequence : UInt64) (payload : Bytes) :
    checkpoint store {} sequence payload =
      (.value (.ok ()),
        ⟨⟨some [], none⟩,
          ⟨some (logBytes [] [stamped kCompactionTxnId 0 sequence [checkpointRecord payload]]), none⟩⟩) := by
  rw [checkpoint, checkpointBytes_eq]
  rfl

theorem recoverLog_nil : recoverLog [] = {} := rfl

theorem recover_eq (store : FileStateStore) :
    let saved := recoverLog (bytesOf store.checkpointFile)
    let log := recoverLog (bytesOf store.logFile)
    recover store {} = .value (.ok
      { sequence := if log.committedRecords = [] then saved.sequence else log.sequence
        committedRecords := saved.committedRecords ++ log.committedRecords
        diagnostics := saved.diagnostics ++ log.diagnostics }) := by
  have hsaved (bytes : Bytes) : (if bytes = [] then ({} : RecoveryResult)
      else ⟨(recoverLog bytes).sequence, (recoverLog bytes).committedRecords,
        (recoverLog bytes).diagnostics⟩) = recoverLog bytes := by
    split_ifs with h
    · rw [h, recoverLog_nil]
    · rfl
  simp only [recover, readFile_success, hsaved]
  by_cases h : bytesOf store.logFile = []
  · simp [h, recoverLog_nil]
  · rw [if_neg h]

end FileStateStore

end Forge
