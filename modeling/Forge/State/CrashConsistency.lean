import Forge.State.Damage
import Forge.State.FileStateStore

/-!
# Crash consistency of the file state store

What the store is for: a sequence number and a list of records that survive crashes (`Durable`).
`Represents` says which directories hold which durable state. A log in use is a list of whole
transactions followed by what is left of a torn one; the next append compacts the former and drops
the latter. Every step keeps the relation (`represents_step`), so every run does
(`recover_run`), and the last section is about crashes inside `checkpoint`.
-/

namespace Forge

namespace FileStateStore

/-! ## What the store is for -/

/-- What survives: a sequence number and the records it stands for. -/
structure Durable where
  sequence : UInt64 := 0
  records : List StateRecord := []
deriving DecidableEq, Repr

/-- The steps of a run on one directory. After a crash the process is started again, which reads and
writes nothing by itself. -/
inductive StoreStep
  /-- `append_transaction` -/
  | append (txnId baseSequence newSequence : UInt64) (records : List StateRecord)
  /-- a crash in `append_transaction` when `append_file` has written its first `written` bytes -/
  | crash (txnId baseSequence newSequence : UInt64) (records : List StateRecord) (written : Nat)
  /-- a crash before any file is changed -/
  | crashEarly
  /-- `checkpoint` -/
  | checkpoint (sequence : UInt64) (payload : Bytes)
deriving DecidableEq, Repr

namespace StoreStep

/-- The records of an append: at least one, no control record, and of encodable size. -/
def RecordsOk (records : List StateRecord) : Prop :=
  records ≠ [] ∧ ∀ record ∈ records, ¬ record.Control ∧ StateCodec.Fits record

instance (records : List StateRecord) : Decidable (RecordsOk records) :=
  inferInstanceAs (Decidable (_ ∧ _))

def Ok : StoreStep → Prop
  | append _ _ _ records => RecordsOk records
  | crash _ _ _ records _ => RecordsOk records
  | crashEarly => True
  | checkpoint _ payload => StateCodec.Fits (checkpointRecord payload)

instance : DecidablePred Ok
  | append _ _ _ records => inferInstanceAs (Decidable (RecordsOk records))
  | crash _ _ _ records _ => inferInstanceAs (Decidable (RecordsOk records))
  | crashEarly => inferInstanceAs (Decidable True)
  | checkpoint _ payload => inferInstanceAs (Decidable (StateCodec.Fits (checkpointRecord payload)))

/-- The files after a step. A crash leaves the bytes that a write failing at the same place
leaves. -/
def exec (store : FileStateStore) : StoreStep → FileStateStore
  | append txnId baseSequence newSequence records =>
    (store.appendTransaction {} txnId baseSequence newSequence records).2
  | crash txnId baseSequence newSequence records written =>
    (store.appendTransaction { append := { write := some written } } txnId baseSequence newSequence
      records).2
  | crashEarly => store
  | checkpoint sequence payload => (FileStateStore.checkpoint store {} sequence payload).2

/-- What a step means: a transaction counts when all its bytes are in the file. -/
def effect (durable : Durable) : StoreStep → Durable
  | append _ _ newSequence records => ⟨newSequence, durable.records ++ records⟩
  | crash txnId baseSequence newSequence records written =>
    if ((stamped txnId baseSequence newSequence records).write {}).bytes.length ≤ written then
      ⟨newSequence, durable.records ++ records⟩
    else durable
  | crashEarly => durable
  | checkpoint sequence payload => ⟨sequence, [checkpointRecord payload]⟩

end StoreStep

/-- A record without its transaction id, which compaction rewrites. -/
def sansTxnId (record : StateRecord) : StateRecord := { record with txnId := 0 }

theorem map_sansTxnId_stamp (txnId : UInt64) (records : List StateRecord) :
    (records.map fun record => { record with txnId }).map sansTxnId = records.map sansTxnId := by
  rw [List.map_map]
  rfl

/-! ## Logs in use -/

/-- What a crash left of a transaction behind the log `pre`. -/
def TornTail (pre torn : Bytes) : Prop :=
  ∃ (t : Txn) (n : Nat), t.Valid ∧ 0 < n ∧ n < (t.bytes pre).length ∧ torn = (t.bytes pre).take n

/-- The transactions in a file of the store. -/
def Whole (ts : List Txn) : Prop := ∀ t ∈ ts, t.Valid ∧ t.records ≠ []

/-- `log` is the whole transactions `ts` and possibly a torn one. -/
structure LogOf (log : Bytes) (ts : List Txn) : Prop where
  whole : Whole ts
  bytes : log = logBytes [] ts ∨ ∃ torn, TornTail (logBytes [] ts) torn ∧ log = logBytes [] ts ++ torn

theorem whole_nil : Whole [] := by simp [Whole]

theorem whole_append {ts us : List Txn} : Whole (ts ++ us) ↔ Whole ts ∧ Whole us := by
  simp only [Whole, List.mem_append]
  exact ⟨fun h => ⟨fun t ht => h t (.inl ht), fun t ht => h t (.inr ht)⟩,
    fun h t ht => ht.elim (h.1 t) (h.2 t)⟩

theorem Whole.valid {ts : List Txn} (h : Whole ts) : ∀ t ∈ ts, t.Valid := fun t ht => (h t ht).1

theorem Whole.flatMap_eq_nil {ts : List Txn} (h : Whole ts) : ts.flatMap Txn.records = [] ↔ ts = [] := by
  cases ts with
  | nil => simp
  | cons t ts => simp [(h t (by simp)).2]

theorem stamped_whole {records : List StateRecord} (hok : StoreStep.RecordsOk records)
    (txnId baseSequence newSequence : UInt64) :
    Whole [stamped txnId baseSequence newSequence records] := by
  intro t ht
  obtain rfl : t = stamped txnId baseSequence newSequence records := by simpa using ht
  exact ⟨stamped_valid_iff.mpr hok.2, by simpa [stamped] using hok.1⟩

/-- The sequence a list of transactions ends with. -/
def lastSequence (ts : List Txn) : UInt64 := (ts.getLast?.map Txn.newSequence).getD 0

theorem recoverLog_logOf {log : Bytes} {ts : List Txn} (h : LogOf log ts) :
    (recoverLog log).committedRecords = ts.flatMap Txn.records ∧
      (recoverLog log).sequence = lastSequence ts ∧
      ((recoverLog log).diagnostics = [] ↔ log = logBytes [] ts) := by
  have hrecords := foldl_publish_records ts {}
  have hsequence := foldl_publish_sequence ts {}
  rcases h.bytes with hlog | ⟨torn, ⟨t, n, ht, hpos, hn, rfl⟩, hlog⟩
  · rw [hlog, recoverLog_log h.whole.valid]
    refine ⟨by simpa using hrecords, hsequence, ?_⟩
    rw [foldl_publish_diagnostics]
    simp
  · have hreports := recoverLog_torn h.whole.valid ht hpos hn
    rw [← hlog] at hreports
    refine ⟨by simpa using hreports.committedRecords.trans hrecords,
      hreports.sequence.trans hsequence, ?_⟩
    have hne : log ≠ logBytes [] ts := by
      intro heq
      have hlen := congrArg List.length (hlog.symm.trans heq)
      rw [List.length_append, List.length_take] at hlen
      omega
    simp [hreports.diagnosed, hne]

/-! ## Compaction -/

theorem length_merged_lt {ts : List Txn} (hne : ts ≠ []) (txnId baseSequence newSequence : UInt64) :
    ∀ pre, (logBytes [] [stamped txnId baseSequence newSequence (ts.flatMap Txn.records)]).length ≤
      (logBytes pre ts).length := by
  rw [logBytes, logBytes, List.append_nil, length_bytes_stamped]
  induction ts with
  | nil => exact absurd rfl hne
  | cons t ts ih =>
    intro pre
    rw [logBytes, List.length_append, Txn.length_bytes, List.flatMap_cons, encodeAll_append,
      List.length_append]
    cases ts with
    | nil => simp
    | cons u us =>
      have htail := ih (by simp) (pre ++ t.bytes pre)
      omega

/-- What `clean_log_bytes` makes of a log in use: a log of whole transactions with the same records,
up to their transaction ids, and the same sequence. Its size differs if its bytes do. -/
theorem cleanLogBytes_logOf {log : Bytes} {ts : List Txn} (h : LogOf log ts) :
    ∃ us, cleanLogBytes log = .ok (logBytes [] us) ∧ Whole us ∧
      (us.flatMap Txn.records).map sansTxnId = (ts.flatMap Txn.records).map sansTxnId ∧
      (us = [] ↔ ts = []) ∧ lastSequence us = lastSequence ts ∧
      ((logBytes [] us).length = log.length → logBytes [] us = log) := by
  obtain ⟨hrecords, hsequence, hdiag⟩ := recoverLog_logOf h
  rcases h.bytes with hlog | ⟨torn, ⟨t, n, ht, hpos, hn, rfl⟩, hlog⟩
  · refine ⟨ts, ?_, h.whole, rfl, Iff.rfl, rfl, fun _ => hlog.symm⟩
    rw [cleanLogBytes, if_pos (hdiag.mpr hlog)]
    split_ifs with hnil
    · rw [← hlog, hnil]
    · rw [hlog]
  have hlonger : (logBytes [] ts).length < log.length := by
    rw [hlog, List.length_append, List.length_take]
    omega
  have hnil : log ≠ [] := by
    intro heq
    simp [heq] at hlonger
  have htorn : (recoverLog log).diagnostics ≠ [] := by
    intro hempty
    rw [hdiag.mp hempty] at hlonger
    omega
  rw [cleanLogBytes, if_neg hnil]
  simp only [if_neg htorn, hrecords, hsequence]
  by_cases hts : ts = []
  · subst hts
    refine ⟨[], rfl, whole_nil, rfl, Iff.rfl, rfl, fun hlen => ?_⟩
    rw [hlen] at hlonger
    omega
  · have hmerged := length_merged_lt hts kCompactionTxnId 0 (lastSequence ts) []
    have hok : StoreStep.RecordsOk (ts.flatMap Txn.records) := by
      refine ⟨fun hempty => hts (h.whole.flatMap_eq_nil.mp hempty), fun record hrecord => ?_⟩
      obtain ⟨t, ht, hmem⟩ := List.mem_flatMap.mp hrecord
      exact (h.whole t ht).1 record hmem
    rw [if_neg hok.1, encodeTransaction_eq fun r hr => (hok.2 r hr).1]
    refine ⟨_, rfl, stamped_whole hok _ _ _, ?_, by simp [hts], by simp [lastSequence, stamped], ?_⟩
    · rw [List.flatMap_singleton]
      exact map_sansTxnId_stamp _ _
    · intro hlen
      omega

/-! ## Runs -/

/-- The directory holds the durable state: `saved` are the transactions in `checkpoint.fst`, `ts`
those in `state.log`. -/
structure Holds (store : FileStateStore) (saved ts : List Txn) (durable : Durable) : Prop where
  saved_whole : Whole saved
  saved_bytes : bytesOf store.checkpointFile = logBytes [] saved
  log : LogOf (bytesOf store.logFile) ts
  records : ((saved ++ ts).flatMap Txn.records).map sansTxnId = durable.records.map sansTxnId
  sequence : lastSequence (saved ++ ts) = durable.sequence

def Represents (store : FileStateStore) (durable : Durable) : Prop :=
  ∃ saved ts, Holds store saved ts durable

theorem represents_init : Represents {} {} :=
  ⟨[], [], whole_nil, rfl, ⟨whole_nil, .inl rfl⟩, rfl, rfl⟩

theorem lastSequence_append (ts us : List Txn) :
    lastSequence (ts ++ us) = if us = [] then lastSequence ts else lastSequence us := by
  cases us with
  | nil => simp
  | cons u us => simp [lastSequence, List.getLast?_append, List.getLast?_cons]

theorem recover_represents {store : FileStateStore} {durable : Durable} (h : Represents store durable) :
    ∃ result, store.recover {} = .value (.ok result) ∧ result.sequence = durable.sequence ∧
      result.committedRecords.map sansTxnId = durable.records.map sansTxnId := by
  obtain ⟨saved, ts, h⟩ := h
  obtain ⟨hrecords, hsequence, _⟩ := recoverLog_logOf h.log
  obtain ⟨hsaved, hsavedSequence, _⟩ := recoverLog_logOf ⟨h.saved_whole, .inl h.saved_bytes⟩
  refine ⟨_, recover_eq store, ?_, ?_⟩
  · simp only [hrecords, hsequence, hsavedSequence, h.log.whole.flatMap_eq_nil]
    rw [← h.sequence, lastSequence_append]
  · simp only [hrecords, hsaved]
    rw [← List.flatMap_append, h.records]

theorem represents_append {store : FileStateStore} {durable : Durable} (h : Represents store durable)
    {records : List StateRecord} (hok : StoreStep.RecordsOk records)
    (txnId baseSequence newSequence : UInt64) (write : Option Nat) :
    Represents
      (store.appendTransaction { append := { write } } txnId baseSequence newSequence records).2
      (if ((stamped txnId baseSequence newSequence records).write {}).bytes.length ≤
          write.getD ((stamped txnId baseSequence newSequence records).write {}).bytes.length then
        ⟨newSequence, durable.records ++ records⟩
      else durable) := by
  obtain ⟨saved, ts, h⟩ := h
  obtain ⟨us, hclean, hwhole, hrecords, hnil, hsequence, hsize⟩ := cleanLogBytes_logOf h.log
  obtain ⟨hcheckpointFile, hlogFile⟩ := appendTransaction_files hclean hsize
    (fun r hr => (hok.2 r hr).1) txnId baseSequence newSequence write
  have hstamped := stamped_whole hok txnId baseSequence newSequence
  have hkept : ((saved ++ us).flatMap Txn.records).map sansTxnId = durable.records.map sansTxnId := by
    rw [← h.records, List.flatMap_append, List.map_append, hrecords, ← List.map_append,
      ← List.flatMap_append]
  have hkeptSequence : lastSequence (saved ++ us) = durable.sequence := by
    rw [← h.sequence, lastSequence_append, lastSequence_append]
    simp only [hnil, hsequence]
  generalize ht : stamped txnId baseSequence newSequence records = t at *
  have hsizes : ((t.write {}).bytes.length) = (t.bytes (logBytes [] us)).length := by
    rw [write_empty_bytes, logBytes, logBytes, List.append_nil, Txn.length_bytes, Txn.length_bytes]
  rw [hsizes]
  generalize hafter : (store.appendTransaction { append := { write } } txnId baseSequence newSequence
    records).2 = after at *
  have hsaved : bytesOf after.checkpointFile = logBytes [] saved := by
    rw [hcheckpointFile, h.saved_bytes]
  generalize hn : write.getD (t.bytes (logBytes [] us)).length = n at *
  split_ifs with hall
  · -- the whole transaction reached the file
    have hlog : bytesOf after.logFile = logBytes [] (us ++ [t]) := by
      rw [hlogFile, List.take_of_length_le hall, logBytes_append]
      simp [logBytes]
    refine ⟨saved, us ++ [t], h.saved_whole, hsaved,
      ⟨whole_append.mpr ⟨hwhole, hstamped⟩, .inl hlog⟩, ?_, ?_⟩
    · rw [← List.append_assoc, List.flatMap_append, List.map_append, hkept, List.flatMap_singleton,
        List.map_append, ← ht]
      simp only [stamped, map_sansTxnId_stamp]
    · rw [← List.append_assoc, lastSequence_append, if_neg (by simp), ← ht]
      rfl
  · -- a proper part of it, possibly nothing
    refine ⟨saved, us, h.saved_whole, hsaved, ⟨hwhole, ?_⟩, hkept, hkeptSequence⟩
    rcases Nat.eq_zero_or_pos n with hzero | hpos
    · left
      rw [hlogFile, hzero, List.take_zero, List.append_nil]
    · right
      exact ⟨_, ⟨t, n, (hstamped t (by simp)).1, hpos, by omega, rfl⟩, hlogFile⟩

theorem checkpoint_recordsOk {payload : Bytes} (hfit : StateCodec.Fits (checkpointRecord payload)) :
    StoreStep.RecordsOk [checkpointRecord payload] := by
  refine ⟨by simp, fun record hrecord => ?_⟩
  obtain rfl : record = checkpointRecord payload := by simpa using hrecord
  exact ⟨by simp [checkpointRecord, StateRecord.Control]; decide, hfit⟩

theorem represents_checkpoint (store : FileStateStore) (sequence : UInt64) {payload : Bytes}
    (hfit : StateCodec.Fits (checkpointRecord payload)) :
    Represents (FileStateStore.checkpoint store {} sequence payload).2
      ⟨sequence, [checkpointRecord payload]⟩ := by
  have hok := checkpoint_recordsOk hfit
  rw [checkpoint_files]
  refine ⟨[stamped kCompactionTxnId 0 sequence [checkpointRecord payload]], [],
    stamped_whole hok _ _ _, rfl, ⟨whole_nil, .inl rfl⟩, ?_, rfl⟩
  rw [List.append_nil, List.flatMap_singleton]
  exact map_sansTxnId_stamp _ _

theorem represents_step {store : FileStateStore} {durable : Durable} {step : StoreStep}
    (hok : step.Ok) (h : Represents store durable) : Represents (step.exec store) (step.effect durable) := by
  cases step with
  | append txnId baseSequence newSequence records =>
    have happend := represents_append h hok txnId baseSequence newSequence none
    rw [if_pos (by simp)] at happend
    exact happend
  | crash txnId baseSequence newSequence records written =>
    exact represents_append h hok txnId baseSequence newSequence (some written)
  | crashEarly => exact h
  | checkpoint sequence payload => exact represents_checkpoint store sequence hok

/-- **Crash consistency.** After any run of appends, checkpoints and crashes, `recover` returns the
record of the last checkpoint and the records of all later transactions that reached the file, up to
transaction ids, with the sequence of the last of them. -/
theorem recover_run (steps : List StoreStep) (hok : ∀ step ∈ steps, step.Ok) :
    ∃ result, (steps.foldl StoreStep.exec {}).recover {} = .value (.ok result) ∧
      result.sequence = (steps.foldl StoreStep.effect {}).sequence ∧
      result.committedRecords.map sansTxnId =
        (steps.foldl StoreStep.effect {}).records.map sansTxnId :=
  recover_represents (List.foldl_rel represents_init fun step hstep _ _ =>
    represents_step (hok step hstep))

/-- A transaction, one torn inside its first record, and one that finds the torn log and compacts
it. -/
theorem recover_run_torn :
    let steps : List StoreStep := [.append 1 0 2 [⟨.graphDelta, 1, 0, 2, [1]⟩],
      .crash 2 2 3 [⟨.inputDelta, 2, 0, 3, [2]⟩] 60, .append 3 2 4 [⟨.jobDelta, 3, 0, 4, [3]⟩]]
    (∀ step ∈ steps, step.Ok) ∧
      ∃ result, (steps.foldl StoreStep.exec {}).recover {} = .value (.ok result) ∧ result.sequence = 4 ∧
        result.committedRecords.map sansTxnId = [⟨.graphDelta, 0, 0, 2, [1]⟩, ⟨.jobDelta, 0, 0, 4, [3]⟩] := by
  intro steps
  have hok : ∀ step ∈ steps, step.Ok := by decide
  have heffect : steps.foldl StoreStep.effect {} =
      ⟨4, [⟨.graphDelta, 1, 0, 2, [1]⟩, ⟨.jobDelta, 3, 0, 4, [3]⟩]⟩ := by decide +kernel
  have hrun := recover_run steps hok
  rw [heffect] at hrun
  exact ⟨hok, hrun⟩

/-! ## Crashes inside a checkpoint -/

/-- Where `checkpoint` is interrupted: its two `replace_file` calls are atomic. -/
inductive CheckpointCrash
  | before | between | after
deriving DecidableEq, Repr

/-- The files an interrupted `checkpoint` leaves. Between the two replacements they are as if the
second had failed at its first call. -/
def crashCheckpoint (store : FileStateStore) (sequence : UInt64) (payload : Bytes) :
    CheckpointCrash → FileStateStore
  | .before => store
  | .between => (store.checkpoint { rotate := { createDirectories := false } } sequence payload).2
  | .after => (store.checkpoint {} sequence payload).2

/-- Sequence and records that `recover` returns. -/
def recovered (store : FileStateStore) : Return (UInt64 × List StateRecord) :=
  (store.recover {}).map fun result => (result.sequence, result.committedRecords)

/-- What `recover` should return once the checkpoint is published. -/
def checkpointed (sequence : UInt64) (payload : Bytes) : Return (UInt64 × List StateRecord) :=
  .value (.ok (sequence, [{ checkpointRecord payload with txnId := kCompactionTxnId }]))

/-- The interrupted checkpoint is all or nothing, and it is all once it is published. -/
def CheckpointAtomic (store : FileStateStore) (sequence : UInt64) (payload : Bytes)
    (crash : CheckpointCrash) : Prop :=
  let found := recovered (crashCheckpoint store sequence payload crash)
  (found = recovered store ∨ found = checkpointed sequence payload) ∧
    (crash ≠ .before → found = checkpointed sequence payload)

instance (store : FileStateStore) (sequence : UInt64) (payload : Bytes) (crash : CheckpointCrash) :
    Decidable (CheckpointAtomic store sequence payload crash) :=
  inferInstanceAs (Decidable ((_ ∨ _) ∧ (_ → _)))

theorem recovered_eq (store : FileStateStore) :
    let saved := recoverLog (bytesOf store.checkpointFile)
    let log := recoverLog (bytesOf store.logFile)
    recovered store = .value (.ok (if log.committedRecords = [] then saved.sequence else log.sequence,
      saved.committedRecords ++ log.committedRecords)) := by
  rw [recovered, recover_eq]
  rfl

theorem crashCheckpoint_files (store : FileStateStore) (sequence : UInt64) (payload : Bytes)
    {crash : CheckpointCrash} (h : crash ≠ .before) :
    let after := crashCheckpoint store sequence payload crash
    bytesOf after.checkpointFile =
        logBytes [] [stamped kCompactionTxnId 0 sequence [checkpointRecord payload]] ∧
      bytesOf after.logFile = if crash = .after then [] else bytesOf store.logFile := by
  cases crash with
  | before => exact absurd rfl h
  | between =>
    simp only [crashCheckpoint, checkpoint, checkpointBytes_eq, replaceFile_success]
    exact ⟨rfl, rfl⟩
  | after =>
    simp only [crashCheckpoint, checkpoint_files]
    exact ⟨rfl, rfl⟩

theorem recoverLog_checkpoint (sequence : UInt64) {payload : Bytes}
    (hfit : StateCodec.Fits (checkpointRecord payload)) :
    recoverLog (logBytes [] [stamped kCompactionTxnId 0 sequence [checkpointRecord payload]]) =
      { sequence, committedRecords := [{ checkpointRecord payload with txnId := kCompactionTxnId }] } := by
  have hvalid := (stamped_whole (checkpoint_recordsOk hfit) kCompactionTxnId 0 sequence).valid
  rw [recoverLog_log hvalid]
  rfl

theorem recovered_published (store : FileStateStore) (sequence : UInt64) (payload : Bytes)
    {crash : CheckpointCrash} (h : crash ≠ .before) :
    recovered (crashCheckpoint store sequence payload crash) = checkpointed sequence payload ↔
      StateCodec.Fits (checkpointRecord payload) ∧
        (crash = .after ∨ (recoverLog (bytesOf store.logFile)).committedRecords = []) := by
  obtain ⟨hsaved, hlog⟩ := crashCheckpoint_files store sequence payload h
  rw [recovered_eq, hsaved, hlog]
  have hlogRecords :
      (recoverLog (if crash = .after then [] else bytesOf store.logFile)).committedRecords = [] ↔
        crash = .after ∨ (recoverLog (bytesOf store.logFile)).committedRecords = [] := by
    split_ifs with hafter
    · simp [hafter, recoverLog_nil]
    · simp [hafter]
  rw [← hlogRecords]
  constructor
  · intro heq
    obtain ⟨_, hrecords⟩ := Prod.ext_iff.mp (Except.ok.inj (Return.value.inj heq))
    simp only at hrecords
    have hfit : StateCodec.Fits (checkpointRecord payload) := by
      have hmem := List.mem_singleton_self { checkpointRecord payload with txnId := kCompactionTxnId }
      rw [← hrecords] at hmem
      have hread := (List.mem_append.mp hmem).elim (recoverLog_fits _ _) (recoverLog_fits _ _)
      exact hread
    rw [recoverLog_checkpoint sequence hfit] at hrecords
    exact ⟨hfit, List.append_cancel_left (hrecords.trans (List.append_nil _).symm)⟩
  · rintro ⟨hfit, hempty⟩
    rw [if_pos hempty, hempty, recoverLog_checkpoint sequence hfit]
    rfl

/-- **When a checkpoint is atomic under crashes**: always if it is interrupted before its first
replacement; else its record must have a size the encoder can write and the log it replaces, if that
is still there, must hold no committed record. -/
theorem checkpointAtomic_iff (store : FileStateStore) (sequence : UInt64) (payload : Bytes)
    (crash : CheckpointCrash) :
    CheckpointAtomic store sequence payload crash ↔
      crash = .before ∨ (40 + payload.length < 2 ^ 32 ∧
        (crash = .after ∨ (recoverLog (bytesOf store.logFile)).committedRecords = [])) := by
  by_cases h : crash = .before
  · subst h
    simp [CheckpointAtomic, crashCheckpoint]
  · have hpublished := recovered_published store sequence payload h
    simp only [CheckpointAtomic, h, ne_eq, not_false_eq_true, forall_true_left, false_or]
    rw [hpublished]
    exact ⟨fun hboth => hboth.2, fun hcond => ⟨.inr hcond, hcond⟩⟩

/-- A log with one transaction of sequence 2, and a crash between the two replacements of a checkpoint
at sequence 5. -/
theorem checkpoint_between_mixes :
    ¬ CheckpointAtomic (StoreStep.exec {} (.append 1 0 2 [⟨.graphDelta, 1, 0, 0, [1]⟩])) 5 [9, 9]
      .between := by
  decide +kernel

end FileStateStore

end Forge
