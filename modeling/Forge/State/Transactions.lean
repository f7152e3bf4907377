import Forge.State.Recovery

/-!
# Replaying transactions

What the replay loop does on the bytes of a transaction. `Segments` are bytes that decode, piece by
piece and whatever follows them, to a list of records; the encodings of records are segments, and so
is an encoding with changed padding. `replay_txn` runs the loop over a whole transaction: it is
published if the digest stored in its commit is the checksum of everything before the commit, and
ignored with a diagnostic if it is not. `replay_torn` runs it over a transaction cut at any byte.
-/

namespace Forge

open StateCodec

/-! ## Segments -/

/-- `seg` is read as `record`, whatever follows it. -/
def IsSegment (seg : Bytes) (record : StateRecord) : Prop :=
  ∀ rest, decode (seg ++ rest) = .ok (record, seg.length)

/-- A sequence of segments. -/
inductive Segments : Bytes → List StateRecord → Prop
  | nil : Segments [] []
  | cons {seg body : Bytes} {record : StateRecord} {records : List StateRecord}
      (head : IsSegment seg record) (tail : Segments body records) :
      Segments (seg ++ body) (record :: records)

theorem isSegment_encode {record : StateRecord} (hfit : Fits record) :
    IsSegment (encode record) record := decode_encode record hfit

theorem IsSegment.length_pos {seg : Bytes} {record : StateRecord} (h : IsSegment seg record) :
    0 < seg.length := (decode_consumed (h [])).1

/-- The encodings of records, one after the other. -/
def encodeAll (records : List StateRecord) : Bytes := (records.map encode).flatten

@[simp] theorem encodeAll_nil : encodeAll [] = [] := rfl

@[simp] theorem encodeAll_cons (record : StateRecord) (records : List StateRecord) :
    encodeAll (record :: records) = encode record ++ encodeAll records := rfl

theorem encodeAll_append (records more : List StateRecord) :
    encodeAll (records ++ more) = encodeAll records ++ encodeAll more := by
  simp [encodeAll]

theorem segments_encodeAll {records : List StateRecord} (hfit : ∀ r ∈ records, Fits r) :
    Segments (encodeAll records) records := by
  induction records with
  | nil => exact .nil
  | cons record records ih =>
    exact .cons (isSegment_encode (hfit record (by simp))) (ih fun r hr => hfit r (by simp [hr]))

/-! ## Transactions -/

structure Txn where
  txnId : UInt64
  baseSequence : UInt64
  newSequence : UInt64
  records : List StateRecord
deriving DecidableEq, Repr

/-- A transaction control record. -/
def StateRecord.Control (record : StateRecord) : Prop :=
  record.type = .txnBegin ∨ record.type = .txnCommit

instance (record : StateRecord) : Decidable record.Control := inferInstanceAs (Decidable (_ ∨ _))

namespace Txn

/-- The records are not control records and fit their length field. -/
def Valid (t : Txn) : Prop := ∀ record ∈ t.records, ¬ record.Control ∧ Fits record

instance (t : Txn) : Decidable t.Valid := inferInstanceAs (Decidable (∀ record ∈ t.records, _))

/-- The transaction written through an `AppendLog`: `begin` with the true count, the records,
`commit`. -/
def write (log : AppendLog) (t : Txn) : AppendLog :=
  (t.records.foldl AppendLog.append
    (log.begin t.txnId t.baseSequence (UInt64.ofNat t.records.length))).commit t.txnId t.newSequence

def beginRecord (t : Txn) : StateRecord :=
  ⟨.txnBegin, t.txnId, t.baseSequence, 0, LittleEndian.bytes 8 (UInt64.ofNat t.records.length).toNat⟩

def commitRecord (t : Txn) (digest : UInt32) : StateRecord :=
  ⟨.txnCommit, t.txnId, 0, t.newSequence, LittleEndian.bytes 8 digest.toUInt64.toNat⟩

/-- Everything the transaction writes before its commit. -/
def body (t : Txn) : Bytes := encode t.beginRecord ++ encodeAll t.records

/-- The bytes of the transaction behind the log `pre`. -/
def bytes (pre : Bytes) (t : Txn) : Bytes :=
  t.body ++ encode (t.commitRecord (crc32c (pre ++ t.body)))

theorem foldl_append_bytes (records : List StateRecord) (log : AppendLog) :
    (records.foldl AppendLog.append log).bytes = log.bytes ++ encodeAll records := by
  induction records generalizing log with
  | nil => simp
  | cons record records ih => simp [ih, AppendLog.append]

theorem write_bytes (log : AppendLog) (t : Txn) : (t.write log).bytes = log.bytes ++ t.bytes log.bytes := by
  simp [write, AppendLog.commit, AppendLog.begin, AppendLog.append, foldl_append_bytes, bytes, body,
    commitRecord, beginRecord, appendU64Le_eq]

@[simp] theorem length_encode_beginRecord (t : Txn) : (encode t.beginRecord).length = 48 := by
  simp [length_encode, beginRecord, padding]

@[simp] theorem length_encode_commitRecord (t : Txn) (digest : UInt32) :
    (encode (t.commitRecord digest)).length = 48 := by
  simp [length_encode, commitRecord, padding]

theorem fits_beginRecord (t : Txn) : Fits t.beginRecord := by
  simp [Fits, beginRecord]

theorem fits_commitRecord (t : Txn) (digest : UInt32) : Fits (t.commitRecord digest) := by
  simp [Fits, commitRecord]

theorem length_bytes (pre : Bytes) (t : Txn) : (t.bytes pre).length = 96 + (encodeAll t.records).length := by
  simp [bytes, body]
  omega

end Txn

theorem readU64Le_bytes (v : UInt64) : readU64Le (LittleEndian.bytes 8 v.toNat) 0 = .ok v := by
  rw [readU64Le_eq _ _ (by simp), List.drop_zero, List.take_of_length_le (by simp), value_u64_bytes]

/-! ## The loop on segments -/

theorem replayTurn_decoded {pre tail : Bytes} {s : Replay} (hoffset : s.offset = pre.length)
    {record : StateRecord} {consumed : Nat} (h : decode tail = .ok (record, consumed)) :
    replayTurn (pre ++ tail) s = replayRecord (pre ++ tail) s record consumed := by
  have hdrop : (pre ++ tail).drop s.offset = tail := by rw [hoffset, List.drop_left]
  rw [replayTurn, hdrop, h]

theorem replay_segment {pre seg rest : Bytes} {record : StateRecord} (hseg : IsSegment seg record)
    {s t : Replay} (hoffset : s.offset = pre.length)
    (hnext : replayRecord (pre ++ (seg ++ rest)) s record seg.length = .next t) :
    replay (pre ++ (seg ++ rest)) s = replay (pre ++ (seg ++ rest)) t := by
  have hpos := hseg.length_pos
  rw [replay_eq, if_pos (by simp; omega), replayTurn_decoded hoffset (hseg rest), hnext]

theorem replay_staged {body : Bytes} {records : List StateRecord} (hbody : Segments body records) :
    ∀ {pre rest : Bytes} {s : Replay}, (∀ r ∈ records, ¬ r.Control) → s.offset = pre.length →
      s.inTxn = true →
      replay (pre ++ (body ++ rest)) s =
        replay (pre ++ (body ++ rest))
          ({ s with staged := s.staged ++ records }.advance body.length) := by
  induction hbody with
  | nil =>
    intro pre rest s _ hoffset _
    simp [Replay.advance]
  | @cons seg body record records head tail ih =>
    intro pre rest s hcontrol hoffset htxn
    have hrecord : ¬ record.Control := hcontrol record (by simp)
    simp only [StateRecord.Control, not_or] at hrecord
    rw [List.append_assoc,
      replay_segment head hoffset (replayRecord_staged hrecord.1 hrecord.2 htxn)]
    have htail := @ih (pre ++ seg) rest ({ s with staged := s.staged ++ [record] }.advance seg.length)
      (fun r hr => hcontrol r (by simp [hr])) (by simp [Replay.advance, hoffset]) htxn
    simp only [List.append_assoc] at htail
    rw [htail]
    simp [Replay.advance, Nat.add_assoc]

/-- A result with a transaction published. -/
def RecoveryResult.publish (result : RecoveryResult) (t : Txn) : RecoveryResult :=
  { result with
    committedRecords := result.committedRecords ++ t.records
    sequence := t.newSequence }

/-- A result with a transaction ignored for its digest. -/
def RecoveryResult.ignore (result : RecoveryResult) : RecoveryResult :=
  { result with
    diagnostics := result.diagnostics ++
      [Str.ofLiteral "ignored transaction with commit digest mismatch"] }

/-- The loop between two transactions, at `offset`. -/
def Replay.boundary (result : RecoveryResult) (offset : Nat) (txnId declaredCount : UInt64) : Replay :=
  { result, offset, txnId, declaredCount }

/-- The loop after the begin record of `t`, at `offset`. -/
def Replay.opened (result : RecoveryResult) (offset : Nat) (t : Txn) : Replay :=
  { result, offset, inTxn := true, txnId := t.txnId, declaredCount := UInt64.ofNat t.records.length }

theorem replay_begin (t : Txn) {pre rest : Bytes} {s : Replay} (hoffset : s.offset = pre.length) :
    replay (pre ++ (encode t.beginRecord ++ rest)) s =
      replay (pre ++ (encode t.beginRecord ++ rest)) (.opened s.result (pre.length + 48) t) := by
  refine replay_segment (isSegment_encode t.fits_beginRecord) hoffset ?_
  rw [replayRecord_begin rfl (readU64Le_bytes _), Txn.length_encode_beginRecord]
  simp [Replay.advance, Replay.opened, Txn.beginRecord, hoffset]

/-- **A whole transaction.** `body` are the bytes of its records as they are in the log. -/
theorem replay_txn (t : Txn) (hvalid : t.Valid) (pre rest : Bytes) {body : Bytes}
    (hbody : Segments body t.records) (digest : UInt32) {s : Replay} (hoffset : s.offset = pre.length) :
    replay (pre ++ (encode t.beginRecord ++ (body ++ (encode (t.commitRecord digest) ++ rest)))) s =
      replay (pre ++ (encode t.beginRecord ++ (body ++ (encode (t.commitRecord digest) ++ rest))))
        (.boundary
          (if crc32c (pre ++ (encode t.beginRecord ++ body)) = digest then s.result.publish t
            else s.result.ignore)
          (pre.length + 96 + body.length) t.txnId (UInt64.ofNat t.records.length)) := by
  rw [replay_begin t hoffset]
  have hstaged := @replay_staged _ _ hbody (pre ++ encode t.beginRecord)
    (encode (t.commitRecord digest) ++ rest) (.opened s.result (pre.length + 48) t)
    (fun r hr => (hvalid r hr).1) (by simp [Replay.opened]) rfl
  have hcommit := @replay_segment (pre ++ (encode t.beginRecord ++ body)) _ rest _
    (isSegment_encode (t.fits_commitRecord digest))
    ({ (Replay.opened s.result (pre.length + 48) t) with staged := [] ++ t.records }.advance body.length)
    (.boundary
      (if crc32c (pre ++ (encode t.beginRecord ++ body)) = digest then s.result.publish t
        else s.result.ignore)
      (pre.length + 96 + body.length) t.txnId (UInt64.ofNat t.records.length))
    (by simp [Replay.advance, Replay.opened, Nat.add_assoc])
  simp only [List.append_assoc] at hstaged hcommit
  rw [hstaged]
  refine hcommit ?_
  have hcover : (pre ++ (encode t.beginRecord ++ (body ++ (encode (t.commitRecord digest) ++ rest)))).take
      (pre.length + 48 + body.length) = pre ++ (encode t.beginRecord ++ body) := by
    rw [← List.append_assoc (encode t.beginRecord), ← List.append_assoc pre]
    exact List.take_left' (by simp [Nat.add_assoc])
  have hdigest : digest.toUInt64.toUInt32 = digest := by
    apply UInt32.toNat_inj.mp
    simp
  have hoff : pre.length + 48 + body.length + 48 = pre.length + 96 + body.length := by omega
  rw [replayRecord_commit rfl rfl rfl (readU64Le_bytes _) (by simp [Replay.advance, Replay.opened]),
    Txn.length_encode_commitRecord, hdigest]
  simp only [Replay.advance, Replay.opened, hcover]
  split_ifs
  · simp [Replay.publish, Replay.leave, Replay.boundary, RecoveryResult.publish, Txn.commitRecord, hoff]
  · simp [Replay.diagnose, Replay.leave, Replay.boundary, RecoveryResult.ignore, hoff]

/-! ## Logs of transactions -/

/-- The bytes of transactions written one after the other behind the log `pre`. -/
def logBytes (pre : Bytes) : List Txn → Bytes
  | [] => []
  | t :: ts => t.bytes pre ++ logBytes (pre ++ t.bytes pre) ts

theorem foldl_write_bytes (ts : List Txn) (log : AppendLog) :
    (ts.foldl Txn.write log).bytes = log.bytes ++ logBytes log.bytes ts := by
  induction ts generalizing log with
  | nil => simp [logBytes]
  | cons t ts ih => simp [ih, logBytes, Txn.write_bytes]

theorem logBytes_append (pre : Bytes) (ts us : List Txn) :
    logBytes pre (ts ++ us) = logBytes pre ts ++ logBytes (pre ++ logBytes pre ts) us := by
  induction ts generalizing pre with
  | nil => simp [logBytes]
  | cons t ts ih => simp [logBytes, ih]

/-- The loop is between two transactions. -/
structure AtBoundary (s : Replay) (result : RecoveryResult) (offset : Nat) : Prop where
  result_eq : s.result = result
  offset_eq : s.offset = offset
  not_in_txn : s.inTxn = false

theorem atBoundary_init : AtBoundary {} {} 0 := ⟨rfl, rfl, rfl⟩

theorem replay_intact {t : Txn} (hvalid : t.Valid) (pre rest : Bytes) {s : Replay}
    {result : RecoveryResult} (hs : AtBoundary s result pre.length) :
    ∃ s', AtBoundary s' (result.publish t) (pre ++ t.bytes pre).length ∧
      replay (pre ++ (t.bytes pre ++ rest)) s = replay (pre ++ (t.bytes pre ++ rest)) s' := by
  have hrun := replay_txn t hvalid pre rest (segments_encodeAll fun r hr => (hvalid r hr).2)
    (crc32c (pre ++ t.body)) hs.offset_eq
  rw [Txn.body, if_pos rfl, hs.result_eq] at hrun
  refine ⟨.boundary (result.publish t) (pre.length + 96 + (encodeAll t.records).length) t.txnId
    (UInt64.ofNat t.records.length), ⟨rfl, ?_, rfl⟩, ?_⟩
  · simp [Txn.length_bytes, Replay.boundary, Nat.add_assoc]
  · simpa [Txn.bytes, Txn.body] using hrun

theorem replay_log_intact {ts : List Txn} (hvalid : ∀ t ∈ ts, t.Valid) :
    ∀ (pre rest : Bytes) {s : Replay} {result : RecoveryResult}, AtBoundary s result pre.length →
      ∃ s', AtBoundary s' (ts.foldl RecoveryResult.publish result) (pre ++ logBytes pre ts).length ∧
        replay (pre ++ (logBytes pre ts ++ rest)) s = replay (pre ++ (logBytes pre ts ++ rest)) s' := by
  induction ts with
  | nil =>
    intro pre rest s result hs
    exact ⟨s, by simpa [logBytes] using hs, rfl⟩
  | cons t ts ih =>
    intro pre rest s result hs
    obtain ⟨s₁, hs₁, hrun₁⟩ := replay_intact (hvalid t (by simp)) pre
      (logBytes (pre ++ t.bytes pre) ts ++ rest) hs
    obtain ⟨s₂, hs₂, hrun₂⟩ := ih (fun u hu => hvalid u (by simp [hu])) _ rest hs₁
    simp only [List.append_assoc, logBytes] at hrun₁ hrun₂ hs₂ ⊢
    exact ⟨s₂, hs₂, hrun₁.trans hrun₂⟩

/-- **Replay of a log of transactions** publishes all of them and diagnoses nothing. -/
theorem recoverLog_log {ts : List Txn} (hvalid : ∀ t ∈ ts, t.Valid) :
    recoverLog (logBytes [] ts) = ts.foldl RecoveryResult.publish {} := by
  obtain ⟨s, hs, hrun⟩ := replay_log_intact hvalid [] [] atBoundary_init
  simp only [List.nil_append, List.append_nil] at hrun hs
  rw [recoverLog_eq, hrun, replay_end (by rw [hs.offset_eq]), Replay.finish, hs.not_in_txn, hs.result_eq]
  rfl

theorem foldl_publish_diagnostics (ts : List Txn) (result : RecoveryResult) :
    (ts.foldl RecoveryResult.publish result).diagnostics = result.diagnostics := by
  induction ts generalizing result with
  | nil => rfl
  | cons t ts ih => rw [List.foldl_cons, ih]; rfl

theorem foldl_publish_records (ts : List Txn) (result : RecoveryResult) :
    (ts.foldl RecoveryResult.publish result).committedRecords =
      result.committedRecords ++ ts.flatMap Txn.records := by
  induction ts generalizing result with
  | nil => simp
  | cons t ts ih => rw [List.foldl_cons, ih]; simp [RecoveryResult.publish]

theorem foldl_publish_sequence (ts : List Txn) (result : RecoveryResult) :
    (ts.foldl RecoveryResult.publish result).sequence =
      (ts.getLast?.map Txn.newSequence).getD result.sequence := by
  induction ts generalizing result with
  | nil => rfl
  | cons t ts ih =>
    rw [List.foldl_cons, ih]
    cases ts with
    | nil => rfl
    | cons u us => simp [List.getLast?_cons]

/-! ## Logs with damage -/

/-- `found` has the records and the sequence of `kept` and at least one diagnostic. -/
structure Reports (found kept : RecoveryResult) : Prop where
  sequence : found.sequence = kept.sequence
  committedRecords : found.committedRecords = kept.committedRecords
  diagnosed : found.diagnostics ≠ []

theorem reports_diagnose (s : Replay) (message : Str) : Reports (s.diagnose message).finish s.result := by
  unfold Replay.finish
  split
  · exact ⟨rfl, rfl, by simp [Replay.diagnose]⟩
  · exact ⟨rfl, rfl, by simp [Replay.diagnose]⟩

theorem reports_in_txn {s : Replay} (h : s.inTxn = true) : Reports s.finish s.result := by
  rw [Replay.finish, if_pos h]
  exact ⟨rfl, rfl, by simp [Replay.diagnose]⟩

theorem replay_undecodable {pre bad : Bytes} {s : Replay} (hoffset : s.offset = pre.length)
    (hne : bad ≠ []) (hbad : ∃ status, decode bad = .error status) :
    Reports (replay (pre ++ bad) s).finish s.result := by
  obtain ⟨status, hstatus⟩ := hbad
  have hpos := List.length_pos_of_ne_nil hne
  have hturn : replayTurn (pre ++ bad) s = .stop (s.diagnose status.message) := by
    rw [replayTurn, hoffset, List.drop_left, hstatus]
  rw [replay_eq, if_pos (by simp; omega), hturn]
  exact reports_diagnose s status.message

/-- Transactions whose digests were computed over other bytes than those before them are all
ignored. `pre` is what stands before them, `written` what was there when they were written. -/
theorem replay_log_ignored {ts : List Txn} (hvalid : ∀ t ∈ ts, t.Valid) :
    ∀ (pre written : Bytes) {s : Replay} {result : RecoveryResult}, AtBoundary s result pre.length →
      (∀ more, crc32c (pre ++ more) ≠ crc32c (written ++ more)) → result.diagnostics ≠ [] →
      Reports (replay (pre ++ logBytes written ts) s).finish result := by
  induction ts with
  | nil =>
    intro pre written s result hs _ hdiag
    rw [logBytes, List.append_nil, replay_end (by rw [hs.offset_eq]), Replay.finish, hs.not_in_txn,
      hs.result_eq]
    exact ⟨rfl, rfl, hdiag⟩
  | cons t ts ih =>
    intro pre written s result hs hcrc hdiag
    have hrun := replay_txn t (hvalid t (by simp)) pre (logBytes (written ++ t.bytes written) ts)
      (segments_encodeAll fun r hr => (hvalid t (by simp) r hr).2) (crc32c (written ++ t.body))
      hs.offset_eq
    rw [show encode t.beginRecord ++ encodeAll t.records = t.body from rfl, if_neg (hcrc t.body),
      hs.result_eq] at hrun
    have hbytes : pre ++ (encode t.beginRecord ++ (encodeAll t.records ++
        (encode (t.commitRecord (crc32c (written ++ t.body))) ++
          logBytes (written ++ t.bytes written) ts))) =
        (pre ++ t.bytes written) ++ logBytes (written ++ t.bytes written) ts := by
      simp [Txn.bytes, Txn.body]
    rw [logBytes, ← List.append_assoc, ← hbytes, hrun, hbytes]
    have hnext : AtBoundary (.boundary result.ignore (pre.length + 96 + (encodeAll t.records).length)
        t.txnId (UInt64.ofNat t.records.length)) result.ignore (pre ++ t.bytes written).length :=
      ⟨rfl, by simp [Replay.boundary, Txn.length_bytes, Nat.add_assoc], rfl⟩
    have hrest := ih (fun u hu => hvalid u (by simp [hu])) _ (written ++ t.bytes written) hnext
      (fun more => by simpa using hcrc (t.bytes written ++ more)) (by simp [RecoveryResult.ignore])
    exact ⟨hrest.sequence, hrest.committedRecords, hrest.diagnosed⟩

-- Sealed: comparing the bytes of two transactions by computation would run their checksums.
attribute [irreducible] Txn.bytes

end Forge
