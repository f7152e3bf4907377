import Forge.Lib.Runs
import Forge.State.Transactions

/-!
# The calls of an append log

An `AppendLog` takes `begin`, `append` and `commit` in any order, and it is only its replay that makes
transactions of them. `publication` says what a commit publishes by looking back at the records before it:
those since the last `begin`, if that has the id of the commit, has not been closed yet, and declares their
number. The replay reads the log forward and finds just these (`replay_calls`).
-/

namespace Forge

open StateCodec

/-- A call on an `AppendLog`. -/
inductive LogCall
  | begin (txnId baseSequence count : UInt64)
  | append (record : StateRecord)
  | commit (txnId newSequence : UInt64)
deriving DecidableEq, Repr

namespace LogCall

def exec (log : AppendLog) : LogCall → AppendLog
  | .begin txnId baseSequence count => log.begin txnId baseSequence count
  | .append record => log.append record
  | .commit txnId newSequence => log.commit txnId newSequence

/-- An appended record is no control record and fits its length field. -/
def Plain : LogCall → Prop
  | .append record => ¬ record.Control ∧ Fits record
  | _ => True

instance : ∀ call : LogCall, Decidable call.Plain
  | .append _ => inferInstanceAs (Decidable (_ ∧ _))
  | .begin .. => .isTrue trivial
  | .commit .. => .isTrue trivial

/-- The record the call appends. -/
def record (log : AppendLog) : LogCall → StateRecord
  | .begin txnId baseSequence count => ⟨.txnBegin, txnId, baseSequence, 0, appendU64Le [] count⟩
  | .append record => record
  | .commit txnId newSequence =>
    ⟨.txnCommit, txnId, 0, newSequence, appendU64Le [] (crc32c log.bytes).toUInt64⟩

/-- The records the calls append. -/
def written (log : AppendLog) (calls : List LogCall) : List StateRecord :=
  (Runs.trace exec log calls).map fun step => step.2.record step.1

theorem exec_eq (log : AppendLog) (call : LogCall) : call.exec log = log.append (call.record log) := by
  cases call <;> rfl

theorem written_cons (log : AppendLog) (call : LogCall) (calls : List LogCall) :
    written log (call :: calls) = call.record log :: written (call.exec log) calls := rfl

theorem foldl_exec_bytes (log : AppendLog) (calls : List LogCall) :
    (calls.foldl exec log).bytes = log.bytes ++ encodeAll (written log calls) := by
  induction calls generalizing log with
  | nil => simp [written, Runs.trace]
  | cons call calls ih =>
    rw [List.foldl_cons, ih, written_cons, encodeAll_cons, ← List.append_assoc, exec_eq]
    rfl

theorem Plain.fits {call : LogCall} (h : call.Plain) (log : AppendLog) : Fits (call.record log) := by
  cases call with
  | begin => simp [record, Fits, appendU64Le_eq]
  | append record => exact h.2
  | commit => simp [record, Fits, appendU64Le_eq]

end LogCall

/-! ## Looking back -/

/-- A transaction that is not closed: its begin record and the records behind it. -/
structure OpenTxn where
  opener : StateRecord
  staged : List StateRecord
deriving DecidableEq, Repr

/-- A commit record with the id of the transaction. -/
def StateRecord.Closes (record opener : StateRecord) : Prop :=
  record.type = .txnCommit ∧ record.txnId = opener.txnId

instance (record opener : StateRecord) : Decidable (record.Closes opener) :=
  inferInstanceAs (Decidable (_ ∧ _))

/-- The transaction of the last begin record, if no commit of its own is behind it. -/
def openTxn (before : List StateRecord) : Option OpenTxn :=
  let later := before.reverse.takeWhile (·.type ≠ .txnBegin)
  match before.reverse.dropWhile (·.type ≠ .txnBegin) with
  | [] => none
  | opener :: _ => if ∃ record ∈ later, record.Closes opener then none else some ⟨opener, later.reverse⟩

/-- The records a record publishes: those of the transaction that it closes, if it has as many as it
declares. -/
def publication (before : List StateRecord) (record : StateRecord) : Option (List StateRecord) :=
  match openTxn before with
  | none => none
  | some txn =>
    if record.Closes txn.opener ∧
        readU64Le txn.opener.payload 0 = .ok (UInt64.ofNat txn.staged.length) then
      some txn.staged
    else none

/-- The transactions published behind `before`, each with its sequence. -/
def publications (before : List StateRecord) : List StateRecord → List (UInt64 × List StateRecord)
  | [] => []
  | record :: rest =>
    ((publication before record).map (record.newSequence, ·)).toList ++ publications (before ++ [record]) rest

theorem publications_append (before records more : List StateRecord) :
    publications before (records ++ more) =
      publications before records ++ publications (before ++ records) more := by
  induction records generalizing before with
  | nil => rw [List.append_nil]; rfl
  | cons record records ih => simp [publications, ih]

theorem openTxn_begin (before : List StateRecord) {record : StateRecord} (htype : record.type = .txnBegin) :
    openTxn (before ++ [record]) = some ⟨record, []⟩ := by
  simp [openTxn, htype]

theorem openTxn_other (before : List StateRecord) {record : StateRecord} (htype : record.type ≠ .txnBegin) :
    openTxn (before ++ [record]) = (openTxn before).bind fun txn =>
      if record.Closes txn.opener then none else some { txn with staged := txn.staged ++ [record] } := by
  have hlater (opener : StateRecord) (later : List StateRecord) :
      (∃ other ∈ record :: later, other.Closes opener) ↔
        record.Closes opener ∨ ∃ other ∈ later, other.Closes opener := by simp
  simp only [openTxn, List.reverse_append, List.reverse_cons, List.reverse_nil, List.nil_append,
    List.singleton_append, List.takeWhile_cons, List.dropWhile_cons, ne_eq, htype, not_false_eq_true,
    decide_true, if_true, hlater]
  cases before.reverse.dropWhile (fun record => decide ¬ record.type = .txnBegin) with
  | nil => rfl
  | cons opener _ =>
    generalize before.reverse.takeWhile (fun record => decide ¬ record.type = .txnBegin) = later
    by_cases hown : ∃ other ∈ later, other.Closes opener
    · simp only [hown, or_true, if_true, Option.bind_none]
    · simp only [hown, or_false, if_false, Option.bind_some]

/-! ## The replay -/

/-- The loop of the replay behind the records `before`. -/
structure Tracks (before : List StateRecord) (s : Replay) : Prop where
  offset : s.offset = (encodeAll before).length
  idle : s.inTxn = false → openTxn before = none
  active : s.inTxn = true → ∃ txn, openTxn before = some txn ∧ s.txnId = txn.opener.txnId ∧
    readU64Le txn.opener.payload 0 = .ok s.declaredCount ∧ s.staged = txn.staged
  records : s.result.committedRecords = (publications [] before).flatMap Prod.snd
  sequence : s.result.sequence = ((publications [] before).getLast?.map Prod.fst).getD 0

theorem tracks_nil : Tracks [] {} := ⟨rfl, fun _ => rfl, fun h => absurd h (by decide), rfl, rfl⟩

theorem publications_snoc (before : List StateRecord) (record : StateRecord) :
    publications [] (before ++ [record]) =
      publications [] before ++ ((publication before record).map (record.newSequence, ·)).toList := by
  rw [publications_append]
  simp [publications]

theorem Tracks.unpublished {before : List StateRecord} {s t : Replay} {record : StateRecord}
    (h : Tracks before s) (hnone : publication before record = none)
    (hresult : t.result.committedRecords = s.result.committedRecords ∧
      t.result.sequence = s.result.sequence)
    (hoffset : t.offset = s.offset + (encode record).length)
    (hidle : t.inTxn = false → openTxn (before ++ [record]) = none)
    (hactive : t.inTxn = true → ∃ txn, openTxn (before ++ [record]) = some txn ∧
      t.txnId = txn.opener.txnId ∧ readU64Le txn.opener.payload 0 = .ok t.declaredCount ∧
        t.staged = txn.staged) : Tracks (before ++ [record]) t := by
  have hsame : publications [] (before ++ [record]) = publications [] before := by
    rw [publications_snoc, hnone]
    simp
  refine ⟨?_, hidle, hactive, ?_, ?_⟩
  · rw [hoffset, h.offset, encodeAll_append, List.length_append, encodeAll_cons, encodeAll_nil,
      List.append_nil]
  · rw [hresult.1, h.records, hsame]
  · rw [hresult.2, h.sequence, hsame]

theorem publication_of_not_closes {before : List StateRecord} {record : StateRecord}
    (h : ∀ txn, openTxn before = some txn → ¬ record.Closes txn.opener) :
    publication before record = none := by
  rw [publication]
  cases htxn : openTxn before with
  | none => rfl
  | some txn => exact if_neg fun hcloses => h txn htxn hcloses.1

theorem not_closes_of_type {record : StateRecord} (htype : record.type ≠ .txnCommit) (opener : StateRecord) :
    ¬ record.Closes opener := fun h => htype h.1

theorem Tracks.begin {bytes : Bytes} {before : List StateRecord} {s : Replay} {record : StateRecord}
    {count : UInt64} (h : Tracks before s) (htype : record.type = .txnBegin)
    (hread : readU64Le record.payload 0 = .ok count) :
    ∃ t, replayRecord bytes s record (encode record).length = .next t ∧ Tracks (before ++ [record]) t := by
  refine ⟨_, replayRecord_begin htype hread, h.unpublished ?_ ⟨rfl, rfl⟩ rfl (fun hidle => ?_)
    fun _ => ⟨_, openTxn_begin before htype, rfl, hread, rfl⟩⟩
  · exact publication_of_not_closes fun txn _ =>
      not_closes_of_type (by rw [htype]; decide) txn.opener
  · cases hidle

theorem Tracks.other {bytes : Bytes} {before : List StateRecord} {s : Replay} {record : StateRecord}
    (h : Tracks before s) (htype : record.type ≠ .txnBegin)
    (hopen : ∀ txn, openTxn before = some txn → ¬ record.Closes txn.opener) :
    ∃ t, replayRecord bytes s record (encode record).length = .next t ∧ Tracks (before ++ [record]) t := by
  have hnone := publication_of_not_closes hopen
  have hbehind := openTxn_other before htype
  cases htxn : s.inTxn with
  | false =>
    rw [h.idle htxn, Option.bind_none] at hbehind
    refine ⟨s.advance (encode record).length, ?_, h.unpublished hnone ⟨rfl, rfl⟩ rfl (fun _ => hbehind) ?_⟩
    · rw [replayRecord, if_neg htype, if_neg (by simp [htxn]), if_neg (by simp [htxn])]
    · exact fun hactive => by rw [Replay.advance_inTxn, htxn] at hactive; cases hactive
  | true =>
    obtain ⟨txn, hfound, hid, hcount, hstaged⟩ := h.active htxn
    have hforeign := hopen txn hfound
    rw [hfound, Option.bind_some, if_neg hforeign] at hbehind
    refine ⟨{ s with staged := s.staged ++ [record] }.advance (encode record).length, ?_,
      h.unpublished hnone ⟨rfl, rfl⟩ rfl (fun hidle => ?_) fun _ => ⟨_, hbehind, hid, hcount, ?_⟩⟩
    · rw [replayRecord, if_neg htype, if_neg fun hcloses => hforeign ⟨hcloses.1, hcloses.2.2.trans hid⟩,
        if_pos htxn]
    · cases htxn.symm.trans hidle
    · simp [Replay.advance, hstaged]

theorem Tracks.close {bytes : Bytes} {before : List StateRecord} {s : Replay} {record : StateRecord}
    {txn : OpenTxn} {digest : UInt64} (h : Tracks before s) (hfound : openTxn before = some txn)
    (hcloses : record.Closes txn.opener) (hread : readU64Le record.payload 0 = .ok digest)
    (hdigest : crc32c (bytes.take s.offset) = digest.toUInt32) :
    ∃ t, replayRecord bytes s record (encode record).length = .next t ∧ Tracks (before ++ [record]) t := by
  have htype : record.type ≠ .txnBegin := by
    rw [hcloses.1]
    decide
  have htxn : s.inTxn = true := by
    cases hidle : s.inTxn with
    | false => cases hfound.symm.trans (h.idle hidle)
    | true => rfl
  obtain ⟨txn', hfound', hid, hcount, hstaged⟩ := h.active htxn
  obtain rfl : txn = txn' := Option.some.inj (hfound.symm.trans hfound')
  have hbehind : openTxn (before ++ [record]) = none := by
    rw [openTxn_other before htype, hfound, Option.bind_some, if_pos hcloses]
  by_cases hdeclared : UInt64.ofNat s.staged.length = s.declaredCount
  · have hpublished : publication before record = some txn.staged := by
      rw [publication, hfound]
      exact if_pos ⟨hcloses, by rw [hcount, ← hdeclared, hstaged]⟩
    refine ⟨((s.publish record.newSequence).leave).advance (encode record).length, ?_, ?_,
      fun _ => hbehind, fun hactive => ?_, ?_, ?_⟩
    · rw [replayRecord_commit hcloses.1 htxn (hcloses.2.trans hid.symm) hread hdeclared, if_pos hdigest]
    · simp [Replay.advance, Replay.leave, Replay.publish, h.offset, encodeAll_append]
    · cases hactive
    · rw [publications_snoc, hpublished, List.flatMap_append, ← h.records]
      simp [Replay.advance, Replay.leave, Replay.publish, hstaged]
    · rw [publications_snoc, hpublished]
      simp [Replay.advance, Replay.leave, Replay.publish]
  · have hnone : publication before record = none := by
      rw [publication, hfound]
      refine if_neg ?_
      rintro ⟨-, hdeclares⟩
      refine hdeclared ?_
      rw [hcount, ← hstaged] at hdeclares
      exact (Except.ok.inj hdeclares).symm
    refine ⟨((s.diagnose "ignored transaction with mismatched declared record count").leave).advance
      (encode record).length, ?_, h.unpublished hnone ⟨rfl, rfl⟩ rfl (fun _ => hbehind) fun hactive => ?_⟩
    · rw [replayRecord, if_neg htype, if_pos ⟨hcloses.1, htxn, hcloses.2.trans hid.symm⟩, hread]
      dsimp only
      rw [if_pos hdeclared]
    · cases hactive

theorem Tracks.call {log : AppendLog} {before : List StateRecord} {s : Replay} {call : LogCall}
    (h : Tracks before s) (hlog : log.bytes = encodeAll before) (hplain : call.Plain) (rest : Bytes) :
    ∃ t, replayRecord (log.bytes ++ rest) s (call.record log) (encode (call.record log)).length = .next t ∧
      Tracks (before ++ [call.record log]) t := by
  have hread (word : UInt64) : readU64Le (appendU64Le [] word) 0 = .ok word := by
    rw [appendU64Le_eq]
    exact readU64Le_bytes word
  cases call with
  | begin txnId baseSequence count => exact h.begin rfl (hread count)
  | append record =>
    obtain ⟨hbegin, hcommit⟩ := not_or.mp hplain.1
    exact h.other hbegin fun txn _ => not_closes_of_type hcommit txn.opener
  | commit txnId newSequence =>
    by_cases hcloses : ∃ txn, openTxn before = some txn ∧
        (LogCall.record log (.commit txnId newSequence)).Closes txn.opener
    · obtain ⟨txn, hfound, hcloses⟩ := hcloses
      refine h.close hfound hcloses (hread _) ?_
      rw [h.offset, ← hlog, List.take_left' rfl]
      exact UInt32.toNat_inj.mp (by simp)
    · exact h.other (show StateRecordType.txnCommit ≠ .txnBegin by decide) fun txn hfound hcloses' =>
        hcloses ⟨txn, hfound, hcloses'⟩

theorem replay_written {calls : List LogCall} :
    ∀ {log : AppendLog} {before : List StateRecord} {s : Replay}, (∀ call ∈ calls, call.Plain) →
      log.bytes = encodeAll before → Tracks before s →
        ∃ t, replay (log.bytes ++ encodeAll (LogCall.written log calls)) s = t ∧
          Tracks (before ++ LogCall.written log calls) t := by
  induction calls with
  | nil =>
    intro log before s _ hlog htracks
    refine ⟨s, replay_end ?_, by simpa [LogCall.written, Runs.trace] using htracks⟩
    simp [LogCall.written, Runs.trace, htracks.offset, hlog]
  | cons call calls ih =>
    intro log before s hplain hlog htracks
    obtain ⟨hcall, hcalls⟩ := List.forall_mem_cons.mp hplain
    rw [LogCall.written_cons, encodeAll_cons]
    obtain ⟨t, hturn, ht⟩ := htracks.call hlog hcall
      (encode (call.record log) ++ encodeAll (LogCall.written (call.exec log) calls))
    have hbytes : (call.exec log).bytes = log.bytes ++ encode (call.record log) := by
      rw [LogCall.exec_eq]
      rfl
    obtain ⟨u, hreplay, hu⟩ := @ih (call.exec log) _ t hcalls
      (by rw [hbytes, hlog, encodeAll_append, encodeAll_cons, encodeAll_nil, List.append_nil]) ht
    rw [hbytes, List.append_assoc] at hreplay
    refine ⟨u, ?_, by simpa using hu⟩
    rw [replay_segment (isSegment_encode (hcall.fits log)) (by rw [htracks.offset, hlog]) hturn]
    exact hreplay

namespace AppendLog

/-- **What a log of any calls replays**: the records its commits publish, in the order of the commits, and
the sequence of the last that publishes. -/
theorem replay_calls (calls : List LogCall) (hplain : ∀ call ∈ calls, call.Plain) :
    let log := calls.foldl LogCall.exec {}
    log.replay = (publications [] (LogCall.written {} calls)).flatMap Prod.snd ∧
      (recoverLog log.bytes).sequence =
        ((publications [] (LogCall.written {} calls)).getLast?.map Prod.fst).getD 0 := by
  intro log
  obtain ⟨t, hreplay, ht⟩ := @replay_written calls {} [] {} hplain rfl tracks_nil
  have hbytes : log.bytes = [] ++ encodeAll (LogCall.written {} calls) := LogCall.foldl_exec_bytes {} calls
  have hresult : (recoverLog log.bytes).committedRecords = t.result.committedRecords ∧
      (recoverLog log.bytes).sequence = t.result.sequence := by
    rw [recoverLog_eq, hbytes, hreplay, Replay.finish]
    split_ifs
    · exact ⟨rfl, rfl⟩
    · exact ⟨rfl, rfl⟩
  exact ⟨hresult.1.trans ht.records, hresult.2.trans ht.sequence⟩

/-- A transaction begun again, one that stages the commit of another and is closed twice, and one with a
wrong count. -/
theorem replay_calls_tangled :
    let delta (txnId : UInt64) : LogCall := .append ⟨.graphDelta, txnId, 0, 0, [1]⟩
    let calls : List LogCall := [.begin 1 0 1, delta 1, .begin 2 0 2, delta 2, .commit 1 5, .commit 2 6,
      .commit 2 7, .begin 3 0 2, delta 3, .commit 3 8]
    let log := calls.foldl LogCall.exec {}
    (log.replay.map fun record => (record.type, record.txnId)) = [(.graphDelta, 2), (.txnCommit, 1)] ∧
      (recoverLog log.bytes).sequence = 6 := by
  intro delta calls log
  obtain ⟨hrecords, hsequence⟩ := replay_calls calls (by decide)
  exact ⟨(congrArg _ hrecords).trans (by decide), hsequence.trans (by decide)⟩

end AppendLog

end Forge
