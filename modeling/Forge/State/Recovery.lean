import Forge.State.Codec

/-!
# The append log and its replay

`AppendLog` of `append_log.cpp` and `recover_log` of `recovery.cpp`. The loop of `recover_log` is
`replayLoop`: `replayTurn` is its body, which either breaks out of the loop or goes on, and
`replayRecord` is the part of the body behind a decoded record. Every turn that goes on moves the
offset forward, so the size of the log bounds the number of turns (`replay_eq`).
-/

namespace Forge

open StateCodec

/-! ## The append log -/

/-- `AppendLog`; none of its operations can fail. -/
structure AppendLog where
  bytes : Bytes := []
deriving DecidableEq, Repr

namespace AppendLog

def append (log : AppendLog) (record : StateRecord) : AppendLog :=
  ⟨log.bytes ++ encode record⟩

def begin (log : AppendLog) (txnId baseSequence count : UInt64) : AppendLog :=
  log.append ⟨.txnBegin, txnId, baseSequence, 0, appendU64Le [] count⟩

def commit (log : AppendLog) (txnId newSequence : UInt64) : AppendLog :=
  log.append ⟨.txnCommit, txnId, 0, newSequence, appendU64Le [] (crc32c log.bytes).toUInt64⟩

end AppendLog

/-! ## Recovery -/

structure RecoveryResult where
  sequence : UInt64 := 0
  committedRecords : List StateRecord := []
  diagnostics : List Str := []
deriving DecidableEq, Repr

/-- The local variables of `recover_log`. -/
structure Replay where
  result : RecoveryResult := {}
  offset : Nat := 0
  inTxn : Bool := false
  txnId : UInt64 := 0
  declaredCount : UInt64 := 0
  staged : List StateRecord := []
deriving DecidableEq, Repr

/-- One turn of the loop either breaks or goes on. -/
inductive Turn
  | stop (s : Replay)
  | next (s : Replay)
deriving DecidableEq, Repr

namespace Replay

/-- `result.diagnostics.push_back(message)`. -/
def diagnose (s : Replay) (message : Str) : Replay :=
  { s with result := { s.result with diagnostics := s.result.diagnostics ++ [message] } }

/-- `in_txn = false; staged.clear()`. -/
def leave (s : Replay) : Replay := { s with inTxn := false, staged := [] }

/-- `offset += consumed`. -/
def advance (s : Replay) (consumed : Nat) : Replay := { s with offset := s.offset + consumed }

/-- Publish the staged records. -/
def publish (s : Replay) (newSequence : UInt64) : Replay :=
  { s with
    result :=
      { s.result with
        committedRecords := s.result.committedRecords ++ s.staged
        sequence := newSequence } }

@[simp] theorem advance_offset (s : Replay) (n : Nat) : (s.advance n).offset = s.offset + n := rfl
@[simp] theorem advance_inTxn (s : Replay) (n : Nat) : (s.advance n).inTxn = s.inTxn := rfl
@[simp] theorem advance_result (s : Replay) (n : Nat) : (s.advance n).result = s.result := rfl

end Replay

/-- The part of the loop body behind a successful `decode`. -/
def replayRecord (bytes : Bytes) (s : Replay) (record : StateRecord) (consumed : Nat) : Turn :=
  if record.type = .txnBegin then
    match readU64Le record.payload 0 with
    | .error _ => .stop (s.diagnose "transaction begin missing declared count")
    | .ok count =>
      .next ({ s with
        inTxn := true, txnId := record.txnId, declaredCount := count, staged := [] }.advance consumed)
  else if record.type = .txnCommit ∧ s.inTxn ∧ record.txnId = s.txnId then
    match readU64Le record.payload 0 with
    | .error _ => .stop (s.diagnose "transaction commit missing digest")
    | .ok expectedCrc =>
      -- `staged.size()` is a 64-bit `size_t`
      if UInt64.ofNat s.staged.length ≠ s.declaredCount then
        .next (((s.diagnose "ignored transaction with mismatched declared record count").leave).advance
          consumed)
      else if crc32c (bytes.take s.offset) ≠ expectedCrc.toUInt32 then
        .next (((s.diagnose "ignored transaction with commit digest mismatch").leave).advance consumed)
      else
        .next (((s.publish record.newSequence).leave).advance consumed)
  else if s.inTxn then
    .next ({ s with staged := s.staged ++ [record] }.advance consumed)
  else
    .next (s.advance consumed)

/-- The body of the loop of `recover_log`. -/
def replayTurn (bytes : Bytes) (s : Replay) : Turn :=
  match decode (bytes.drop s.offset) with
  | .error status => .stop (s.diagnose status.message)
  | .ok (record, consumed) => replayRecord bytes s record consumed

/-- `while (offset < bytes.size())`, for at most `fuel` turns. -/
def replayLoop (bytes : Bytes) : Nat → Replay → Replay
  | 0, s => s
  | fuel + 1, s =>
    if s.offset < bytes.length then
      match replayTurn bytes s with
      | .stop s => s
      | .next s => replayLoop bytes fuel s
    else s

/-- What `recover_log` does behind its loop. -/
def Replay.finish (s : Replay) : RecoveryResult :=
  if s.inTxn then (s.diagnose "ignored partial transaction tail").result else s.result

def recoverLog (bytes : Bytes) : RecoveryResult :=
  (replayLoop bytes bytes.length {}).finish

def AppendLog.replay (log : AppendLog) : List StateRecord := (recoverLog log.bytes).committedRecords

/-! ## The branches of the loop body -/

theorem replayRecord_begin {bytes : Bytes} {s : Replay} {record : StateRecord} {consumed : Nat}
    {count : UInt64} (htype : record.type = .txnBegin) (hread : readU64Le record.payload 0 = .ok count) :
    replayRecord bytes s record consumed =
      .next ({ s with
        inTxn := true, txnId := record.txnId, declaredCount := count, staged := [] }.advance
          consumed) := by
  rw [replayRecord, if_pos htype, hread]

theorem replayRecord_commit {bytes : Bytes} {s : Replay} {record : StateRecord} {consumed : Nat}
    {digest : UInt64} (htype : record.type = .txnCommit) (htxn : s.inTxn = true)
    (hid : record.txnId = s.txnId) (hread : readU64Le record.payload 0 = .ok digest)
    (hcount : UInt64.ofNat s.staged.length = s.declaredCount) :
    replayRecord bytes s record consumed =
      if crc32c (bytes.take s.offset) = digest.toUInt32 then
        .next (((s.publish record.newSequence).leave).advance consumed)
      else
        .next (((s.diagnose "ignored transaction with commit digest mismatch").leave).advance
          consumed) := by
  have hbegin : record.type ≠ .txnBegin := by
    rw [htype]
    decide
  rw [replayRecord, if_neg hbegin, if_pos ⟨htype, htxn, hid⟩, hread]
  simp only [hcount, ne_eq, not_true_eq_false, if_false, ite_not]

theorem replayRecord_staged {bytes : Bytes} {s : Replay} {record : StateRecord} {consumed : Nat}
    (hbegin : record.type ≠ .txnBegin) (hcommit : record.type ≠ .txnCommit) (htxn : s.inTxn = true) :
    replayRecord bytes s record consumed =
      .next ({ s with staged := s.staged ++ [record] }.advance consumed) := by
  rw [replayRecord, if_neg hbegin, if_neg (fun h => hcommit h.1), if_pos htxn]

/-- What the body makes of a decoded record when the loop goes on. -/
inductive Consumes (bytes : Bytes) (s : Replay) (record : StateRecord) : Replay → Prop
  | begins (count : UInt64) (htype : record.type = .txnBegin)
      (hread : readU64Le record.payload 0 = .ok count) :
      Consumes bytes s record
        { s with inTxn := true, txnId := record.txnId, declaredCount := count, staged := [] }
  | ignores (message : Str) (htype : record.type = .txnCommit) (htxn : s.inTxn = true)
      (hid : record.txnId = s.txnId) : Consumes bytes s record (s.diagnose message).leave
  | publishes (digest : UInt64) (htype : record.type = .txnCommit) (htxn : s.inTxn = true)
      (hid : record.txnId = s.txnId) (hread : readU64Le record.payload 0 = .ok digest)
      (hcount : UInt64.ofNat s.staged.length = s.declaredCount)
      (hdigest : crc32c (bytes.take s.offset) = digest.toUInt32) :
      Consumes bytes s record (s.publish record.newSequence).leave
  | stages (hbegin : record.type ≠ .txnBegin)
      (hcommit : ¬ (record.type = .txnCommit ∧ record.txnId = s.txnId)) (htxn : s.inTxn = true) :
      Consumes bytes s record { s with staged := s.staged ++ [record] }
  | skips (hbegin : record.type ≠ .txnBegin) (htxn : s.inTxn = false) : Consumes bytes s record s

theorem replayRecord_next {bytes : Bytes} {s t : Replay} {record : StateRecord} {consumed : Nat}
    (h : replayRecord bytes s record consumed = .next t) :
    ∃ u, Consumes bytes s record u ∧ t = u.advance consumed := by
  unfold replayRecord at h
  split at h
  · rename_i htype
    split at h
    · cases h
    · rename_i count hread
      cases h
      exact ⟨_, .begins count htype hread, rfl⟩
  rename_i hbegin
  split at h
  · rename_i hcommit
    obtain ⟨htype, htxn, hid⟩ := hcommit
    split at h
    · cases h
    · rename_i digest hread
      split_ifs at h with hcount hdigest
      · cases h
        exact ⟨_, .ignores _ htype htxn hid, rfl⟩
      · cases h
        exact ⟨_, .ignores _ htype htxn hid, rfl⟩
      · cases h
        exact ⟨_, .publishes digest htype htxn hid hread (not_not.mp hcount) (not_not.mp hdigest), rfl⟩
  · rename_i hcommit
    split_ifs at h with htxn
    · cases h
      exact ⟨_, .stages hbegin (fun hc => hcommit ⟨hc.1, htxn, hc.2⟩) htxn, rfl⟩
    · cases h
      exact ⟨_, .skips hbegin (by simpa using htxn), rfl⟩

theorem replayTurn_next {bytes : Bytes} {s t : Replay} (h : replayTurn bytes s = .next t) :
    ∃ record consumed u, decode (bytes.drop s.offset) = .ok (record, consumed) ∧
      Consumes bytes s record u ∧ t = u.advance consumed := by
  unfold replayTurn at h
  split at h
  · cases h
  · rename_i record consumed hdecode
    obtain ⟨u, hu, ht⟩ := replayRecord_next h
    exact ⟨record, consumed, u, hdecode, hu, ht⟩

theorem replayTurn_stop {bytes : Bytes} {s t : Replay} (h : replayTurn bytes s = .stop t) :
    ∃ message, t = s.diagnose message := by
  unfold replayTurn at h
  split at h
  · cases h
    exact ⟨_, rfl⟩
  · unfold replayRecord at h
    split at h
    · split at h
      · cases h
        exact ⟨_, rfl⟩
      · cases h
    · split at h
      · split at h
        · cases h
          exact ⟨_, rfl⟩
        · split_ifs at h
      · split_ifs at h

/-! ## The loop does not run out of turns -/

theorem replayTurn_next_offset {bytes : Bytes} {s t : Replay} (h : replayTurn bytes s = .next t)
    (hlt : s.offset < bytes.length) : s.offset < t.offset ∧ t.offset ≤ bytes.length := by
  obtain ⟨record, consumed, u, hdecode, hu, rfl⟩ := replayTurn_next h
  have hconsumed := decode_consumed hdecode
  have hoffset : u.offset = s.offset := by cases hu <;> rfl
  rw [List.length_drop] at hconsumed
  rw [Replay.advance_offset, hoffset]
  omega

theorem replayLoop_fuel (bytes : Bytes) (fuel : Nat) (s : Replay)
    (h : bytes.length - s.offset ≤ fuel) :
    replayLoop bytes fuel s = replayLoop bytes (bytes.length - s.offset) s := by
  induction fuel using Nat.strong_induction_on generalizing s with
  | _ fuel ih =>
    rcases Nat.lt_or_ge s.offset bytes.length with hlt | hge
    · obtain ⟨left, hleft⟩ : ∃ left, bytes.length - s.offset = left + 1 :=
        ⟨bytes.length - s.offset - 1, by omega⟩
      obtain ⟨fuel, rfl⟩ : ∃ n, fuel = n + 1 := ⟨fuel - 1, by omega⟩
      rw [hleft, replayLoop, replayLoop, if_pos hlt, if_pos hlt]
      cases hturn : replayTurn bytes s with
      | stop t => rfl
      | next t =>
        have hoffset := replayTurn_next_offset hturn hlt
        show replayLoop bytes fuel t = replayLoop bytes left t
        rw [ih fuel (by omega) t (by omega)]
        rcases Nat.lt_or_ge left (fuel + 1) with hl | hl
        · rw [ih left (by omega) t (by omega)]
        · omega
    · have hstop (n : Nat) : replayLoop bytes n s = s := by
        cases n with
        | zero => rfl
        | succ n => rw [replayLoop, if_neg (by omega)]
      rw [hstop, hstop]

/-- The loop run to its end. -/
def replay (bytes : Bytes) (s : Replay) : Replay := replayLoop bytes (bytes.length - s.offset) s

theorem recoverLog_eq (bytes : Bytes) : recoverLog bytes = (replay bytes {}).finish := rfl

theorem replay_eq (bytes : Bytes) (s : Replay) :
    replay bytes s =
      if s.offset < bytes.length then
        match replayTurn bytes s with
        | .stop s => s
        | .next s => replay bytes s
      else s := by
  by_cases hlt : s.offset < bytes.length
  · obtain ⟨left, hleft⟩ : ∃ left, bytes.length - s.offset = left + 1 :=
      ⟨bytes.length - s.offset - 1, by omega⟩
    rw [replay, hleft, replayLoop, if_pos hlt, if_pos hlt]
    cases hturn : replayTurn bytes s with
    | stop t => rfl
    | next t =>
      have hoffset := replayTurn_next_offset hturn hlt
      exact replayLoop_fuel bytes left t (by omega)
  · rw [if_neg hlt, replay, show bytes.length - s.offset = 0 by omega]
    rfl

theorem replay_invariant {P : Replay → Prop} {bytes : Bytes}
    (hstop : ∀ s t, P s → replayTurn bytes s = .stop t → P t)
    (hnext : ∀ s t, P s → replayTurn bytes s = .next t → P t) {s : Replay} (hs : P s) :
    P (replay bytes s) := by
  have hloop (fuel : Nat) : ∀ s, P s → P (replayLoop bytes fuel s) := by
    induction fuel with
    | zero => exact fun s hs => hs
    | succ fuel ih =>
      intro s hs
      rw [replayLoop]
      split_ifs
      · cases hturn : replayTurn bytes s with
        | stop t => exact hstop s t hs hturn
        | next t => exact ih t (hnext s t hs hturn)
      · exact hs
  exact hloop _ s hs

theorem replay_end {bytes : Bytes} {s : Replay} (h : bytes.length ≤ s.offset) : replay bytes s = s := by
  rw [replay_eq, if_neg (by omega)]

/-! ## What is recovered could have been written -/

/-- All records the loop holds have a size the encoder can write. -/
structure Replay.AllFit (s : Replay) : Prop where
  staged : ∀ record ∈ s.staged, Fits record
  committed : ∀ record ∈ s.result.committedRecords, Fits record

theorem Replay.AllFit.next {bytes : Bytes} {s t : Replay} (hs : s.AllFit)
    (h : replayTurn bytes s = .next t) : t.AllFit := by
  obtain ⟨record, consumed, u, hdecode, hu, rfl⟩ := replayTurn_next h
  cases hu with
  | begins => exact ⟨by simp [Replay.advance], hs.committed⟩
  | ignores => exact ⟨by simp [Replay.advance, Replay.leave], hs.committed⟩
  | publishes =>
    refine ⟨by simp [Replay.advance, Replay.leave], fun r hr => ?_⟩
    simp only [Replay.advance, Replay.leave, Replay.publish, List.mem_append] at hr
    exact hr.elim (hs.committed r) (hs.staged r)
  | stages =>
    refine ⟨fun r hr => ?_, hs.committed⟩
    simp only [Replay.advance, List.mem_append, List.mem_singleton] at hr
    rcases hr with hr | rfl
    · exact hs.staged r hr
    · exact decode_fits hdecode
  | skips => exact ⟨hs.staged, hs.committed⟩

theorem recoverLog_fits (bytes : Bytes) : ∀ record ∈ (recoverLog bytes).committedRecords, Fits record := by
  have hend : (replay bytes {}).AllFit := by
    refine replay_invariant (fun s t hs h => ?_) (fun s t hs h => hs.next h) ⟨by simp, by simp⟩
    obtain ⟨message, rfl⟩ := replayTurn_stop h
    exact ⟨hs.staged, hs.committed⟩
  rw [recoverLog_eq, Replay.finish]
  split_ifs
  · exact hend.committed
  · exact hend.committed

end Forge
