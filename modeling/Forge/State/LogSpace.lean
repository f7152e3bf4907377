import Forge.State.CanonicalRecords
import Forge.State.Truncation

/-!
# The space records take up

Every record the loop stages or publishes has been paid for with bytes of the log: a published
transaction with the bytes it would be written with (`LogRun.space`), and whenever the replay adds a
diagnostic, at least one byte was spent on something else. Bytes behind a log change nothing of the
turns on the log itself, except that they complete the padding of its last record (`LogRun.extend`).
-/

namespace Forge

open StateCodec

/-! ## Records with bytes behind them -/

namespace StateCodec

theorem decode_size {bytes : Bytes} {record : StateRecord} {consumed : Nat}
    (h : decode bytes = .ok (record, consumed)) :
    40 + record.payload.length ≤ bytes.length ∧ consumed = min (encode record).length bytes.length := by
  obtain ⟨header, crc, pcrc, body, hok⟩ := decode_ok h
  have hlen := hok.length_payload
  have hbody := hok.len_le
  have hbytes := hok.length_bytes
  have hconsumed := hok.consumed_eq
  rw [hlen] at hconsumed
  rw [length_encode, hconsumed]
  omega

theorem decode_extend {bytes : Bytes} {record : StateRecord} {consumed : Nat}
    (h : decode bytes = .ok (record, consumed)) (rest : Bytes) :
    decode (bytes ++ rest) = .ok (record, min (encode record).length (bytes ++ rest).length) := by
  obtain ⟨consumed', hdecode, -⟩ := decode_append h rest
  rw [hdecode, (decode_size hdecode).2]

end StateCodec

/-! ## Space -/

/-- The bytes an open transaction has been written with so far. -/
def Replay.held (s : Replay) : Nat := if s.inTxn then 48 + (encodeAll s.staged).length else 0

/-- The bytes published transactions would be written with. -/
def published (commits : List LogTurn) : Nat :=
  (commits.map fun turn => 96 + (encodeAll turn.state.staged).length).sum

theorem readU64Le_length {payload : Bytes} {value : UInt64} (h : readU64Le payload 0 = .ok value) :
    8 ≤ payload.length := by
  by_contra hshort
  rw [readU64Le, if_pos (by omega)] at h
  cases h

theorem control_size {bytes : Bytes} {record : StateRecord} {consumed : Nat} {value : UInt64}
    (h : decode bytes = .ok (record, consumed)) (hread : readU64Le record.payload 0 = .ok value) :
    48 ≤ consumed := by
  obtain ⟨hlen, hconsumed⟩ := decode_size h
  have hpayload := readU64Le_length hread
  have hencode := length_encode record
  have hmod := length_encode_mod record
  omega

variable {log : Bytes}

/-- One turn pays for what it adds, unless it stages a record whose padding is cut by the end of the
log. A turn that adds a diagnostic pays for more. -/
theorem turn_space (turn : LogTurn) {consumed : Nat} {t : Replay}
    (hdecode : decode (log.drop turn.state.offset) = .ok (turn.record, consumed))
    (hnext : replayRecord log turn.state turn.record consumed = .next t) :
    (published ([turn].filter (LogTurn.publishes log)) + t.held ≤ turn.state.held + consumed ∧
      (t.result.diagnostics ≠ turn.state.result.diagnostics →
        published ([turn].filter (LogTurn.publishes log)) + t.held < turn.state.held + consumed)) ∨
    (turn.publishes log = false ∧ log.length ≤ t.offset) := by
  have hpos := (decode_consumed hdecode).1
  obtain ⟨hlen, hconsumed⟩ := decode_size hdecode
  rw [List.length_drop] at hconsumed hlen
  by_cases hpublishes : turn.publishes log = true
  · obtain ⟨-, htxn, -, -, digest, hread, -⟩ := publishes_iff.mp hpublishes
    have hsize := control_size hdecode hread
    rw [replayRecord_of_publishes hpublishes] at hnext
    obtain rfl := Turn.next.inj hnext
    refine .inl ⟨?_, fun hdiag => absurd rfl hdiag⟩
    simp only [Replay.held, Replay.advance, Replay.leave, published, List.filter_singleton, hpublishes,
      htxn, cond_true, if_true, List.map_cons, List.map_nil, List.sum_cons, List.sum_nil]
    simp
    omega
  · have hnone : published ([turn].filter (LogTurn.publishes log)) = 0 := by
      rw [List.filter_singleton, Bool.eq_false_iff.mpr hpublishes]
      rfl
    rw [hnone]
    obtain ⟨u, hu, rfl⟩ := replayRecord_next hnext
    cases hu with
    | begins count htype hread =>
      have hsize := control_size hdecode hread
      refine .inl ⟨?_, fun hdiag => absurd rfl hdiag⟩
      simp [Replay.held, Replay.advance]
      omega
    | ignores message htype htxn hid =>
      have hheld : ((turn.state.diagnose message).leave.advance consumed).held = 0 := rfl
      exact .inl ⟨by omega, fun _ => by omega⟩
    | publishes digest htype htxn hid hread hcount hdigest =>
      exact absurd (publishes_iff.mpr ⟨htype, htxn, hid, hcount, digest, hread, hdigest⟩) hpublishes
    | stages hbegin hcommit htxn =>
      by_cases hcut : log.length - turn.state.offset < (encode turn.record).length
      · refine .inr ⟨Bool.eq_false_iff.mpr hpublishes, ?_⟩
        show log.length ≤ turn.state.offset + consumed
        omega
      · refine .inl ⟨?_, fun hdiag => absurd rfl hdiag⟩
        simp [Replay.held, Replay.advance, htxn, encodeAll_append]
        omega
    | skips hbegin htxn =>
      refine .inl ⟨?_, fun hdiag => absurd rfl hdiag⟩
      simp [Replay.held, Replay.advance, htxn]

theorem published_append (commits more : List LogTurn) :
    published (commits ++ more) = published commits + published more := by
  simp [published]

/-- **What is published has been paid for**, and a diagnostic means that not all bytes went there. -/
theorem LogRun.space {s t : Replay} {turns : List LogTurn} (h : LogRun log s turns t)
    (hs : s.offset ≤ log.length) :
    published (turns.filter (LogTurn.publishes log)) + s.offset ≤ log.length + s.held ∧
      (t.finish.diagnostics ≠ s.result.diagnostics →
        published (turns.filter (LogTurn.publishes log)) + s.offset < log.length + s.held) := by
  induction h with
  | @done s hend =>
    refine ⟨by simpa [published] using by omega, fun hdiag => ?_⟩
    -- the transaction that is still open
    have htxn : s.inTxn = true := by
      by_contra hout
      rw [Replay.finish, if_neg hout] at hdiag
      exact hdiag rfl
    simp [published, Replay.held, htxn]
    omega
  | @stop s message hlt hturn =>
    refine ⟨by simpa [published] using by omega, fun _ => by simpa [published] using by omega⟩
  | @turn s t u record consumed turns hlt hdecode hnext htail ih =>
    have hoffset : t.offset = s.offset + consumed := (replayRecord_consumed hnext consumed).1
    have hle := (decode_consumed hdecode).2
    rw [List.length_drop] at hle
    obtain ⟨hspace, hstrict⟩ := ih (by omega)
    have hsplit : published ((⟨s, record⟩ :: turns).filter (LogTurn.publishes log)) =
        published ([(⟨s, record⟩ : LogTurn)].filter (LogTurn.publishes log)) +
          published (turns.filter (LogTurn.publishes log)) := by
      rw [← published_append, ← List.filter_append]
      rfl
    rw [hsplit]
    rcases turn_space ⟨s, record⟩ hdecode hnext with ⟨hturn, hmore⟩ | ⟨hnot, hend⟩
    · dsimp only at hturn hmore
      refine ⟨by omega, fun hdiag => ?_⟩
      by_cases hsame : t.result.diagnostics = s.result.diagnostics
      · have hrest := hstrict (by rwa [hsame])
        omega
      · have hrest := hmore hsame
        omega
    · rw [htail.eq_nil hend]
      simp [published, hnot]
      omega

end Forge
