import Forge.State.Publication

/-!
# Truncated logs

`recover_log` on the first bytes of a log takes the turns it takes on the whole log, up to the record
the cut falls into (`logTurns_take`). A cut inside padding makes the last record shorter, but then
nothing follows it; and the digest of a commit covers only what lies before it. So a truncated log
recovers a prefix, whatever its bytes are.
-/

namespace Forge

open StateCodec

/-! ## One turn -/

theorem replayRecord_take {bytes : Bytes} {s : Replay} {n : Nat} (h : s.offset ≤ n)
    (record : StateRecord) (consumed : Nat) :
    replayRecord (bytes.take n) s record consumed = replayRecord bytes s record consumed := by
  unfold replayRecord
  rw [List.take_take, Nat.min_eq_left h]

theorem publishes_take {bytes : Bytes} {turn : LogTurn} {n : Nat} (h : turn.state.offset ≤ n) :
    turn.publishes (bytes.take n) = turn.publishes bytes := by
  unfold LogTurn.publishes
  rw [List.take_take, Nat.min_eq_left h]

theorem replayRecord_consumed {bytes : Bytes} {s t : Replay} {record : StateRecord} {consumed : Nat}
    (h : replayRecord bytes s record consumed = .next t) (consumed' : Nat) :
    t.offset = s.offset + consumed ∧
      replayRecord bytes s record consumed' = .next { t with offset := s.offset + consumed' } := by
  unfold replayRecord at h ⊢
  cases hread : readU64Le record.payload 0 with
  | error status =>
    simp only [hread] at h ⊢
    split_ifs at h ⊢
    · cases h
      exact ⟨rfl, rfl⟩
    · cases h
      exact ⟨rfl, rfl⟩
  | ok value =>
    simp only [hread] at h ⊢
    split_ifs at h ⊢ <;>
    · cases h
      exact ⟨rfl, rfl⟩

theorem decode_drop_take {bytes : Bytes} {n offset : Nat} {record : StateRecord} {consumed : Nat}
    (hoffset : offset < (bytes.take n).length)
    (h : decode ((bytes.take n).drop offset) = .ok (record, consumed)) :
    ∃ consumed', decode (bytes.drop offset) = .ok (record, consumed') ∧
      (consumed' = consumed ∨ (bytes.take n).length ≤ offset + consumed) := by
  have hsplit : bytes.drop offset = (bytes.take n).drop offset ++ bytes.drop n := by
    rw [← List.drop_append_of_le_length hoffset.le, List.take_append_drop]
  obtain ⟨consumed', hdecode, hsame⟩ := decode_append h (bytes.drop n)
  rw [hsplit]
  refine ⟨consumed', hdecode, hsame.imp_right fun hall => ?_⟩
  rw [List.length_drop] at hall
  omega

/-! ## The run on a truncated log -/

theorem LogRun.eq_nil {bytes : Bytes} {s t : Replay} {turns : List LogTurn} (h : LogRun bytes s turns t)
    (hend : bytes.length ≤ s.offset) : turns = [] := by
  cases h with
  | done => rfl
  | stop => rfl
  | turn hlt => omega

theorem LogRun.cons_inv {bytes : Bytes} {s t u : Replay} {turns : List LogTurn}
    (h : LogRun bytes s turns u) {record : StateRecord} {consumed : Nat} (hlt : s.offset < bytes.length)
    (hdecode : decode (bytes.drop s.offset) = .ok (record, consumed))
    (hnext : replayRecord bytes s record consumed = .next t) :
    ∃ later, turns = ⟨s, record⟩ :: later ∧ LogRun bytes t later u := by
  cases h with
  | done hend => omega
  | stop message _ hturn =>
    rw [replayTurn, hdecode] at hturn
    simp only [hnext] at hturn
    cases hturn
  | turn _ hdecode' hnext' htail =>
    rw [hdecode] at hdecode'
    cases hdecode'
    rw [hnext] at hnext'
    cases hnext'
    exact ⟨_, rfl, htail⟩

/-- Two runs from the same variables, one on a truncated log: as long as the truncated one goes on,
the other takes the same turns. -/
theorem LogRun.take {bytes : Bytes} {n : Nat} {s t : Replay} {turns : List LogTurn}
    (h : LogRun (bytes.take n) s turns t) :
    ∀ {turns' : List LogTurn} {t' : Replay}, LogRun bytes s turns' t' → turns <+: turns' := by
  induction h with
  | done => exact fun _ => List.nil_prefix
  | stop => exact fun _ => List.nil_prefix
  | @turn s t u record consumed turns hlt hdecode hnext htail ih =>
    intro turns' t' hrun
    have hsize : (bytes.take n).length ≤ n ∧ (bytes.take n).length ≤ bytes.length :=
      ⟨List.length_take_le n bytes, List.length_take_le' n bytes⟩
    obtain ⟨consumed', hdecode', hsame⟩ := decode_drop_take hlt hdecode
    rw [replayRecord_take (by omega)] at hnext
    obtain ⟨hoffset, hnext'⟩ := replayRecord_consumed hnext consumed'
    obtain ⟨later, rfl, hlater⟩ := hrun.cons_inv (by omega) hdecode' hnext'
    rcases hsame with rfl | hend
    · rw [← hoffset] at hlater
      exact List.cons_prefix_cons.mpr ⟨rfl, ih hlater⟩
    · -- the cut is in the padding of this record, which is the last one of the truncated log
      rw [htail.eq_nil (by omega)]
      exact List.cons_prefix_cons.mpr ⟨rfl, List.nil_prefix⟩

theorem logTurns_take (bytes : Bytes) (n : Nat) : logTurns (bytes.take n) <+: logTurns bytes :=
  (logRun (bytes.take n)).take (logRun bytes)

theorem LogRun.offset_lt {bytes : Bytes} {s t : Replay} {turns : List LogTurn}
    (h : LogRun bytes s turns t) : ∀ turn ∈ turns, turn.state.offset < bytes.length := by
  induction h with
  | done => simp
  | stop => simp
  | turn hlt _ _ _ ih =>
    intro turn hturn
    rcases List.mem_cons.mp hturn with rfl | hturn
    · exact hlt
    · exact ih turn hturn

theorem acceptedCommits_take (bytes : Bytes) (n : Nat) :
    acceptedCommits (bytes.take n) <+: acceptedCommits bytes := by
  have hsame : acceptedCommits (bytes.take n) =
      (logTurns (bytes.take n)).filter (LogTurn.publishes bytes) := by
    refine List.filter_congr fun turn hturn => publishes_take ?_
    have hlt := (logRun (bytes.take n)).offset_lt turn hturn
    rw [List.length_take] at hlt
    omega
  rw [hsame]
  exact (logTurns_take bytes n).filter _

/-- **Truncation recovers a prefix**: the loop ends on the first `n` bytes of any log, what it
publishes is a prefix of what the whole log publishes, and with the same accepted commits it ends with
the same sequence. -/
theorem recoverLog_take (bytes : Bytes) (n : Nat) :
    (∃ turns t, LogRun (bytes.take n) {} turns t ∧ recoverLog (bytes.take n) = t.finish) ∧
      (recoverLog (bytes.take n)).committedRecords <+: (recoverLog bytes).committedRecords ∧
      ((acceptedCommits (bytes.take n)).map (·.record) = (acceptedCommits bytes).map (·.record) →
        (recoverLog (bytes.take n)).sequence = (recoverLog bytes).sequence) := by
  obtain ⟨hrecords, hsequence⟩ := recoverLog_result (bytes.take n)
  obtain ⟨hrecords', hsequence'⟩ := recoverLog_result bytes
  refine ⟨⟨_, _, logRun (bytes.take n), recoverLog_eq _⟩, ?_, fun hcommits => ?_⟩
  · rw [hrecords, hrecords']
    obtain ⟨later, hlater⟩ := acceptedCommits_take bytes n
    rw [← hlater, List.flatMap_append]
    exact List.prefix_append _ _
  · have hlast (turns : List LogTurn) : turns.getLast?.map (·.record.newSequence) =
        (turns.map (·.record)).getLast?.map (·.newSequence) := by
      rw [List.getLast?_map, Option.map_map]
      rfl
    rw [hsequence, hsequence', hlast, hlast, hcommits]

/-- A torn tail behind a whole transaction, cut inside the tail. -/
theorem recoverLog_take_tail :
    let log := ((({} : AppendLog).begin 1 0 1).append ⟨.jobDelta, 1, 0, 1, [7]⟩).commit 1 1
    (acceptedCommits ((log.bytes ++ [1, 2, 3]).take 145)).map (·.record) =
        (acceptedCommits (log.bytes ++ [1, 2, 3])).map (·.record) ∧
      (recoverLog ((log.bytes ++ [1, 2, 3]).take 145)).sequence =
        (recoverLog (log.bytes ++ [1, 2, 3])).sequence := by
  intro log
  have hcommits : (acceptedCommits ((log.bytes ++ [1, 2, 3]).take 145)).map (·.record) =
      (acceptedCommits (log.bytes ++ [1, 2, 3])).map (·.record) := by
    decide +kernel
  exact ⟨hcommits, (recoverLog_take (log.bytes ++ [1, 2, 3]) 145).2.2 hcommits⟩

end Forge
