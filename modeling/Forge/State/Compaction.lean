import Forge.State.CrashConsistency

/-!
# Compaction

`clean_log_bytes` on arbitrary bytes: a log that replays without a diagnostic is kept as it is, and of
any other the committed records are written again, as one transaction (`Cleans`). Either way the result
replays without a diagnostic to the same records and the same sequence, and cleaning it again changes
nothing (`compaction_preserves`).
-/

namespace Forge

namespace FileStateStore

theorem appendRecords_noControl {txnId : UInt64} {records : List StateRecord} {log after : AppendLog}
    (h : appendRecords txnId records log = .ok after) : ∀ r ∈ records, ¬ r.Control := by
  induction records generalizing log with
  | nil => simp
  | cons record records ih =>
    unfold appendRecords at h
    by_cases hcontrol : record.Control
    · rw [if_pos hcontrol] at h
      cases h
    · rw [if_neg hcontrol] at h
      exact List.forall_mem_cons.mpr ⟨hcontrol, ih h⟩

theorem writeTransaction_noControl {log after : AppendLog} {txnId baseSequence newSequence : UInt64}
    {records : List StateRecord}
    (h : writeTransaction log txnId baseSequence newSequence records = .ok after) :
    ∀ r ∈ records, ¬ r.Control := by
  unfold writeTransaction at h
  cases happend : appendRecords txnId records
      (log.begin txnId baseSequence (UInt64.ofNat records.length)) with
  | error status =>
    rw [happend] at h
    cases h
  | ok log => exact appendRecords_noControl happend

theorem encodeTransaction_noControl {txnId baseSequence newSequence : UInt64} {records : List StateRecord}
    {bytes : Bytes} (h : encodeTransaction txnId baseSequence newSequence records = .ok bytes) :
    ∀ r ∈ records, ¬ r.Control := by
  unfold encodeTransaction at h
  cases hwrite : writeTransaction {} txnId baseSequence newSequence records with
  | error status =>
    rw [hwrite] at h
    cases h
  | ok log => exact writeTransaction_noControl hwrite

/-- The transaction a compaction writes for what it has recovered. -/
def merged (found : RecoveryResult) : Txn :=
  stamped kCompactionTxnId 0 found.sequence found.committedRecords

/-- The ways `clean_log_bytes` can return bytes. -/
inductive Cleans (bytes : Bytes) : Bytes → Prop
  | intact (hintact : (recoverLog bytes).diagnostics = []) : Cleans bytes bytes
  | drops (hdamaged : (recoverLog bytes).diagnostics ≠ [])
      (hempty : (recoverLog bytes).committedRecords = []) : Cleans bytes []
  | merges (hdamaged : (recoverLog bytes).diagnostics ≠ [])
      (hok : StoreStep.RecordsOk (recoverLog bytes).committedRecords) :
      Cleans bytes (logBytes [] [merged (recoverLog bytes)])

theorem cleanLogBytes_of_intact {bytes : Bytes} (h : (recoverLog bytes).diagnostics = []) :
    cleanLogBytes bytes = .ok bytes := by
  unfold cleanLogBytes
  by_cases hnil : bytes = []
  · rw [if_pos hnil, hnil]
  · rw [if_neg hnil]
    exact if_pos h

theorem cleanLogBytes_ok {bytes clean : Bytes} (h : cleanLogBytes bytes = .ok clean) :
    Cleans bytes clean := by
  by_cases hintact : (recoverLog bytes).diagnostics = []
  · rw [cleanLogBytes_of_intact hintact] at h
    obtain rfl := Except.ok.inj h
    exact .intact hintact
  have hnil : bytes ≠ [] := fun hnil => hintact (by rw [hnil, recoverLog_nil])
  rw [cleanLogBytes, if_neg hnil] at h
  simp only [if_neg hintact] at h
  by_cases hempty : (recoverLog bytes).committedRecords = []
  · rw [if_pos hempty] at h
    obtain rfl := Except.ok.inj h
    exact .drops hintact hempty
  · rw [if_neg hempty] at h
    have hnoControl := encodeTransaction_noControl h
    rw [encodeTransaction_eq hnoControl] at h
    obtain rfl := Except.ok.inj h
    -- what was recovered has been decoded, so it can be written
    exact .merges hintact
      ⟨hempty, fun record hrecord => ⟨hnoControl record hrecord, recoverLog_fits bytes record hrecord⟩⟩

theorem recoverLog_merged {found : RecoveryResult} (hok : StoreStep.RecordsOk found.committedRecords) :
    recoverLog (logBytes [] [merged found]) =
      { sequence := found.sequence, committedRecords := (merged found).records } :=
  recoverLog_log (stamped_whole hok kCompactionTxnId 0 found.sequence).valid

/-- **Compaction keeps the recovered state.** What `clean_log_bytes` returns for any bytes replays
cleanly to the records of these bytes, up to transaction ids, and with a record among them to their
sequence; cleaned again it stays as it is. -/
theorem compaction_preserves {bytes clean : Bytes} (h : cleanLogBytes bytes = .ok clean) :
    (recoverLog clean).diagnostics = [] ∧
      (recoverLog clean).committedRecords.map sansTxnId =
        (recoverLog bytes).committedRecords.map sansTxnId ∧
      ((recoverLog bytes).committedRecords ≠ [] →
        (recoverLog clean).sequence = (recoverLog bytes).sequence) ∧
      cleanLogBytes clean = .ok clean := by
  cases cleanLogBytes_ok h with
  | intact hintact => exact ⟨hintact, rfl, fun _ => rfl, h⟩
  | drops hdamaged hempty =>
    rw [hempty]
    exact ⟨rfl, rfl, fun hrecords => absurd rfl hrecords, rfl⟩
  | merges hdamaged hok =>
    have hagain := recoverLog_merged hok
    refine ⟨by rw [hagain], ?_, fun _ => by rw [hagain], cleanLogBytes_of_intact (by rw [hagain])⟩
    rw [hagain]
    exact map_sansTxnId_stamp _ _

/-- A transaction with a part of a record behind it. -/
theorem compaction_preserves_torn :
    let bytes := logBytes [] [stamped 1 0 2 [⟨.graphDelta, 1, 0, 2, [1]⟩]] ++ [48, 0, 0]
    let clean := logBytes [] [stamped kCompactionTxnId 0 2 [⟨.graphDelta, 1, 0, 2, [1]⟩]]
    cleanLogBytes bytes = .ok clean ∧ (recoverLog clean).diagnostics = [] ∧
      (recoverLog clean).committedRecords.map sansTxnId =
        (recoverLog bytes).committedRecords.map sansTxnId ∧
      ((recoverLog bytes).committedRecords ≠ [] →
        (recoverLog clean).sequence = (recoverLog bytes).sequence) ∧
      cleanLogBytes clean = .ok clean := by
  intro bytes clean
  have hclean : cleanLogBytes bytes = .ok clean := by decide +kernel
  exact ⟨hclean, compaction_preserves hclean⟩

end FileStateStore

end Forge
