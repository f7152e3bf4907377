import Forge.State.Transactions

/-!
# Damaged logs

Two kinds of damage to a log of transactions. A *torn* log ends in the middle of a transaction
(`recoverLog_torn`): the cut may fall inside a header, a payload, padding or between two records, and
in each case the replay ends with a diagnostic and without the torn transaction. A *changed* log has
one byte replaced (`recoverLog_set`): anywhere but in padding the record no longer decodes and the
replay ends there, and in padding the digest of the commit, and of every later commit, no longer
matches the bytes before it.
-/

namespace Forge

open StateCodec

/-! ## Torn transactions -/

theorem replay_torn_records {records : List StateRecord} (hrecords : ∀ r ∈ records, ¬ r.Control ∧ Fits r)
    {last : StateRecord} (hlast : Fits last) (hpad : (encode last).length = 40 + last.payload.length) :
    ∀ (pre : Bytes) (n : Nat) {s : Replay}, s.offset = pre.length → s.inTxn = true →
      n < (encodeAll records ++ encode last).length →
      Reports (replay (pre ++ (encodeAll records ++ encode last).take n) s).finish s.result := by
  induction records with
  | nil =>
    intro pre n s hoffset htxn hn
    rw [encodeAll_nil, List.nil_append] at hn ⊢
    rcases Nat.eq_zero_or_pos n with rfl | hpos
    · rw [List.take_zero, List.append_nil, replay_end (by omega)]
      exact reports_in_txn htxn
    · refine replay_undecodable hoffset ?_ (decode_take_short last hlast n (by omega))
      exact List.ne_nil_of_length_pos (by rw [List.length_take]; omega)
  | cons record records ih =>
    intro pre n s hoffset htxn hn
    obtain ⟨hcontrol, hfit⟩ := hrecords record (by simp)
    simp only [StateRecord.Control, not_or] at hcontrol
    have hstaged (bytes : Bytes) (consumed : Nat) :=
      @replayRecord_staged bytes s record consumed hcontrol.1 hcontrol.2 htxn
    rw [encodeAll_cons, List.append_assoc] at hn ⊢
    rcases Nat.lt_or_ge n (encode record).length with hcut | hwhole
    · rw [List.take_append_of_le_length hcut.le]
      rcases Nat.eq_zero_or_pos n with rfl | hpos
      · rw [List.take_zero, List.append_nil, replay_end (by omega)]
        exact reports_in_txn htxn
      have hlen : ((encode record).take n).length = n := by simp; omega
      rcases Nat.lt_or_ge n (40 + record.payload.length) with hshort | hpadded
      · refine replay_undecodable hoffset ?_ (decode_take_short record hfit n hshort)
        exact List.ne_nil_of_length_pos (by omega)
      · -- cut inside the padding: the record is staged and the log ends inside the transaction
        have hdecode := decode_take_padding record hfit n hpadded hcut.le
        rw [replay_eq, if_pos (by simp; omega), replayTurn_decoded hoffset hdecode, hstaged]
        simp only
        rw [replay_end (by simp [hoffset])]
        exact reports_in_txn (by simpa using htxn)
    · have htail := @ih (fun r hr => hrecords r (by simp [hr])) (pre ++ encode record)
        (n - (encode record).length)
        ({ s with staged := s.staged ++ [record] }.advance (encode record).length)
        (by simp [hoffset]) (by simpa using htxn) (by rw [List.length_append] at hn; omega)
      rw [List.append_assoc, Replay.advance_result] at htail
      rw [List.take_append, List.take_of_length_le hwhole,
        replay_segment (isSegment_encode hfit) hoffset (hstaged _ _)]
      exact htail

theorem replay_torn {t : Txn} (ht : t.Valid) (pre : Bytes) {n : Nat} (hpos : 0 < n)
    (hn : n < (t.bytes pre).length) {s : Replay} {result : RecoveryResult}
    (hs : AtBoundary s result pre.length) :
    Reports (replay (pre ++ (t.bytes pre).take n) s).finish result := by
  rw [← hs.result_eq]
  rw [Txn.bytes, Txn.body, List.append_assoc] at hn ⊢
  have hbegin := Txn.length_encode_beginRecord t
  rcases Nat.lt_or_ge n 48 with hcut | hwhole
  · rw [List.take_append_of_le_length (by omega)]
    refine replay_undecodable hs.offset_eq (List.ne_nil_of_length_pos (by simp; omega))
      (decode_take_short _ t.fits_beginRecord n ?_)
    simpa [Txn.beginRecord] using hcut
  · rw [List.take_append, List.take_of_length_le (by omega), replay_begin t hs.offset_eq,
      ← List.append_assoc]
    refine replay_torn_records ht (t.fits_commitRecord _) ?_ (pre ++ encode t.beginRecord) _ ?_ rfl ?_
    · rw [Txn.length_encode_commitRecord]
      simp [Txn.commitRecord]
    · simp [Replay.opened]
    · simp only [List.length_append] at hn ⊢
      omega

/-- **A torn log**: transactions followed by a proper, non-empty part of one more. -/
theorem recoverLog_torn {ts : List Txn} (hvalid : ∀ t ∈ ts, t.Valid) {t : Txn} (ht : t.Valid) {n : Nat}
    (hpos : 0 < n) (hn : n < (t.bytes (logBytes [] ts)).length) :
    Reports (recoverLog (logBytes [] ts ++ (t.bytes (logBytes [] ts)).take n))
      (ts.foldl RecoveryResult.publish {}) := by
  obtain ⟨s, hs, hrun⟩ := replay_log_intact hvalid [] ((t.bytes (logBytes [] ts)).take n) atBoundary_init
  simp only [List.nil_append] at hrun hs
  rw [recoverLog_eq, hrun]
  exact replay_torn ht _ hpos hn hs

/-! ## One changed byte -/

/-- The bytes of records with one byte changed: in padding they are still segments of the same
records, elsewhere one record no longer decodes and those before it are intact. -/
theorem encodeAll_set {records : List StateRecord} (hfit : ∀ r ∈ records, Fits r) :
    ∀ {j : Nat} {v : Byte}, j < (encodeAll records).length → (encodeAll records)[j]? ≠ some v →
      Segments ((encodeAll records).set j v) records ∨
      ∃ before after bad, records = before ++ after ∧
        (encodeAll records).set j v = encodeAll before ++ bad ∧ bad ≠ [] ∧
        ∀ rest, ∃ status, decode (bad ++ rest) = .error status := by
  induction records with
  | nil => intro j v hj; simp at hj
  | cons record records ih =>
    intro j v hj hv
    have hrecord := hfit record (by simp)
    have htail := fun r hr => hfit r (List.mem_cons_of_mem record hr)
    rw [encodeAll_cons] at hj hv ⊢
    rcases Nat.lt_or_ge j (encode record).length with hhere | hlater
    · rw [List.getElem?_append_left hhere] at hv
      rw [List.set_append_left _ _ hhere]
      rcases Nat.lt_or_ge j (40 + record.payload.length) with hcovered | hpadding
      · refine .inr ⟨[], record :: records, (encode record).set j v ++ encodeAll records, rfl,
          by simp, ?_, fun rest => ?_⟩
        · exact List.ne_nil_of_length_pos (by simp; omega)
        · rw [List.append_assoc]
          exact decode_set_covered record hrecord j hcovered hv _
      · refine .inl (.cons (fun rest => ?_) (segments_encodeAll htail))
        rw [decode_set_padding record hrecord j hpadding v rest, List.length_set]
    · rw [List.getElem?_append_right hlater] at hv
      rw [List.set_append_right _ _ hlater]
      rw [List.length_append] at hj
      rcases ih htail (by omega) hv with hsegments | ⟨before, after, bad, hsplit, hset, hne, hbad⟩
      · exact .inl (.cons (isSegment_encode hrecord) hsegments)
      · exact .inr ⟨record :: before, after, bad, by rw [hsplit]; rfl, by rw [hset]; simp, hne, hbad⟩

theorem replay_open_undecodable (t : Txn) {before : List StateRecord}
    (hbefore : ∀ r ∈ before, ¬ r.Control ∧ Fits r) (pre : Bytes) {bad : Bytes} (hne : bad ≠ [])
    (hbad : ∃ status, decode bad = .error status) {s : Replay} (hoffset : s.offset = pre.length) :
    Reports (replay (pre ++ (encode t.beginRecord ++ (encodeAll before ++ bad))) s).finish
      s.result := by
  have hstaged := @replay_staged _ _ (segments_encodeAll fun r hr => (hbefore r hr).2)
    (pre ++ encode t.beginRecord) bad (.opened s.result (pre.length + 48) t)
    (fun r hr => (hbefore r hr).1) (by simp [Replay.opened]) rfl
  have hend := @replay_undecodable (pre ++ (encode t.beginRecord ++ encodeAll before)) bad
    ({ (Replay.opened s.result (pre.length + 48) t) with staged := [] ++ before }.advance
      (encodeAll before).length) (by simp [Replay.opened, Nat.add_assoc]) hne hbad
  simp only [List.append_assoc] at hstaged hend
  rw [replay_begin t hoffset, hstaged]
  exact hend

theorem replay_other_body {t : Txn} (ht : t.Valid) {ts : List Txn} (hvalid : ∀ u ∈ ts, u.Valid)
    (pre : Bytes) {body : Bytes} (hbody : Segments body t.records)
    (hcrc : ∀ more, crc32c (pre ++ (encode t.beginRecord ++ (body ++ more))) ≠
      crc32c (pre ++ (encode t.beginRecord ++ (encodeAll t.records ++ more))))
    {s : Replay} {result : RecoveryResult} (hs : AtBoundary s result pre.length) :
    Reports (replay (pre ++ (encode t.beginRecord ++ (body ++
      (encode (t.commitRecord (crc32c (pre ++ t.body))) ++ logBytes (pre ++ t.bytes pre) ts)))) s).finish
      result := by
  -- the digest of its commit does not match, and those of all later ones do not either
  have hbegin := Txn.length_encode_beginRecord t
  have hcommit := Txn.length_encode_commitRecord t (crc32c (pre ++ t.body))
  have hrun := replay_txn t ht pre (logBytes (pre ++ t.bytes pre) ts) hbody (crc32c (pre ++ t.body))
    hs.offset_eq
  have hmismatch : crc32c (pre ++ (encode t.beginRecord ++ body)) ≠ crc32c (pre ++ t.body) := by
    simpa only [Txn.body, List.append_nil] using hcrc []
  rw [if_neg hmismatch, hs.result_eq] at hrun
  have hafter : AtBoundary (.boundary result.ignore (pre.length + 96 + body.length) t.txnId
      (UInt64.ofNat t.records.length)) result.ignore
      (pre ++ (encode t.beginRecord ++ (body ++ encode (t.commitRecord (crc32c (pre ++ t.body)))))).length := by
    refine ⟨rfl, ?_, rfl⟩
    simp only [Replay.boundary, List.length_append]
    omega
  have hend := replay_log_ignored hvalid _ (pre ++ t.bytes pre) hafter
    (fun more => by
      have hmore := hcrc (encode (t.commitRecord (crc32c (pre ++ t.body))) ++ more)
      simpa only [Txn.bytes, Txn.body, List.append_assoc] using hmore)
    (by simp [RecoveryResult.ignore])
  simp only [List.append_assoc] at hend
  rw [hrun]
  exact ⟨hend.sequence, hend.committedRecords, hend.diagnosed⟩

theorem replay_changed_txn {t : Txn} (ht : t.Valid) {ts : List Txn} (hvalid : ∀ u ∈ ts, u.Valid)
    (pre : Bytes) {j : Nat} {v : Byte} (hj : j < (t.bytes pre).length)
    (hv : (t.bytes pre)[j]? ≠ some v) {s : Replay} {result : RecoveryResult}
    (hs : AtBoundary s result pre.length) :
    Reports (replay (pre ++ ((t.bytes pre).set j v ++ logBytes (pre ++ t.bytes pre) ts)) s).finish
      result := by
  have hbegin := Txn.length_encode_beginRecord t
  have hcommit := Txn.length_encode_commitRecord t (crc32c (pre ++ t.body))
  have hfits : ∀ r ∈ t.records, Fits r := fun r hr => (ht r hr).2
  generalize hrest : logBytes (pre ++ t.bytes pre) ts = rest
  generalize hdigest : crc32c (pre ++ t.body) = digest at hcommit
  have hbytes : t.bytes pre =
      encode t.beginRecord ++ (encodeAll t.records ++ encode (t.commitRecord digest)) := by
    rw [Txn.bytes, hdigest, Txn.body, List.append_assoc]
  rw [hbytes] at hj hv
  rcases Nat.lt_or_ge j 48 with hin | hj48
  · -- in the begin record
    rw [List.getElem?_append_left (by omega)] at hv
    rw [hbytes, List.set_append_left _ _ (by omega), ← hs.result_eq]
    refine replay_undecodable hs.offset_eq (List.ne_nil_of_length_pos (by simp)) ?_
    rw [List.append_assoc]
    exact decode_set_covered _ t.fits_beginRecord j (by simpa [Txn.beginRecord] using hin) hv _
  rw [List.getElem?_append_right (by omega), hbegin] at hv
  rw [List.length_append, hbegin] at hj
  have hsplit : (t.bytes pre).set j v = encode t.beginRecord ++
      (encodeAll t.records ++ encode (t.commitRecord digest)).set (j - 48) v := by
    rw [hbytes, List.set_append_right _ _ (by omega), hbegin]
  rcases Nat.lt_or_ge (j - 48) (encodeAll t.records).length with hin | hjbody
  · rw [List.getElem?_append_left hin] at hv
    rw [List.set_append_left _ _ hin] at hsplit
    rcases encodeAll_set hfits hin hv with hbody | ⟨before, after, bad, hrecords, hset, hne, hbad⟩
    · -- in padding
      have hend := replay_other_body ht hvalid pre hbody
        (fun more => by simpa using crc32c_set_ne _ _ hin hv (pre ++ encode t.beginRecord) more) hs
      rw [hdigest, hrest] at hend
      simpa [hsplit] using hend
    · -- in a record: the replay ends there, inside the transaction
      have hbefore : ∀ r ∈ before, ¬ r.Control ∧ Fits r :=
        fun r hr => ht r (by rw [hrecords]; exact List.mem_append_left _ hr)
      have hbad' := hbad (encode (t.commitRecord digest) ++ rest)
      have hend := replay_open_undecodable t hbefore pre (by simp [hne]) hbad' hs.offset_eq
      rw [hs.result_eq] at hend
      simpa [hsplit, hset] using hend
  · -- in the commit record
    rw [List.getElem?_append_right hjbody] at hv
    rw [List.set_append_right _ _ hjbody] at hsplit
    rw [List.length_append, hcommit] at hj
    have hbad := decode_set_covered _ (t.fits_commitRecord digest) (j - 48 - (encodeAll t.records).length)
      (by simp [Txn.commitRecord]; omega) hv rest
    have hend := replay_open_undecodable t ht pre
      (List.ne_nil_of_length_pos (by simp)) hbad hs.offset_eq
    rw [hs.result_eq] at hend
    simpa [hsplit] using hend

/-- Of the transactions written behind `log`, those whose bytes all lie before position `i`. -/
def entirelyBefore (i : Nat) (log : AppendLog) : List Txn → List Txn
  | [] => []
  | t :: ts => if (t.write log).bytes.length ≤ i then t :: entirelyBefore i (t.write log) ts else []

theorem entirelyBefore_cons (i : Nat) (pre : Bytes) (t : Txn) (ts : List Txn) :
    entirelyBefore i ⟨pre⟩ (t :: ts) =
      if pre.length + (t.bytes pre).length ≤ i then t :: entirelyBefore i ⟨pre ++ t.bytes pre⟩ ts
      else [] := by
  have hwrite : t.write ⟨pre⟩ = ⟨pre ++ t.bytes pre⟩ := by
    rw [AppendLog.mk.injEq, Txn.write_bytes]
  rw [entirelyBefore, hwrite, List.length_append]

theorem replay_log_set {ts : List Txn} (hvalid : ∀ t ∈ ts, t.Valid) :
    ∀ (pre : Bytes) {j : Nat} {v : Byte} {s : Replay} {result : RecoveryResult},
      AtBoundary s result pre.length → j < (logBytes pre ts).length → (logBytes pre ts)[j]? ≠ some v →
      Reports (replay (pre ++ (logBytes pre ts).set j v) s).finish
        ((entirelyBefore (pre.length + j) ⟨pre⟩ ts).foldl RecoveryResult.publish result) := by
  -- those before the change are published, and the loop ends in the one that contains it
  induction ts with
  | nil =>
    intro pre j v s result _ hj
    simp [logBytes] at hj
  | cons t ts ih =>
    intro pre j v s result hs hj hv
    have ht := hvalid t (by simp)
    have htail := fun u hu => hvalid u (List.mem_cons_of_mem t hu)
    rw [logBytes] at hj hv ⊢
    rw [entirelyBefore_cons]
    rcases Nat.lt_or_ge j (t.bytes pre).length with hin | hlater
    · rw [List.getElem?_append_left hin] at hv
      rw [if_neg (by omega), List.set_append_left _ _ hin]
      exact replay_changed_txn ht htail pre hin hv hs
    · rw [List.getElem?_append_right hlater] at hv
      rw [List.length_append] at hj
      rw [if_pos (by omega), List.set_append_right _ _ hlater, List.foldl_cons]
      obtain ⟨s', hs', hrun⟩ := replay_intact ht pre
        ((logBytes (pre ++ t.bytes pre) ts).set (j - (t.bytes pre).length) v) hs
      have hrest := ih htail _ hs' (by omega) hv
      have hposition : (pre ++ t.bytes pre).length + (j - (t.bytes pre).length) = pre.length + j := by
        rw [List.length_append]
        omega
      rw [hposition, List.append_assoc] at hrest
      rw [hrun]
      exact hrest

/-- **One changed byte is contained.** Whatever byte of a log of transactions is replaced by another
value, the replay finds exactly the transactions that end before it, and says so. -/
theorem recoverLog_set {ts : List Txn} (hvalid : ∀ t ∈ ts, t.Valid) {log : AppendLog}
    (hlog : log = ts.foldl Txn.write {}) {i : Nat} (hi : i < log.bytes.length) {v : Byte}
    (hv : log.bytes[i]? ≠ some v) :
    (recoverLog (log.bytes.set i v)).committedRecords =
        (entirelyBefore i {} ts).flatMap Txn.records ∧
      (recoverLog (log.bytes.set i v)).sequence =
        ((entirelyBefore i {} ts).getLast?.map Txn.newSequence).getD 0 ∧
      (recoverLog (log.bytes.set i v)).diagnostics ≠ [] := by
  have hbytes : log.bytes = logBytes [] ts := by
    rw [hlog, foldl_write_bytes]
    rfl
  rw [hbytes] at hi hv ⊢
  have hreports := replay_log_set hvalid [] atBoundary_init hi hv
  rw [List.nil_append, ← recoverLog_eq, List.length_nil, Nat.zero_add] at hreports
  refine ⟨?_, ?_, hreports.diagnosed⟩
  · rw [hreports.committedRecords, foldl_publish_records]
    rfl
  · rw [hreports.sequence, foldl_publish_sequence]

/-- Two transactions; the change falls in the begin record of the second. -/
theorem recoverLog_set_second_begin :
    let ts : List Txn := [⟨1, 0, 1, [⟨.jobDelta, 1, 0, 1, [7]⟩]⟩, ⟨2, 1, 2, []⟩]
    let found := recoverLog ((ts.foldl Txn.write {}).bytes.set 150 255)
    (∀ t ∈ ts, t.Valid) ∧ found.committedRecords = [⟨.jobDelta, 1, 0, 1, [7]⟩] ∧ found.sequence = 1 ∧
      found.diagnostics ≠ [] := by
  intro ts found
  have hvalid : ∀ t ∈ ts, t.Valid := by decide
  have hkept : entirelyBefore 150 {} ts = ts.take 1 := by decide +kernel
  have hset := recoverLog_set hvalid rfl (i := 150) (v := 255) (by decide +kernel) (by decide +kernel)
  rw [hkept] at hset
  exact ⟨hvalid, hset⟩

end Forge
