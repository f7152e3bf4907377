import Forge.State.Transactions

/-!
# What recovery publishes

`recover_log` publishes what it has staged when it meets a commit of the open transaction. The records
it stages are all those that are neither a begin record nor that commit: a commit of another transaction
and a record of another transaction are staged as well. `logTurns` are the turns of the loop, and
`wellGrouped_iff` says for which logs every published group is one a transaction could have written, in
terms of the records that the bytes are cut into (`logRecords`).
-/

namespace Forge

open StateCodec

/-! ## The turns of the loop -/

/-- A turn of the loop that goes on: the variables before it and the record it decodes. -/
structure LogTurn where
  state : Replay
  record : StateRecord
deriving DecidableEq, Repr

/-- The turns of `replayLoop`. -/
def logTurnsLoop (bytes : Bytes) : Nat → Replay → List LogTurn
  | 0, _ => []
  | fuel + 1, s =>
    if s.offset < bytes.length then
      match decode (bytes.drop s.offset) with
      | .error _ => []
      | .ok (record, consumed) =>
        match replayRecord bytes s record consumed with
        | .stop _ => []
        | .next t => ⟨s, record⟩ :: logTurnsLoop bytes fuel t
    else []

def logTurns (bytes : Bytes) : List LogTurn := logTurnsLoop bytes bytes.length {}

/-- The turn takes the branch that publishes the staged records. -/
def LogTurn.publishes (bytes : Bytes) (turn : LogTurn) : Bool :=
  match readU64Le turn.record.payload 0 with
  | .error _ => false
  | .ok digest =>
    turn.record.type = .txnCommit ∧ turn.state.inTxn ∧ turn.record.txnId = turn.state.txnId ∧
      UInt64.ofNat turn.state.staged.length = turn.state.declaredCount ∧
      crc32c (bytes.take turn.state.offset) = digest.toUInt32

/-- The accepted commits of a log. -/
def acceptedCommits (bytes : Bytes) : List LogTurn := (logTurns bytes).filter (LogTurn.publishes bytes)

variable {bytes : Bytes}

theorem publishes_iff {turn : LogTurn} :
    turn.publishes bytes = true ↔
      turn.record.type = .txnCommit ∧ turn.state.inTxn = true ∧ turn.record.txnId = turn.state.txnId ∧
        UInt64.ofNat turn.state.staged.length = turn.state.declaredCount ∧
        ∃ digest, readU64Le turn.record.payload 0 = .ok digest ∧
          crc32c (bytes.take turn.state.offset) = digest.toUInt32 := by
  unfold LogTurn.publishes
  split
  · rename_i hread
    simp [hread]
  · rename_i digest hread
    simp [hread]

/-! ## Runs of the loop -/

/-- The loop started with the variables `s` takes `turns` and ends with the variables `t`. -/
inductive LogRun (bytes : Bytes) : Replay → List LogTurn → Replay → Prop
  | done {s : Replay} (hend : bytes.length ≤ s.offset) : LogRun bytes s [] s
  | stop {s : Replay} (message : Str) (hlt : s.offset < bytes.length)
      (hturn : replayTurn bytes s = .stop (s.diagnose message)) : LogRun bytes s [] (s.diagnose message)
  | turn {s t u : Replay} {record : StateRecord} {consumed : Nat} {turns : List LogTurn}
      (hlt : s.offset < bytes.length) (hdecode : decode (bytes.drop s.offset) = .ok (record, consumed))
      (hnext : replayRecord bytes s record consumed = .next t) (htail : LogRun bytes t turns u) :
      LogRun bytes s (⟨s, record⟩ :: turns) u

theorem logRun_loop (fuel : Nat) : ∀ s : Replay, bytes.length - s.offset ≤ fuel →
    LogRun bytes s (logTurnsLoop bytes fuel s) (replayLoop bytes fuel s) := by
  induction fuel with
  | zero =>
    intro s hfuel
    exact .done (by omega)
  | succ fuel ih =>
    intro s hfuel
    rw [logTurnsLoop, replayLoop]
    by_cases hlt : s.offset < bytes.length
    · rw [if_pos hlt, if_pos hlt]
      cases hdecode : decode (bytes.drop s.offset) with
      | error status =>
        have hturn : replayTurn bytes s = .stop (s.diagnose status.message) := by
          rw [replayTurn, hdecode]
        rw [hturn]
        exact .stop status.message hlt hturn
      | ok decoded =>
        obtain ⟨record, consumed⟩ := decoded
        have hturn : replayTurn bytes s = replayRecord bytes s record consumed := by
          rw [replayTurn, hdecode]
        rw [hturn]
        simp only
        cases hrecord : replayRecord bytes s record consumed with
        | stop t =>
          obtain ⟨message, rfl⟩ := replayTurn_stop (hturn.trans hrecord)
          exact .stop message hlt (hturn.trans hrecord)
        | next t =>
          have hoffset := replayTurn_next_offset (hturn.trans hrecord) hlt
          exact .turn hlt hdecode hrecord (ih t (by omega))
    · rw [if_neg hlt, if_neg hlt]
      exact .done (Nat.le_of_not_lt hlt)

theorem logRun (bytes : Bytes) : LogRun bytes {} (logTurns bytes) (replay bytes {}) :=
  logRun_loop bytes.length {} (Nat.sub_le _ _)

/-! ## What a run publishes -/

theorem replayRecord_of_publishes {turn : LogTurn} (h : turn.publishes bytes = true) (consumed : Nat) :
    replayRecord bytes turn.state turn.record consumed =
      .next (((turn.state.publish turn.record.newSequence).leave).advance consumed) := by
  obtain ⟨htype, htxn, hid, hcount, digest, hread, hdigest⟩ := publishes_iff.mp h
  rw [replayRecord_commit htype htxn hid hread hcount, if_pos hdigest]

theorem replayRecord_result (turn : LogTurn) {consumed : Nat} {t : Replay}
    (h : replayRecord bytes turn.state turn.record consumed = .next t) :
    t.result.committedRecords = turn.state.result.committedRecords ++
        (if turn.publishes bytes then turn.state.staged else []) ∧
      t.result.sequence =
        if turn.publishes bytes then turn.record.newSequence else turn.state.result.sequence := by
  by_cases hpublishes : turn.publishes bytes = true
  · rw [replayRecord_of_publishes hpublishes] at h
    obtain rfl := Turn.next.inj h
    rw [if_pos hpublishes, if_pos hpublishes]
    exact ⟨rfl, rfl⟩
  · rw [if_neg hpublishes, if_neg hpublishes, List.append_nil]
    obtain ⟨u, hu, rfl⟩ := replayRecord_next h
    cases hu with
    | publishes digest htype htxn hid hread hcount hdigest =>
      exact absurd (publishes_iff.mpr ⟨htype, htxn, hid, hcount, digest, hread, hdigest⟩) hpublishes
    | begins => exact ⟨rfl, rfl⟩
    | ignores => exact ⟨rfl, rfl⟩
    | stages => exact ⟨rfl, rfl⟩
    | skips => exact ⟨rfl, rfl⟩

theorem LogRun.result {s t : Replay} {turns : List LogTurn} (h : LogRun bytes s turns t) :
    let accepted := turns.filter (LogTurn.publishes bytes)
    t.result.committedRecords = s.result.committedRecords ++ accepted.flatMap (·.state.staged) ∧
      t.result.sequence =
        (accepted.getLast?.map (·.record.newSequence)).getD s.result.sequence := by
  induction h with
  | done hend => simp
  | stop message hlt hturn => simp [Replay.diagnose]
  | @turn s t u record consumed turns hlt hdecode hnext htail ih =>
    obtain ⟨hrecords, hsequence⟩ := ih
    obtain ⟨hadded, hlast⟩ := replayRecord_result ⟨s, record⟩ hnext
    rw [hrecords, hsequence, hadded, hlast, List.filter_cons]
    split_ifs with hpublishes
    · refine ⟨by simp, ?_⟩
      rw [List.getLast?_cons]
      cases (turns.filter (LogTurn.publishes bytes)).getLast? <;> rfl
    · exact ⟨by simp, rfl⟩

theorem finish_result (s : Replay) :
    s.finish.committedRecords = s.result.committedRecords ∧ s.finish.sequence = s.result.sequence := by
  unfold Replay.finish
  split_ifs
  · exact ⟨rfl, rfl⟩
  · exact ⟨rfl, rfl⟩

theorem recoverLog_result (bytes : Bytes) :
    (recoverLog bytes).committedRecords = (acceptedCommits bytes).flatMap (·.state.staged) ∧
      (recoverLog bytes).sequence =
        ((acceptedCommits bytes).getLast?.map (·.record.newSequence)).getD 0 := by
  obtain ⟨hrecords, hsequence⟩ := (logRun bytes).result
  obtain ⟨hfinish, hfinishSequence⟩ := finish_result (replay bytes {})
  rw [recoverLog_eq, hfinish, hfinishSequence]
  exact ⟨hrecords, hsequence⟩

/-! ## Open transactions -/

/-- A record that is staged in the transaction `begin` opens: no begin record and not its commit. -/
def Inside (begin record : StateRecord) : Prop :=
  record.type ≠ .txnBegin ∧ ¬ (record.type = .txnCommit ∧ record.txnId = begin.txnId)

/-- In the loop with the variables `s`, the transaction that `begin` opened is open and has staged
`body`. -/
structure Open (s : Replay) (begin : LogTurn) (body : List LogTurn) : Prop where
  begins : begin.record.type = .txnBegin
  in_txn : s.inTxn = true
  txn_id : s.txnId = begin.record.txnId
  declared : readU64Le begin.record.payload 0 = .ok s.declaredCount
  staged : s.staged = body.map (·.record)
  inside : ∀ turn ∈ body, Inside begin.record turn.record

theorem open_of_begin (turn : LogTurn) {consumed : Nat} {t : Replay}
    (hbegin : turn.record.type = .txnBegin)
    (h : replayRecord bytes turn.state turn.record consumed = .next t) : Open t turn [] := by
  obtain ⟨u, hu, rfl⟩ := replayRecord_next h
  have hcommit : turn.record.type ≠ .txnCommit := by
    rw [hbegin]
    decide
  cases hu with
  | begins count htype hread => exact ⟨hbegin, rfl, rfl, hread, rfl, by simp⟩
  | ignores message htype => exact absurd htype hcommit
  | publishes digest htype => exact absurd htype hcommit
  | stages hnot => exact absurd hbegin hnot
  | skips hnot => exact absurd hbegin hnot

theorem Open.stage (turn : LogTurn) {begin : LogTurn} {body : List LogTurn} {consumed : Nat} {t : Replay}
    (hopen : Open turn.state begin body) (hinside : Inside begin.record turn.record)
    (h : replayRecord bytes turn.state turn.record consumed = .next t) :
    Open t begin (body ++ [turn]) := by
  obtain ⟨u, hu, rfl⟩ := replayRecord_next h
  have hnot (htype : turn.record.type = .txnCommit) (hid : turn.record.txnId = turn.state.txnId) :
      False := hinside.2 ⟨htype, hid.trans hopen.txn_id⟩
  cases hu with
  | begins count htype hread => exact absurd htype hinside.1
  | ignores message htype htxn hid => exact (hnot htype hid).elim
  | publishes digest htype htxn hid => exact (hnot htype hid).elim
  | stages =>
    refine ⟨hopen.begins, hopen.in_txn, hopen.txn_id, hopen.declared, ?_, ?_⟩
    · simp [Replay.advance, hopen.staged]
    · intro other hother
      rcases List.mem_append.mp hother with hother | hother
      · exact hopen.inside other hother
      · obtain rfl := List.mem_singleton.mp hother
        exact hinside
  | skips _ htxn => exact absurd hopen.in_txn (by simp [htxn])

theorem Open.run {begin commit : LogTurn} {after : List LogTurn} {u : Replay} (more : List LogTurn) :
    ∀ {s : Replay} {body : List LogTurn}, Open s begin body → (∀ turn ∈ more, Inside begin.record turn.record) →
      LogRun bytes s (more ++ commit :: after) u → Open commit.state begin (body ++ more) := by
  induction more with
  | nil =>
    intro s body hopen _ hrun
    cases hrun with
    | turn hlt hdecode hnext htail =>
      rw [List.append_nil]
      exact hopen
  | cons turn more ih =>
    intro s body hopen hmore hrun
    cases hrun with
    | @turn _ t _ record consumed _ hlt hdecode hnext htail =>
      have hstage := Open.stage ⟨s, record⟩ hopen (hmore _ (by simp)) hnext
      have hrest := ih hstage (fun other hother => hmore other (by simp [hother])) htail
      rwa [List.append_assoc] at hrest

/-- What opened the transaction of an open loop is among its past turns. -/
def Opened (s : Replay) (past : List LogTurn) : Prop :=
  s.inTxn = true → ∃ before begin body, past = before ++ begin :: body ∧ Open s begin body

theorem Opened.next (turn : LogTurn) {past : List LogTurn} {consumed : Nat} {t : Replay}
    (h : Opened turn.state past) (hnext : replayRecord bytes turn.state turn.record consumed = .next t) :
    Opened t (past ++ [turn]) := by
  intro htxn
  by_cases hbegin : turn.record.type = .txnBegin
  · exact ⟨past, turn, [], rfl, open_of_begin turn hbegin hnext⟩
  · obtain ⟨u, hu, rfl⟩ := replayRecord_next hnext
    cases hu with
    | begins count htype => exact absurd htype hbegin
    | ignores => simp [Replay.advance, Replay.leave] at htxn
    | publishes => simp [Replay.advance, Replay.leave] at htxn
    | stages hnot hcommit hin =>
      obtain ⟨before, begin, body, rfl, hopen⟩ := h hin
      have hinside : Inside begin.record turn.record :=
        ⟨hnot, fun hc => hcommit ⟨hc.1, hc.2.trans hopen.txn_id.symm⟩⟩
      exact ⟨before, begin, body ++ [turn], by simp, hopen.stage turn hinside hnext⟩
    | skips _ hin => simp [Replay.advance, hin] at htxn

theorem LogRun.opened {s u : Replay} {turns : List LogTurn} (h : LogRun bytes s turns u) :
    ∀ {past mid after : List LogTurn} {turn : LogTurn}, Opened s past → turns = mid ++ turn :: after →
      Opened turn.state (past ++ mid) := by
  induction h with
  | done hend =>
    intro past mid after turn _ hsplit
    simp at hsplit
  | stop message hlt hturn =>
    intro past mid after turn _ hsplit
    simp at hsplit
  | @turn s t u record consumed turns hlt hdecode hnext htail ih =>
    intro past mid after turn hpast hsplit
    cases mid with
    | nil =>
      obtain ⟨rfl, rfl⟩ := List.cons.inj hsplit
      rw [List.append_nil]
      exact hpast
    | cons first mid =>
      obtain ⟨rfl, htl⟩ := List.cons.inj hsplit
      have hrest := ih (Opened.next ⟨s, record⟩ hpast hnext) htl
      rwa [List.append_assoc] at hrest

/-! ## Groups -/

/-- A begin record, the turns behind it and a commit. -/
structure LogGroup where
  begin : LogTurn
  body : List LogTurn
  commit : LogTurn

namespace LogGroup

/-- The group stands in the log, its commit is one of the transaction that `begin` opens, and the
begin record declares the number of records between the two. -/
structure Stands (bytes : Bytes) (g : LogGroup) : Prop where
  turns : g.begin :: (g.body ++ [g.commit]) <:+: logTurns bytes
  begins : g.begin.record.type = .txnBegin
  commits : g.commit.record.type = .txnCommit
  commit_id : g.commit.record.txnId = g.begin.record.txnId
  count : readU64Le g.begin.record.payload 0 = .ok (UInt64.ofNat g.body.length)

/-- The group is one transaction: no control record inside, and one transaction id. -/
structure WellFormed (bytes : Bytes) (g : LogGroup) : Prop extends Stands bytes g where
  plain : ∀ turn ∈ g.body, ¬ turn.record.Control
  ids : ∀ turn ∈ g.body, turn.record.txnId = g.begin.record.txnId

/-- The commit is the first one of the transaction, and its digest is that of the log before it. -/
structure Accepted (bytes : Bytes) (g : LogGroup) : Prop extends Stands bytes g where
  inside : ∀ turn ∈ g.body, Inside g.begin.record turn.record
  digest : ∃ digest, readU64Le g.commit.record.payload 0 = .ok digest ∧
    crc32c (bytes.take g.commit.state.offset) = digest.toUInt32

end LogGroup

theorem LogRun.suffix {s u : Replay} (before : List LogTurn) {rest : List LogTurn} :
    LogRun bytes s (before ++ rest) u → ∃ t, LogRun bytes t rest u := by
  induction before generalizing s with
  | nil => exact fun h => ⟨s, h⟩
  | cons turn before ih =>
    intro h
    cases h with
    | turn hlt hdecode hnext htail => exact ih htail

theorem open_of_logTurns {before body after : List LogTurn} {begin turn : LogTurn}
    (hturns : logTurns bytes = before ++ begin :: (body ++ turn :: after))
    (hbegin : begin.record.type = .txnBegin) (hinside : ∀ turn ∈ body, Inside begin.record turn.record) :
    Open turn.state begin body := by
  have hrun := logRun bytes
  rw [hturns] at hrun
  obtain ⟨t, hrun⟩ := hrun.suffix before
  cases hrun with
  | turn hlt hdecode hnext htail => exact (open_of_begin ⟨t, _⟩ hbegin hnext).run body hinside htail

theorem LogGroup.Stands.opens {g : LogGroup} (h : g.Stands bytes)
    (hinside : ∀ turn ∈ g.body, Inside g.begin.record turn.record) : Open g.commit.state g.begin g.body := by
  obtain ⟨before, after, hturns⟩ := h.turns
  have hcut : logTurns bytes = before ++ g.begin :: (g.body ++ g.commit :: after) := by
    rw [← hturns]
    simp
  exact open_of_logTurns hcut h.begins hinside

/-- No accepted group encloses a record with another transaction id. -/
def KeepsIds (bytes : Bytes) : Prop :=
  ∀ g : LogGroup, g.Accepted bytes → ∀ turn ∈ g.body, turn.record.txnId = g.begin.record.txnId

theorem LogGroup.WellFormed.inside {g : LogGroup} (h : g.WellFormed bytes) :
    ∀ turn ∈ g.body, Inside g.begin.record turn.record :=
  fun turn hturn => ⟨fun hbegin => h.plain turn hturn (.inl hbegin),
    fun hcommit => h.plain turn hturn (.inr hcommit.1)⟩

theorem LogGroup.Accepted.wellFormed {g : LogGroup} (h : g.Accepted bytes)
    (hforeign : KeepsIds bytes) : g.WellFormed bytes := by
  -- a begin record is not staged, nor is its commit, and any other commit would be foreign
  refine ⟨h.toStands, fun turn hturn hcontrol => ?_, hforeign g h⟩
  obtain ⟨hbegin, hcommit⟩ := h.inside turn hturn
  rcases hcontrol with htype | htype
  · exact hbegin htype
  · exact hcommit ⟨htype, hforeign g h turn hturn⟩

/-- A record and where it starts. -/
structure LogRecord where
  offset : Nat
  record : StateRecord
deriving DecidableEq, Repr

def logRecordsLoop (bytes : Bytes) : Nat → Nat → List LogRecord
  | 0, _ => []
  | fuel + 1, offset =>
    if offset < bytes.length then
      match decode (bytes.drop offset) with
      | .error _ => []
      | .ok (record, consumed) => ⟨offset, record⟩ :: logRecordsLoop bytes fuel (offset + consumed)
    else []

/-- The records of a log one behind the other, up to bytes that do not decode. -/
def logRecords (bytes : Bytes) : List LogRecord := logRecordsLoop bytes bytes.length 0

/-- The replay ends at a begin record, or a commit of the open transaction, without room for a number. -/
structure Halts (front : List LogRecord) (entry : LogRecord) : Prop where
  short : entry.record.payload.length < 8
  control : entry.record.type = .txnBegin ∨
    entry.record.type = .txnCommit ∧ ∃ before begin body, front = before ++ begin :: body ∧
      begin.record.type = .txnBegin ∧ begin.record.txnId = entry.record.txnId ∧
      ∀ inner ∈ body, Inside begin.record inner.record

/-- A transaction in the records of a log with the right count and digest, of which neither another begin
record nor an earlier commit is in the way, and that is not behind the end of the replay. -/
structure AcceptedAt (bytes : Bytes) (before : List LogRecord) (begin : LogRecord) (body : List LogRecord)
    (commit : LogRecord) : Prop where
  records : before ++ begin :: (body ++ [commit]) <+: logRecords bytes
  reached : ∀ front entry rest, before ++ begin :: (body ++ [commit]) = front ++ entry :: rest →
    ¬ Halts front entry
  begins : begin.record.type = .txnBegin
  commits : commit.record.type = .txnCommit
  commit_id : commit.record.txnId = begin.record.txnId
  inside : ∀ entry ∈ body, Inside begin.record entry.record
  count : readU64Le begin.record.payload 0 = .ok (UInt64.ofNat body.length)
  digest : ∃ digest, readU64Le commit.record.payload 0 = .ok digest ∧
    crc32c (bytes.take commit.offset) = digest.toUInt32

def LogTurn.entry (turn : LogTurn) : LogRecord := ⟨turn.state.offset, turn.record⟩

theorem replayRecord_offset {s t : Replay} {record : StateRecord} {consumed : Nat}
    (h : replayRecord bytes s record consumed = .next t) : t.offset = s.offset + consumed := by
  obtain ⟨u, hu, rfl⟩ := replayRecord_next h
  have hoffset : u.offset = s.offset := by cases hu <;> rfl
  rw [Replay.advance_offset, hoffset]

theorem replayRecord_stop_iff {s : Replay} {record : StateRecord} {consumed : Nat} :
    (∃ t, replayRecord bytes s record consumed = .stop t) ↔
      record.payload.length < 8 ∧ (record.type = .txnBegin ∨
        record.type = .txnCommit ∧ s.inTxn = true ∧ record.txnId = s.txnId) := by
  have hshort : record.payload.length < 8 ↔ ∃ status, readU64Le record.payload 0 = .error status := by
    unfold readU64Le
    split_ifs with hover
    · exact iff_of_true (by omega) ⟨_, rfl⟩
    · exact iff_of_false (by omega) (by simp)
  rw [hshort]
  unfold replayRecord
  by_cases hbegin : record.type = .txnBegin
  · rw [if_pos hbegin]
    cases readU64Le record.payload 0 with
    | error status => simp [hbegin]
    | ok count => simp
  · rw [if_neg hbegin]
    by_cases hcommit : record.type = .txnCommit ∧ s.inTxn = true ∧ record.txnId = s.txnId
    · rw [if_pos hcommit]
      cases readU64Le record.payload 0 with
      | error status => simp [hcommit]
      | ok digest =>
        refine iff_of_false ?_ (by simp)
        rintro ⟨t, h⟩
        simp only at h
        split_ifs at h
    · rw [if_neg hcommit]
      refine iff_of_false ?_ (by simp [hbegin, hcommit])
      rintro ⟨t, h⟩
      split_ifs at h

theorem entries_front (fuel : Nat) : ∀ s : Replay,
    (logTurnsLoop bytes fuel s).map LogTurn.entry <+: logRecordsLoop bytes fuel s.offset := by
  induction fuel with
  | zero => exact fun s => List.prefix_rfl
  | succ fuel ih =>
    intro s
    rw [logTurnsLoop, logRecordsLoop]
    split_ifs
    · cases hdecode : decode (bytes.drop s.offset) with
      | error status => exact List.prefix_rfl
      | ok decoded =>
        obtain ⟨record, consumed⟩ := decoded
        simp only
        cases hrecord : replayRecord bytes s record consumed with
        | stop t => exact List.nil_prefix
        | next t =>
          have hrest := ih t
          rw [replayRecord_offset hrecord] at hrest
          exact List.cons_prefix_cons.mpr ⟨rfl, hrest⟩
    · exact List.prefix_rfl

theorem halts_behind (fuel : Nat) : ∀ {s : Replay} {past : List LogTurn} {entry : LogRecord}
    {rest : List LogRecord}, Opened s past →
      logRecordsLoop bytes fuel s.offset = (logTurnsLoop bytes fuel s).map LogTurn.entry ++ entry :: rest →
        Halts ((past ++ logTurnsLoop bytes fuel s).map LogTurn.entry) entry := by
  induction fuel with
  | zero =>
    intro s past entry rest _ hrest
    simp [logRecordsLoop] at hrest
  | succ fuel ih =>
    intro s past entry rest hopened hrest
    rw [logTurnsLoop, logRecordsLoop] at hrest
    rw [logTurnsLoop]
    split_ifs at hrest ⊢
    · cases hdecode : decode (bytes.drop s.offset) with
      | error status => simp [hdecode] at hrest
      | ok decoded =>
        obtain ⟨record, consumed⟩ := decoded
        simp only [hdecode] at hrest ⊢
        cases hrecord : replayRecord bytes s record consumed with
        | stop t =>
          simp only [hrecord, List.map_nil, List.nil_append, List.append_nil] at hrest ⊢
          obtain ⟨rfl, -⟩ := List.cons.inj hrest
          obtain ⟨hshort, htype⟩ := replayRecord_stop_iff.mp ⟨t, hrecord⟩
          refine ⟨hshort, htype.imp_right ?_⟩
          rintro ⟨hcommit, htxn, hid⟩
          obtain ⟨before, begin, body, rfl, hopen⟩ := hopened htxn
          refine ⟨hcommit, before.map LogTurn.entry, begin.entry, body.map LogTurn.entry, by simp,
            hopen.begins, (hid.trans hopen.txn_id).symm, List.forall_mem_map.mpr hopen.inside⟩
        | next t =>
          simp only [hrecord, List.map_cons, List.cons_append] at hrest ⊢
          obtain ⟨-, hrest⟩ := List.cons.inj hrest
          rw [← replayRecord_offset hrecord] at hrest
          have hnext := ih (hopened.next ⟨s, record⟩ hrecord) hrest
          rwa [List.append_assoc] at hnext
    · simp at hrest

theorem AcceptedAt.turns {before body : List LogRecord} {begin commit : LogRecord}
    (h : AcceptedAt bytes before begin body commit) :
    before ++ begin :: (body ++ [commit]) <+: (logTurns bytes).map LogTurn.entry := by
  obtain ⟨after, hrecords⟩ := h.records
  obtain ⟨rest, hrest⟩ := @entries_front bytes bytes.length {}
  rcases List.append_eq_append_iff.mp (hrecords.trans hrest.symm) with ⟨more, hturns, -⟩ | ⟨more, hlong, hmore⟩
  · exact ⟨more, hturns.symm⟩
  · cases more with
    | nil =>
      rw [List.append_nil] at hlong
      rw [hlong]
      exact List.prefix_rfl
    | cons entry more =>
      have hopened : Opened {} [] := fun htxn => (nomatch htxn)
      rw [hmore, List.cons_append] at hrest
      exact absurd (halts_behind bytes.length hopened hrest.symm) (h.reached _ entry more hlong)

end Forge
