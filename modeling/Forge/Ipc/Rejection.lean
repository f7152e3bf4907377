import Forge.Ipc.TraceSafety

/-!
# Rejected frames

A rejected frame closes the session. `apply_frame` counts the sequence number of a frame before it looks
at its credit or its request token, so a frame that is rejected there leaves its stream advanced; every
other rejected frame leaves the tables as they were (`refused_keeps_tables_iff`).
-/

namespace Forge

open Std (ExtTreeMap)

variable {limits : Limits} {tables : SessionTables} {frame : FipcFrame}

theorem advance_close_ne {stream : StreamState}
    (hlive : tables.streams[frame.streamId]? = some stream) :
    (tables.advance frame.streamId (some stream)).close ≠ tables.close := by
  intro h
  have hstreams := congrArg (fun t : SessionTables => t.streams[frame.streamId]?) h
  simp only [SessionTables.close, SessionTables.advance, ExtTreeMap.getElem?_insert_self, hlive,
    Option.some.injEq] at hstreams
  have hsequence := congrArg StreamState.nextSequence hstreams
  simp at hsequence

theorem after_refused_iff {status : Status} (h : (tables.applyFrame limits frame).1 = .error status) :
    TableStep.after limits ⟨tables, .applyFrame frame⟩ = tables.close ↔
      ¬ (tables.Proceeds frame ∧ ∃ stream, tables.NextOnStream frame stream) := by
  unfold TableStep.after
  rcases SessionTables.applyFrame_cases limits tables frame with
    ⟨tables', happly, _⟩ | ⟨status', happly, hnot⟩ | ⟨status', stream, hproceeds, hnext, happly⟩
  · rw [happly] at h
    cases h
  · simp only [happly]
    exact iff_of_true trivial hnot
  · simp only [happly]
    exact iff_of_false (advance_close_ne hnext.1) fun hnot => hnot ⟨hproceeds, stream, hnext⟩

namespace FipcSession

/-- **A rejected frame** leaves everything but the state as it was, in every reachable state, exactly
when it is not the next frame of a live stream of an active session. -/
theorem refused_keeps_tables_iff (limits : Limits) (calls : List SessionCall) (frame : FipcFrame)
    (status : Status) (h : ((run limits calls).tables.applyFrame limits frame).1 = .error status) :
    TableStep.after limits ⟨(run limits calls).tables, .applyFrame frame⟩ =
        (run limits calls).tables.close ↔
      ¬ ((run limits calls).tables.state = .active ∧
        ∃ stream, (run limits calls).tables.NextOnStream frame stream) := by
  rw [after_refused_iff h]
  have htraced := traced_run limits calls
  generalize (run limits calls).tables = tables at htraced
  refine not_congr (and_congr_left fun ⟨stream, hnext⟩ => ?_)
  constructor
  · intro hproceeds
    have hopen : tables.state ≠ .closed := by
      intro hclosed
      simp [SessionTables.Proceeds, hclosed] at hproceeds
    by_contra hidle
    have hnone := (htraced.consistent hopen).idle hidle frame.streamId
    rw [hnext.1] at hnone
    cases hnone
  · exact .inl

/-- A session with the stream 1 of generation 1 open. -/
def streamOpened : List SessionCall :=
  [.feed helloBytes,
    .feed (FipcCodec.encode { type := .openStream, streamId := 1, streamGeneration := 1 })]

/-- A frame on a stream that is not open changes nothing. -/
theorem refused_keeps_tables_iff_unknown :
    let tables := (run {} streamOpened).tables
    let frame : FipcFrame := { type := .credit, streamId := 7, streamGeneration := 1 }
    TableStep.after {} ⟨tables, .applyFrame frame⟩ = tables.close := by
  refine (refused_keeps_tables_iff {} streamOpened { type := .credit, streamId := 7, streamGeneration := 1 }
    (sessionError "unknown stream") (by decide +kernel)).mpr ?_
  rintro ⟨_, stream, hlive, _⟩
  have hnone : (run {} streamOpened).tables.streams[(7 : UInt32)]? = none := by decide +kernel
  rw [hnone] at hlive
  cases hlive

/-- A credit frame without its eight bytes is refused behind the count of its sequence number. -/
theorem shortCredit_counted :
    let tables := (run {} streamOpened).tables
    let frame : FipcFrame := { type := .credit, streamId := 1, streamGeneration := 1 }
    (tables.applyFrame {} frame).1 = .error (truncated "truncated u64" 0) ∧
      TableStep.after {} ⟨tables, .applyFrame frame⟩ ≠ tables.close := by
  decide +kernel

end FipcSession

end Forge
