import Forge.Daemon.StatusExchange

/-!
# Replies of any server

The loop of `UnixSocketClient::status` behind its request, whoever is at the other end. What it returns is
read off the bytes that have come, however they were cut: the text of the first status event behind encoded
frames of other types, or else the diagnostic of the first bytes that are no frame. It waits where the bytes
end before, and fails when the connection is closed then (`status_reply_cases`).
-/

namespace Forge

open FipcCodec (encode parse drain_encodes Fits)
open Incremental (drain_append_of_error drain_append_of_none)

deriving instance DecidableEq for FipcCodec, ClientState

namespace ClientState

/-- A `recv` that returns these bytes; none is made behind the return. -/
def recvChunk : ClientState → Bytes → ClientState
  | receiving codec, chunk => receive codec chunk
  | client, _ => client

/-- What the bytes that have come decide. -/
def verdict (got : Bytes) : Option (Result Str) :=
  match firstStatus got with
  | some event => some (.ok event.payload)
  | none => (drainFrames got).error.map .error

/-- The client behind these bytes. -/
def replied (got : Bytes) : ClientState :=
  match verdict got with
  | some result => .returned result
  | none => .receiving ⟨{}, (drainFrames got).left, false⟩

theorem replied_nil : replied [] = .receiving {} := by
  rw [replied, verdict, firstStatus, drainFrames, Incremental.drain_more (@FipcCodec.parse_nil {})]
  rfl

/-! ## One more chunk -/

theorem verdict_eq_none {got : Bytes} (h : verdict got = none) :
    firstStatus got = none ∧ (drainFrames got).error = none := by
  rw [verdict] at h
  cases hstatus : firstStatus got with
  | some event =>
    rw [hstatus] at h
    cases h
  | none =>
    rw [hstatus] at h
    exact ⟨rfl, Option.map_eq_none_iff.mp h⟩

theorem verdict_append {got : Bytes} {result : Result Str} (h : verdict got = some result) (more : Bytes) :
    verdict (got ++ more) = some result := by
  rw [← h, verdict, verdict, firstStatus, firstStatus]
  cases herror : (drainFrames got).error with
  | some diagnostic =>
    obtain ⟨-, houtputs, herror'⟩ := drain_append_of_error herror more
    rw [houtputs, herror']
  | none =>
    obtain ⟨-, houtputs, -⟩ := drain_append_of_none herror more
    rw [houtputs, List.find?_append]
    cases hfound : (drainFrames got).outputs.find? (·.type = .statusEvent) with
    | some event => rfl
    | none =>
      rw [verdict, firstStatus, hfound, herror] at h
      cases h

theorem verdict_append_of_none {got : Bytes} (h : verdict got = none) (more : Bytes) :
    verdict (got ++ more) = verdict ((drainFrames got).left ++ more) ∧
      (drainFrames (got ++ more)).left = (drainFrames ((drainFrames got).left ++ more)).left := by
  obtain ⟨hstatus, herror⟩ := verdict_eq_none h
  obtain ⟨-, houtputs, herror', hleft⟩ := drain_append_of_none herror more
  rw [firstStatus] at hstatus
  rw [verdict, verdict, firstStatus, firstStatus, houtputs, List.find?_append, hstatus, herror', hleft]
  exact ⟨rfl, rfl⟩

theorem recvChunk_replied (got : Bytes) {chunk : Bytes} (hchunk : chunk ≠ [] ∧ chunk.length ≤ 4096) :
    (replied got).recvChunk chunk = replied (got ++ chunk) := by
  rcases hverdict : verdict got with _ | result
  · obtain ⟨hsame, hleft⟩ := verdict_append_of_none hverdict chunk
    have hheld : (drainFrames got).left.length < ({} : Limits).maxFrameBytes.toNat :=
      FipcCodec.length_lt_of_parse_more (by decide) (Incremental.front_left (verdict_eq_none hverdict).2)
    have hroom : ({} : Limits).maxFrameBytes.toNat + 4096 ≤ ({} : Limits).maxSingleAllocation.toNat := by
      decide
    obtain ⟨hfound, hmissing, hfailed⟩ := takeStatus_drained
      ((drainFrames got).left.length + chunk.length + 1) (drainFrames got).left chunk (by omega)
      (Nat.lt_succ_self _)
    rw [replied, hverdict]
    dsimp only
    rw [recvChunk, receive, if_neg hchunk.1, replied, hsame, hleft, verdict]
    rcases htake : takeStatus ((drainFrames got).left.length + chunk.length + 1)
      ⟨{}, (drainFrames got).left, false⟩ chunk with ⟨taken, codec⟩
    rw [htake] at hfound hmissing hfailed
    cases hstatus : firstStatus ((drainFrames got).left ++ chunk) with
    | some event =>
      obtain rfl : taken = some (.ok event.payload) := hfound event hstatus
      rfl
    | none =>
      cases herror : (drainFrames ((drainFrames got).left ++ chunk)).error with
      | some diagnostic =>
        obtain rfl : taken = some (.error diagnostic) := hfailed diagnostic hstatus herror
        rfl
      | none =>
        obtain ⟨rfl, rfl⟩ := Prod.mk.inj (hmissing hstatus herror)
        rfl
  · rw [replied, replied, hverdict, verdict_append hverdict chunk]
    rfl

theorem foldl_recvChunk (chunks : List Bytes) (hchunks : ∀ chunk ∈ chunks, chunk ≠ [] ∧ chunk.length ≤ 4096) :
    chunks.foldl recvChunk (.receiving {}) = replied chunks.flatten := by
  induction chunks using List.reverseRecOn with
  | nil => exact replied_nil.symm
  | append_singleton chunks chunk ih =>
    rw [List.foldl_append, ih fun c hc => hchunks c (List.mem_append_left _ hc), List.foldl_cons, List.foldl_nil,
      recvChunk_replied _ (hchunks chunk (by simp)), List.flatten_append, List.flatten_singleton]

/-! ## Whole replies -/

/-- **What the client makes of any reply.** -/
theorem status_reply_cases (chunks : List Bytes)
    (hchunks : ∀ chunk ∈ chunks, chunk ≠ [] ∧ chunk.length ≤ 4096) :
    let client := chunks.foldl recvChunk (.receiving {})
    ∃ frames : List FipcFrame, (∀ frame ∈ frames, Fits {} frame ∧ frame.type ≠ .statusEvent) ∧
      ∃ rest, chunks.flatten = frames.flatMap encode ++ rest ∧
        ((∃ event behind, Fits {} event ∧ event.type = .statusEvent ∧ rest = encode event ++ behind ∧
            client = .returned (.ok event.payload)) ∨
          (∃ diagnostic, parse {} rest = .bad diagnostic ∧ client = .returned (.error diagnostic)) ∨
          (parse {} rest = .more ∧ client.recvChunk [] =
            .returned (.error (clientError .protocol "daemon closed before status response")))) := by
  intro client
  have hclient : client = replied chunks.flatten := foldl_recvChunk chunks hchunks
  rw [hclient]
  obtain ⟨hfits, hbytes⟩ := drain_encodes {} chunks.flatten
  rw [replied, verdict]
  cases hstatus : firstStatus chunks.flatten with
  | some event =>
    obtain ⟨htype, before, after, hframes, hbefore⟩ := List.find?_eq_some_iff_append.mp hstatus
    rw [hframes] at hfits hbytes
    refine ⟨before, fun frame hframe => ⟨hfits frame (List.mem_append_left _ hframe), ?_⟩,
      encode event ++ (after.flatMap encode ++ (drainFrames chunks.flatten).left), ?_,
      .inl ⟨event, _, hfits event (by simp), by simpa using htype, rfl, rfl⟩⟩
    · simpa using hbefore frame hframe
    · refine hbytes.trans ?_
      rw [List.flatMap_append, List.flatMap_cons, List.append_assoc, List.append_assoc]
  | none =>
    have hframes : ∀ frame ∈ (drainFrames chunks.flatten).outputs, Fits {} frame ∧ frame.type ≠ .statusEvent :=
      fun frame hframe => ⟨hfits frame hframe, by simpa using List.find?_eq_none.mp hstatus frame hframe⟩
    refine ⟨_, hframes, (drainFrames chunks.flatten).left, hbytes, .inr ?_⟩
    cases herror : (drainFrames chunks.flatten).error with
    | some diagnostic =>
      obtain hbad | ⟨_, _, _, hrefused⟩ := Incremental.drain_error_cases herror
      · exact .inl ⟨diagnostic, hbad, rfl⟩
      · cases hrefused
    | none => exact .inr ⟨Incremental.front_left herror, rfl⟩

/-- A status event behind a welcome, and the cut in the middle of it. -/
theorem status_reply_cases_cut :
    let reply := encode { type := .welcome } ++ encode { type := .statusEvent, payload := "ok" }
    ∃ event : FipcFrame, event.type = .statusEvent ∧
      [reply.take 50, reply.drop 50].foldl recvChunk (.receiving {}) = .returned (.ok event.payload) := by
  intro reply
  have hok : [reply.take 50, reply.drop 50].foldl recvChunk (.receiving {}) = .returned (.ok "ok") := by
    decide +kernel
  obtain ⟨_, _, _, _, ⟨event, _, _, htype, _, hclient⟩ | ⟨_, _, hclient⟩ | ⟨_, hclient⟩⟩ :=
    status_reply_cases [reply.take 50, reply.drop 50] (by decide +kernel)
  · exact ⟨event, htype, hclient⟩
  · cases hok.symm.trans hclient
  · rw [hok] at hclient
    cases hclient

end ClientState

end Forge
