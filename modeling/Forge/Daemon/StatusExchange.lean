import Forge.Daemon.Server
import Forge.Ipc.FrameStream
import Forge.Lib.Runs

/-!
# The status exchange

`UnixSocketClient::status` of `client.cpp` and `serve_once` on the two ends of a socket, which is a pipe of
bytes in each direction. A move is one call of `send` or `recv`: a `send` puts any number of first bytes of
its buffer into the pipe, a `recv` takes any number of up to 4096 first bytes out of it, and the moves of
the two parties come in any order.

Every state of a run is that of a `Cut` of the request and of the answer so far, each into what is received,
what is in the pipe and what is not yet sent, with both parties where their loops are behind the bytes they
have received (`Cut.wire`, `Cut.step`). So every run is short, none gets stuck before both have returned, and
then both have returned what they should (`client_and_daemon_agree`).
-/

namespace Forge

open FipcSession (drainTables opened)
open SessionTables (eventOf)
open Incremental (drain)
open FipcCodec (takeFrame)
open Daemon (statusHello statusOpen statusRequest statusBytes exchange_status)

/-! ## The client -/

def clientError (code : ErrorCode) (message : Str) : Status :=
  Status.error code "unix-socket-client" message

/-- The turns of the client's loop over the frames that some received bytes complete: what `status` returns
there, if it does, and the codec. -/
def takeStatus : Nat → FipcCodec → Bytes → Option (Result Str) × FipcCodec
  | 0, codec, _ => (none, codec)
  | turns + 1, codec, data =>
    match codec.feed data with
    | (.needMore, codec) => (none, codec)
    | (.closed diagnostic, codec) => (if diagnostic.ok then none else some (.error diagnostic), codec)
    | (.frame frame, codec) =>
      if frame.type = .statusEvent then (some (.ok frame.payload), codec)
      else if codec.buffer.length = 0 then (none, codec)
      else takeStatus turns codec []

inductive ClientState
  | sending (rest : Bytes)
  | receiving (codec : FipcCodec)
  | returned (result : Result Str)

namespace ClientState

/-- The loop of `write_all`, and the start of the loop behind it. -/
def writeAll (rest : Bytes) : ClientState :=
  if rest = [] then .receiving {} else .sending rest

/-- A turn of the loop of `status` behind its `recv`. Each turn of the inner loop but the last takes a frame,
so there are enough of them. -/
def receive (codec : FipcCodec) (chunk : Bytes) : ClientState :=
  if chunk = [] then
    .returned (.error (clientError .protocol "daemon closed before status response"))
  else
    match takeStatus (codec.buffer.length + chunk.length + 1) codec chunk with
    | (some result, _) => .returned result
    | (none, codec) => .receiving codec

/-- The socket is closed with the return. -/
def closed : ClientState → Bool
  | .returned _ => true
  | _ => false

/-- The bytes not yet sent. -/
def unsent : ClientState → Bytes
  | .sending rest => rest
  | _ => []

end ClientState

/-! ## The server -/

inductive ServerState
  | reading (session : FipcSession)
  | writing (rest : Bytes) (next : TurnEnd)
  | returned (result : Result Unit)

namespace ServerState

/-- The loop of `write_all`, and what comes behind it. -/
def writeAll (rest : Bytes) (next : TurnEnd) : ServerState :=
  if rest = [] then
    match next with
    | .again session => .reading session
    | .returns result => .returned result
  else
    .writing rest next

/-- A turn of the loop of `serve_once` behind its `recv`. -/
def receive (daemon : Daemon) (session : FipcSession) (chunk : Bytes) : ServerState :=
  if chunk = [] then
    .returned (.error closedBeforeRequest)
  else
    let (sent, next) := daemon.serveTurn session chunk
    writeAll sent next

def closed : ServerState → Bool
  | .returned _ => true
  | _ => false

end ServerState

/-! ## The socket -/

/-- Both parties and the pipes between them, with all that the server has sent. -/
structure Wire where
  client : ClientState
  toServer : Bytes
  server : ServerState
  toClient : Bytes
  sent : Bytes

inductive Move
  | clientSend (n : Nat)
  | serverRecv (n : Nat)
  | serverSend (n : Nat)
  | clientRecv (n : Nat)
deriving DecidableEq

/-- A `recv` that returns `n`: first bytes of the pipe, or the end if it is empty and the peer has closed;
otherwise it waits. -/
def recv (pipe : Bytes) (closed : Bool) (n : Nat) : Option (Bytes × Bytes) :=
  if 1 ≤ n ∧ n ≤ 4096 ∧ n ≤ pipe.length ∨ n = 0 ∧ pipe = [] ∧ closed then
    some (pipe.take n, pipe.drop n)
  else
    none

theorem recv_eq_some {pipe chunk left : Bytes} {closed : Bool} {n : Nat}
    (h : recv pipe closed n = some (chunk, left)) :
    pipe = chunk ++ left ∧
      (chunk ≠ [] ∧ chunk.length ≤ 4096 ∨ chunk = [] ∧ pipe = [] ∧ closed = true) := by
  unfold recv at h
  split_ifs at h with hn
  obtain ⟨rfl, rfl⟩ := Prod.mk.inj (Option.some.inj h)
  refine ⟨(List.take_append_drop n pipe).symm, ?_⟩
  rcases hn with ⟨hpos, hmax, hlength⟩ | ⟨rfl, rfl, hclosed⟩
  · refine .inl ⟨List.ne_nil_of_length_pos ?_, ?_⟩
    · rw [List.length_take]
      omega
    · rw [List.length_take]
      omega
  · exact .inr ⟨rfl, rfl, hclosed⟩

namespace Wire

/-- The socket is connected. -/
def start : Wire where
  client := .writeAll statusBytes
  toServer := []
  server := .reading (FipcSession.init {})
  toClient := []
  sent := []

/-- A `send` to a peer that has closed fails. -/
def step (daemon : Daemon) (wire : Wire) : Move → Option Wire
  | .clientSend n =>
    match wire.client with
    | .sending rest =>
      if wire.server.closed then
        some { wire with
          client := .returned (.error (clientError .io "unable to write request: Broken pipe")) }
      else if 1 ≤ n ∧ n ≤ rest.length then
        some { wire with
          client := .writeAll (rest.drop n)
          toServer := wire.toServer ++ rest.take n }
      else none
    | _ => none
  | .serverRecv n =>
    match wire.server with
    | .reading session =>
      (recv wire.toServer wire.client.closed n).map fun (chunk, pipe) =>
        { wire with server := .receive daemon session chunk, toServer := pipe }
    | _ => none
  | .serverSend n =>
    match wire.server with
    | .writing rest next =>
      if wire.client.closed then
        some { wire with
          server := .returned (.error
            (Status.error .io "unix-socket-daemon" "unable to write response: Broken pipe")) }
      else if 1 ≤ n ∧ n ≤ rest.length then
        some { wire with
          server := .writeAll (rest.drop n) next
          toClient := wire.toClient ++ rest.take n
          sent := wire.sent ++ rest.take n }
      else none
    | _ => none
  | .clientRecv n =>
    match wire.client with
    | .receiving codec =>
      (recv wire.toClient wire.server.closed n).map fun (chunk, pipe) =>
        { wire with client := .receive codec chunk, toClient := pipe }
    | _ => none

end Wire

/-! ## Each party behind the bytes it has received -/

/-- The frames read from the front of some bytes. -/
abbrev drainFrames (bytes : Bytes) : Incremental.Outcome Byte Status Unit FipcFrame :=
  drain (FipcCodec.decoder {}) takeFrame () bytes

def firstStatus (bytes : Bytes) : Option FipcFrame :=
  (drainFrames bytes).outputs.find? (·.type = .statusEvent)

/-- The loop of `status` behind the bytes of `got`. -/
def ClientState.behind (got : Bytes) : ClientState :=
  match firstStatus got with
  | some event => .returned (.ok event.payload)
  | none => .receiving ⟨{}, (drainFrames got).left, false⟩

theorem ClientState.behind_nil : behind [] = .receiving {} := by
  rw [behind, firstStatus, drainFrames, Incremental.drain_more (@FipcCodec.parse_nil {})]
  rfl

/-- **The inner loop is a drain** that stops at the first status event. -/
theorem takeStatus_drained (turns : Nat) : ∀ buffer data : Bytes,
    buffer.length + data.length ≤ ({} : Limits).maxSingleAllocation.toNat →
    buffer.length + data.length < turns →
      (∀ event, firstStatus (buffer ++ data) = some event →
        (takeStatus turns ⟨{}, buffer, false⟩ data).1 = some (.ok event.payload)) ∧
      (firstStatus (buffer ++ data) = none → (drainFrames (buffer ++ data)).error = none →
        takeStatus turns ⟨{}, buffer, false⟩ data =
          (none, ⟨{}, (drainFrames (buffer ++ data)).left, false⟩)) ∧
      ∀ diagnostic, firstStatus (buffer ++ data) = none →
        (drainFrames (buffer ++ data)).error = some diagnostic →
          (takeStatus turns ⟨{}, buffer, false⟩ data).1 = some (.error diagnostic) := by
  unfold firstStatus
  induction turns with
  | zero => intro buffer data _ hturns; omega
  | succ turns ih =>
    intro buffer data hsize hturns
    have hfeed := FipcCodec.feed_of_le ⟨{}, buffer, false⟩ rfl hsize
    rw [takeStatus, hfeed]
    dsimp only
    cases hparse : FipcCodec.parse {} (buffer ++ data) with
    | more =>
      rw [drainFrames, Incremental.drain_more hparse]
      exact ⟨fun event h => (by cases h), fun _ _ => rfl, fun diagnostic _ h => (by cases h)⟩
    | bad diagnostic =>
      rw [drainFrames, Incremental.drain_bad hparse]
      refine ⟨fun event h => (by cases h), fun _ h => (by cases h), fun diagnostic' _ h => ?_⟩
      obtain rfl := Option.some.inj h
      obtain ⟨message, rfl⟩ := FipcCodec.parse_bad hparse
      rfl
    | frame frame rest =>
      have htaken : takeFrame () frame = (.ok frame, ()) := rfl
      have hshorter := (FipcCodec.decoder {}).length_rest_lt hparse
      rw [List.length_append] at hshorter
      rw [drainFrames, Incremental.drain_frame hparse htaken]
      simp only [Incremental.Outcome.after]
      by_cases hstatus : frame.type = .statusEvent
      · rw [if_pos hstatus, List.find?_cons_of_pos (by simpa using hstatus)]
        exact ⟨fun event h => (by rw [Option.some.inj h]), fun h => (by cases h), fun _ h => (by cases h)⟩
      · rw [if_neg hstatus, List.find?_cons_of_neg (by simpa using hstatus)]
        split_ifs with hempty
        · -- the buffer is used up: the drain of the rest finds nothing
          obtain rfl := List.eq_nil_of_length_eq_zero hempty
          have hnil : FipcCodec.parse {} [] = .more := FipcCodec.parse_nil
          rw [Incremental.drain_more hnil]
          exact ⟨fun event h => (by cases h), fun _ _ => rfl, fun diagnostic _ h => (by cases h)⟩
        · have hrest := ih rest [] (by rw [List.length_nil]; omega) (by rw [List.length_nil]; omega)
          rw [List.append_nil] at hrest
          exact hrest

theorem ClientState.receive_behind {got chunk : Bytes} (hchunk : chunk ≠ [] ∧ chunk.length ≤ 4096)
    (herror : (drainFrames (got ++ chunk)).error = none) (hnone : firstStatus got = none) :
    receive ⟨{}, (drainFrames got).left, false⟩ chunk = behind (got ++ chunk) := by
  have hgot : (drainFrames got).error = none := Incremental.drain_error_of_append herror
  obtain ⟨_, houtputs, herror', hleft⟩ := Incremental.drain_append_of_none hgot chunk
  have hheld : (drainFrames got).left.length < ({} : Limits).maxFrameBytes.toNat :=
    FipcCodec.length_lt_of_parse_more (by decide) (Incremental.front_left hgot)
  have hroom : ({} : Limits).maxFrameBytes.toNat + 4096 ≤ ({} : Limits).maxSingleAllocation.toNat := by
    decide
  have hsame : firstStatus (got ++ chunk) = firstStatus ((drainFrames got).left ++ chunk) := by
    unfold firstStatus at hnone ⊢
    rw [houtputs, List.find?_append, hnone]
    rfl
  obtain ⟨hfound, hmissing, -⟩ := takeStatus_drained
    ((drainFrames got).left.length + chunk.length + 1) (drainFrames got).left chunk (by omega)
    (Nat.lt_succ_self _)
  rw [receive, if_neg hchunk.1, behind, hsame]
  cases hstatus : firstStatus ((drainFrames got).left ++ chunk) with
  | some event =>
    have htaken := hfound event hstatus
    rcases htake : takeStatus ((drainFrames got).left.length + chunk.length + 1)
      ⟨{}, (drainFrames got).left, false⟩ chunk with ⟨result, codec⟩
    rw [htake] at htaken
    obtain rfl : result = some (.ok event.payload) := htaken
    rfl
  | none =>
    rw [hmissing hstatus (herror'.symm.trans herror), hleft]

/-- What the server sends for the bytes of `asked`. -/
def Daemon.answerTo (daemon : Daemon) (asked : Bytes) : Bytes :=
  (daemon.answer (drainTables {} {} asked).outputs).1

theorem ServerState.receive_behind (daemon : Daemon) {asked chunk : Bytes}
    (hchunk : chunk ≠ [] ∧ chunk.length ≤ 4096) (herror : (drainTables {} {} (asked ++ chunk)).error = none)
    {session : FipcSession} (hnext : daemon.turnBehind (drainTables {} {} asked) = .again session) :
    ∃ sent, daemon.answerTo (asked ++ chunk) = daemon.answerTo asked ++ sent ∧
      receive daemon session chunk =
        writeAll sent (daemon.turnBehind (drainTables {} {} (asked ++ chunk))) := by
  have hasked := Incremental.drain_error_of_append herror
  obtain ⟨hstate, houtputs, herror', hleft⟩ := Incremental.drain_append_of_none hasked chunk
  unfold Daemon.turnBehind at hnext
  split_ifs at hnext with hdone
  obtain rfl := (TurnEnd.again.inj hnext).symm
  have hturn := serveTurn_of_none daemon (Incremental.front_left hasked) hchunk.2
    (herror'.symm.trans herror)
  have hanswer := daemon.answer_append (drainTables {} {} asked).outputs
    (drainTables {} (drainTables {} {} asked).state ((drainTables {} {} asked).left ++ chunk)).outputs
  rw [if_neg hdone, ← houtputs] at hanswer
  refine ⟨_, congrArg Prod.fst hanswer, ?_⟩
  rw [receive, if_neg hchunk.1, hturn, Daemon.turnBehind, Daemon.turnBehind, hstate, hleft, hanswer]

/-! ## The request and the answer -/

theorem length_decimal_le (n : UInt64) : (decimal n.toNat).length ≤ 20 := by
  rw [decimal, List.length_map]
  exact Nat.toDigits_length 10 n.toNat 20 (by decide) (n.toNat_lt.trans (by decide))

namespace Daemon

variable (daemon : Daemon)

/-- The welcome and the status event for the status request. -/
def response : Bytes :=
  FipcCodec.encode (welcome 1) ++ FipcCodec.encode (statusEvent 1 2 daemon.statusText)

theorem length_statusText_le : daemon.statusText.length ≤ 50 := by
  have hstate : (daemonStateName daemon.state).length ≤ 11 := by
    cases daemon.state <;> decide
  have hgeneration := length_decimal_le daemon.workspace.graph.generation.value
  have hliterals : (Str.ofLiteral "state=").length = 6 ∧ (Str.ofLiteral " generation=").length = 12 ∧
      (Str.ofLiteral "\n").length = 1 := by decide
  simp only [statusText, List.length_append]
  omega

theorem fits_statusEvent : FipcCodec.Fits {} (statusEvent 1 2 daemon.statusText) := by
  have hlength := daemon.length_statusText_le
  have hframe : 90 ≤ ({} : Limits).maxFrameBytes.toNat := by decide
  have hpayload : 50 ≤ ({} : Limits).maxPayloadBytes.toNat := by decide
  exact ⟨by change 40 + daemon.statusText.length ≤ _; omega, hlength.trans hpayload⟩

theorem drainFrames_response :
    let o := drainFrames daemon.response
    o.error = none ∧ o.outputs = [welcome 1] ++ [statusEvent 1 2 daemon.statusText] ∧ o.left = [] := by
  obtain ⟨houtputs, herror, hleft⟩ := @FipcCodec.drain_encode {}
    ([welcome 1] ++ [statusEvent 1 2 daemon.statusText]) (by
      simp only [List.singleton_append, List.forall_mem_cons]
      exact ⟨by decide, daemon.fits_statusEvent, by simp⟩)
  have hbytes : ([welcome 1] ++ [statusEvent 1 2 daemon.statusText]).flatMap FipcCodec.encode =
      daemon.response := by simp [response]
  rw [hbytes] at houtputs herror hleft
  exact ⟨herror, houtputs, hleft⟩

theorem firstStatus_eq_some {got rest : Bytes} (hgot : got ++ rest = daemon.response) {event : FipcFrame}
    (hfirst : firstStatus got = some event) :
    event = statusEvent 1 2 daemon.statusText ∧ rest = [] := by
  obtain ⟨herror, houtputs, hleft⟩ := daemon.drainFrames_response
  rw [← hgot] at herror houtputs hleft
  have hmem := List.mem_of_find?_eq_some hfirst
  have htype : event.type = .statusEvent := by simpa using List.find?_some hfirst
  refine ⟨?_, Incremental.rest_eq_nil (P := fun frame => frame.type = FrameType.statusEvent) herror hleft
    houtputs (by decide) ⟨event, hmem, htype⟩⟩
  have hsplit := (Incremental.drain_append_of_none (Incremental.drain_error_of_append herror) rest).2.1
  have hall : event ∈ (drainFrames (got ++ rest)).outputs := hsplit ▸ List.mem_append_left _ hmem
  rw [houtputs, List.singleton_append, List.mem_cons, List.mem_singleton] at hall
  rcases hall with rfl | rfl
  · exact absurd htype (by decide)
  · rfl

theorem firstStatus_response :
    firstStatus daemon.response = some (statusEvent 1 2 daemon.statusText) := by
  rw [firstStatus, daemon.drainFrames_response.2.1]
  rfl

theorem answerTo_statusBytes : daemon.answerTo statusBytes = daemon.response := by
  rw [answerTo, statusBytes, exchange_status.drain.2.1, exchange_status.answer daemon]
  rfl

section

variable {asked rest : Bytes} (hasked : asked ++ rest = statusBytes)
include hasked

theorem drain_asked : (drainTables {} {} asked).error = none := by
  have herror := exchange_status.drain.1
  rw [← statusBytes, ← hasked] at herror
  exact Incremental.drain_error_of_append herror

theorem answerTo_prefix : daemon.answerTo asked <+: daemon.response := by
  have hsplit := (Incremental.drain_append_of_none (drain_asked hasked) rest).2.1
  rw [← daemon.answerTo_statusBytes, ← hasked, answerTo, answerTo, hsplit, answer_append]
  split_ifs
  · exact List.prefix_rfl
  · exact List.prefix_append _ _

theorem turnBehind_eq_returns {result : Result Unit}
    (hnext : daemon.turnBehind (drainTables {} {} asked) = .returns result) :
    result = .ok () ∧ rest = [] := by
  obtain ⟨herror, houtputs, hleft⟩ := exchange_status.drain
  rw [← statusBytes, ← hasked] at herror houtputs hleft
  unfold turnBehind at hnext
  split_ifs at hnext with hdone
  have hlast : (drainTables {} {} (asked ++ rest)).outputs =
      [eventOf statusHello, eventOf statusOpen] ++ [eventOf statusRequest] := houtputs
  refine ⟨(TurnEnd.returns.inj hnext).symm, ?_⟩
  exact Incremental.rest_eq_nil (P := fun event => event.type = FrameType.buildRequest) herror hleft hlast
    (by decide) ((daemon.answer_done_iff _).mp hdone)

end

theorem turnBehind_statusBytes :
    daemon.turnBehind (drainTables {} {} statusBytes) = .returns (.ok ()) := by
  rw [turnBehind, statusBytes, exchange_status.drain.2.1, exchange_status.answer daemon]
  rfl

end Daemon

/-! ## Cuts -/

/-- How far the two streams have come: what is received, in the pipe and not yet sent of the request, and of
the answer to what the server has received. The client reads only behind its last `send`. -/
structure Cut (daemon : Daemon) where
  asked : Bytes
  toServer : Bytes
  unsent : Bytes
  got : Bytes
  toClient : Bytes
  unwritten : Bytes
  request : asked ++ (toServer ++ unsent) = statusBytes
  answer : got ++ (toClient ++ unwritten) = daemon.answerTo asked
  order : unsent ≠ [] → got = []

namespace Cut

variable {daemon : Daemon}

/-- Both parties are where their loops are behind what they have received. -/
def wire (cut : Cut daemon) : Wire where
  client := if cut.unsent = [] then .behind cut.got else .sending cut.unsent
  toServer := cut.toServer
  server := .writeAll cut.unwritten (daemon.turnBehind (drainTables {} {} cut.asked))
  toClient := cut.toClient
  sent := cut.got ++ cut.toClient

def start : Cut daemon where
  asked := []
  toServer := []
  unsent := statusBytes
  got := []
  toClient := []
  unwritten := []
  request := rfl
  answer := by
    rw [Daemon.answerTo, drainTables, Incremental.drain_more (@FipcCodec.parse_nil {})]
    rfl
  order _ := rfl

theorem wire_start : (start : Cut daemon).wire = Wire.start := by
  have hnext : daemon.turnBehind (drainTables {} {} []) = .again (FipcSession.init {}) := by
    rw [drainTables, Incremental.drain_more (@FipcCodec.parse_nil {})]
    rfl
  unfold wire Wire.start ClientState.writeAll ServerState.writeAll start
  simp only [hnext, if_neg Daemon.statusBytes_ne_nil, if_true, List.append_nil]

variable (cut : Cut daemon)

theorem answer_response : ∃ later, cut.got ++ (cut.toClient ++ (cut.unwritten ++ later)) = daemon.response := by
  obtain ⟨later, hlater⟩ := daemon.answerTo_prefix cut.request
  refine ⟨later, ?_⟩
  rw [← hlater, ← cut.answer]
  simp only [List.append_assoc]

theorem of_server_closed (h : cut.wire.server.closed = true) :
    cut.wire.server = .returned (.ok ()) ∧ cut.toServer = [] ∧ cut.unsent = [] ∧
      cut.got ++ cut.toClient = daemon.response := by
  simp only [wire, ServerState.writeAll] at h ⊢
  split_ifs at h ⊢ with hunwritten
  · cases hnext : daemon.turnBehind (drainTables {} {} cut.asked) with
    | again session =>
      rw [hnext] at h
      cases h
    | returns result =>
      obtain ⟨rfl, hrest⟩ := daemon.turnBehind_eq_returns cut.request hnext
      obtain ⟨htoServer, hunsent⟩ := List.append_eq_nil_iff.mp hrest
      have hasked : cut.asked = statusBytes := by
        rw [← cut.request, hrest, List.append_nil]
      have hanswer := cut.answer
      rw [hunwritten, List.append_nil, hasked, daemon.answerTo_statusBytes] at hanswer
      exact ⟨rfl, htoServer, hunsent, hanswer⟩
  · cases h

theorem of_client_closed (h : cut.wire.client.closed = true) :
    cut.wire.client = .returned (.ok daemon.statusText) ∧ cut.unsent = [] ∧ cut.toClient = [] ∧
      cut.unwritten = [] := by
  simp only [wire, ClientState.behind] at h ⊢
  split_ifs at h ⊢ with hunsent
  · cases hfirst : firstStatus cut.got with
    | none =>
      rw [hfirst] at h
      cases h
    | some event =>
      obtain ⟨later, hlater⟩ := cut.answer_response
      obtain ⟨rfl, hrest⟩ := daemon.firstStatus_eq_some hlater hfirst
      obtain ⟨htoClient, hrest⟩ := List.append_eq_nil_iff.mp hrest
      exact ⟨rfl, hunsent, htoClient, (List.append_eq_nil_iff.mp hrest).1⟩
  · cases h

/-! ## Steps -/

theorem client_unsent : cut.wire.client.unsent = cut.unsent := by
  simp only [wire, ClientState.behind]
  split_ifs with hunsent
  · cases firstStatus cut.got with
    | none => exact hunsent.symm
    | some event => exact hunsent.symm
  · rfl

theorem of_client_sending {rest : Bytes} (h : cut.wire.client = .sending rest) :
    rest = cut.unsent ∧ cut.unsent ≠ [] := by
  have hrest := cut.client_unsent
  rw [h] at hrest
  refine ⟨hrest, fun hunsent => ?_⟩
  simp only [wire, ClientState.behind, if_pos hunsent] at h
  cases hfirst : firstStatus cut.got with
  | none => simp [hfirst] at h
  | some event => simp [hfirst] at h

theorem of_client_receiving {codec : FipcCodec} (h : cut.wire.client = .receiving codec) :
    cut.unsent = [] ∧ firstStatus cut.got = none ∧
      codec = ⟨{}, (drainFrames cut.got).left, false⟩ := by
  simp only [wire, ClientState.behind] at h
  split_ifs at h with hunsent
  cases hfirst : firstStatus cut.got with
  | none =>
    rw [hfirst] at h
    exact ⟨hunsent, rfl, (ClientState.receiving.inj h).symm⟩
  | some event => simp [hfirst] at h

theorem of_server_reading {session : FipcSession} (h : cut.wire.server = .reading session) :
    cut.unwritten = [] ∧ daemon.turnBehind (drainTables {} {} cut.asked) = .again session := by
  simp only [wire, ServerState.writeAll] at h
  split_ifs at h with hunwritten
  cases hnext : daemon.turnBehind (drainTables {} {} cut.asked) with
  | again other =>
    rw [hnext] at h
    exact ⟨hunwritten, congrArg TurnEnd.again (ServerState.reading.inj h)⟩
  | returns result =>
    rw [hnext] at h
    cases h

theorem of_server_writing {rest : Bytes} {next : TurnEnd} (h : cut.wire.server = .writing rest next) :
    rest = cut.unwritten ∧ next = daemon.turnBehind (drainTables {} {} cut.asked) ∧ cut.unwritten ≠ [] := by
  simp only [wire, ServerState.writeAll] at h
  split_ifs at h with hunwritten
  · cases hnext : daemon.turnBehind (drainTables {} {} cut.asked) with
    | again other =>
      rw [hnext] at h
      cases h
    | returns result =>
      rw [hnext] at h
      cases h
  · obtain ⟨hrest, hnext⟩ := ServerState.writing.inj h
    exact ⟨hrest.symm, hnext.symm, hunwritten⟩

end Cut

/-- Every byte is to be sent and received, at most. -/
def Wire.pending (daemon : Daemon) (wire : Wire) : Nat :=
  2 * wire.client.unsent.length + wire.toServer.length +
    (2 * (daemon.response.length - wire.sent.length) + wire.toClient.length)

namespace Cut

variable {daemon : Daemon} (cut : Cut daemon) {n : Nat} {wire : Wire}

theorem pending_wire : cut.wire.pending daemon = 2 * cut.unsent.length + cut.toServer.length +
    (2 * (daemon.response.length - (cut.got.length + cut.toClient.length)) + cut.toClient.length) := by
  rw [Wire.pending, client_unsent]
  simp only [Cut.wire, List.length_append]

theorem step_clientSend (h : cut.wire.step daemon (.clientSend n) = some wire) :
    ∃ next : Cut daemon, next.wire = wire ∧ next.wire.pending daemon < cut.wire.pending daemon := by
  cases hclient : cut.wire.client with
  | receiving codec => simp [Wire.step, hclient] at h
  | returned result => simp [Wire.step, hclient] at h
  | sending rest =>
    obtain ⟨rfl, hunsent⟩ := cut.of_client_sending hclient
    have hopen : ¬ cut.wire.server.closed = true := fun hclosed =>
      hunsent (cut.of_server_closed hclosed).2.2.1
    simp only [Wire.step, hclient, if_neg hopen] at h
    split_ifs at h with hn
    let next : Cut daemon :=
      { cut with
        toServer := cut.toServer ++ cut.unsent.take n
        unsent := cut.unsent.drop n
        request := by rw [List.append_assoc, List.take_append_drop, cut.request]
        order := fun _ => cut.order hunsent }
    have hclient' : next.wire.client = .writeAll (cut.unsent.drop n) := by
      simp only [Cut.wire, next, cut.order hunsent, ClientState.behind_nil, ClientState.writeAll]
    refine ⟨next, ?_, ?_⟩
    · rw [← Option.some.inj h, ← hclient']
      rfl
    · rw [pending_wire, pending_wire]
      simp only [next, List.length_append, List.length_take, List.length_drop]
      omega

theorem step_serverRecv (h : cut.wire.step daemon (.serverRecv n) = some wire) :
    ∃ next : Cut daemon, next.wire = wire ∧ next.wire.pending daemon < cut.wire.pending daemon := by
  cases hserver : cut.wire.server with
  | writing rest next => simp [Wire.step, hserver] at h
  | returned result => simp [Wire.step, hserver] at h
  | reading session =>
    obtain ⟨hunwritten, hnext⟩ := cut.of_server_reading hserver
    simp only [Wire.step, hserver, Option.map_eq_some_iff, Prod.exists] at h
    obtain ⟨chunk, left, hrecv, rfl⟩ := h
    obtain ⟨hpipe, hchunk | ⟨_, hempty, hclosed⟩⟩ := recv_eq_some hrecv
    · have hrequest : (cut.asked ++ chunk) ++ (left ++ cut.unsent) = statusBytes := by
        have hrequest := cut.request
        rw [show cut.toServer = chunk ++ left from hpipe] at hrequest
        simpa only [List.append_assoc] using hrequest
      obtain ⟨sent, hanswer, hreceive⟩ := ServerState.receive_behind daemon hchunk
        (Daemon.drain_asked hrequest) hnext
      let next : Cut daemon :=
        { cut with
          asked := cut.asked ++ chunk
          toServer := left
          unwritten := sent
          request := hrequest
          answer := by
            have hsofar := cut.answer
            rw [hunwritten, List.append_nil] at hsofar
            rw [hanswer, ← hsofar, List.append_assoc] }
      refine ⟨next, ?_, ?_⟩
      · rw [hreceive]
        rfl
      · have hlength : cut.toServer.length = chunk.length + left.length :=
          (congrArg List.length hpipe).trans List.length_append
        have hpos := List.length_pos_of_ne_nil hchunk.1
        rw [pending_wire, pending_wire]
        simp only [next]
        omega
    · -- a client that has closed has sent the whole request
      have hasked := cut.request
      rw [show cut.toServer = [] from hempty, (cut.of_client_closed hclosed).2.1, List.append_nil,
        List.append_nil] at hasked
      rw [hasked, daemon.turnBehind_statusBytes] at hnext
      cases hnext

theorem step_serverSend (h : cut.wire.step daemon (.serverSend n) = some wire) :
    ∃ next : Cut daemon, next.wire = wire ∧ next.wire.pending daemon < cut.wire.pending daemon := by
  cases hserver : cut.wire.server with
  | reading session => simp [Wire.step, hserver] at h
  | returned result => simp [Wire.step, hserver] at h
  | writing rest behind =>
    obtain ⟨rfl, rfl, hunwritten⟩ := cut.of_server_writing hserver
    have hopen : ¬ cut.wire.client.closed = true := fun hclosed =>
      hunwritten (cut.of_client_closed hclosed).2.2.2
    simp only [Wire.step, hserver, if_neg hopen] at h
    split_ifs at h with hn
    let next : Cut daemon :=
      { cut with
        toClient := cut.toClient ++ cut.unwritten.take n
        unwritten := cut.unwritten.drop n
        answer := by rw [List.append_assoc, List.take_append_drop, cut.answer] }
    refine ⟨next, ?_, ?_⟩
    · rw [← Option.some.inj h]
      simp only [Cut.wire, next, List.append_assoc]
    · obtain ⟨later, hlater⟩ := cut.answer_response
      have hlength := congrArg List.length hlater
      rw [pending_wire, pending_wire]
      simp only [next, List.length_append, List.length_take] at hlength ⊢
      omega

theorem step_clientRecv (h : cut.wire.step daemon (.clientRecv n) = some wire) :
    ∃ next : Cut daemon, next.wire = wire ∧ next.wire.pending daemon < cut.wire.pending daemon := by
  cases hclient : cut.wire.client with
  | sending rest => simp [Wire.step, hclient] at h
  | returned result => simp [Wire.step, hclient] at h
  | receiving codec =>
    obtain ⟨hunsent, hfirst, rfl⟩ := cut.of_client_receiving hclient
    simp only [Wire.step, hclient, Option.map_eq_some_iff, Prod.exists] at h
    obtain ⟨chunk, left, hrecv, rfl⟩ := h
    obtain ⟨hpipe, hchunk | ⟨_, hempty, hclosed⟩⟩ := recv_eq_some hrecv
    · have hsplit : cut.toClient = chunk ++ left := hpipe
      obtain ⟨later, hlater⟩ := cut.answer_response
      have hresponse : (cut.got ++ chunk) ++ (left ++ (cut.unwritten ++ later)) = daemon.response := by
        rw [← hlater, hsplit]
        simp only [List.append_assoc]
      have herror := daemon.drainFrames_response.1
      rw [← hresponse] at herror
      have hreceive := ClientState.receive_behind hchunk (Incremental.drain_error_of_append herror) hfirst
      let next : Cut daemon :=
        { cut with
          got := cut.got ++ chunk
          toClient := left
          answer := by rw [← cut.answer, hsplit]; simp only [List.append_assoc]
          order := fun h => absurd hunsent h }
      refine ⟨next, ?_, ?_⟩
      · rw [hreceive]
        simp only [Cut.wire, next, if_pos hunsent, hsplit, List.append_assoc]
      · have hlength := congrArg List.length hlater
        have hpos := List.length_pos_of_ne_nil hchunk.1
        rw [pending_wire, pending_wire, hsplit]
        simp only [next, hsplit, List.length_append] at hlength ⊢
        omega
    · -- a server that has closed has sent the whole response
      obtain ⟨_, _, _, hresponse⟩ := cut.of_server_closed hclosed
      rw [show cut.toClient = [] from hempty, List.append_nil] at hresponse
      rw [hresponse, daemon.firstStatus_response] at hfirst
      cases hfirst

theorem step (cut : Cut daemon) (move : Move) (h : cut.wire.step daemon move = some wire) :
    ∃ next : Cut daemon, next.wire = wire ∧ next.wire.pending daemon < cut.wire.pending daemon := by
  cases move with
  | clientSend n => exact cut.step_clientSend h
  | serverRecv n => exact cut.step_serverRecv h
  | serverSend n => exact cut.step_serverSend h
  | clientRecv n => exact cut.step_clientRecv h

/-! ## Progress -/

theorem unsent_of_stuck (h : cut.wire.step daemon (.clientSend 1) = none) : cut.unsent = [] := by
  by_contra hunsent
  have hclient : cut.wire.client = .sending cut.unsent := if_neg hunsent
  have hpos := List.length_pos_of_ne_nil hunsent
  simp only [Wire.step, hclient] at h
  split_ifs at h with _ hn
  exact hn ⟨le_rfl, hpos⟩

theorem unwritten_of_stuck (h : cut.wire.step daemon (.serverSend 1) = none) : cut.unwritten = [] := by
  by_contra hunwritten
  have hserver : cut.wire.server =
      .writing cut.unwritten (daemon.turnBehind (drainTables {} {} cut.asked)) := if_neg hunwritten
  have hpos := List.length_pos_of_ne_nil hunwritten
  simp only [Wire.step, hserver] at h
  split_ifs at h with _ hn
  exact hn ⟨le_rfl, hpos⟩

theorem recv_one {pipe : Bytes} (hpipe : pipe ≠ []) (closed : Bool) :
    recv pipe closed 1 = some (pipe.take 1, pipe.drop 1) :=
  if_pos (.inl ⟨le_rfl, by decide, List.length_pos_of_ne_nil hpipe⟩)

theorem toServer_of_stuck (hunwritten : cut.unwritten = [])
    (h : cut.wire.step daemon (.serverRecv 1) = none) : cut.toServer = [] := by
  by_contra hpipe
  cases hserver : cut.wire.server with
  | reading session =>
    have hrecv := @recv_one cut.wire.toServer hpipe cut.wire.client.closed
    simp [Wire.step, hserver, hrecv] at h
  | writing rest next => exact (cut.of_server_writing hserver).2.2 hunwritten
  | returned result => exact hpipe (cut.of_server_closed (by rw [hserver]; rfl)).2.1

theorem toClient_of_stuck (hunsent : cut.unsent = [])
    (h : cut.wire.step daemon (.clientRecv 1) = none) : cut.toClient = [] := by
  by_contra hpipe
  cases hclient : cut.wire.client with
  | receiving codec =>
    have hrecv := @recv_one cut.wire.toClient hpipe cut.wire.server.closed
    simp [Wire.step, hclient, hrecv] at h
  | sending rest => exact (cut.of_client_sending hclient).2 hunsent
  | returned result => exact hpipe (cut.of_client_closed (by rw [hclient]; rfl)).2.2.1

theorem returned_of_stuck (h : ∀ move, cut.wire.step daemon move = none) :
    cut.wire.server = .returned (.ok ()) ∧ cut.wire.sent = daemon.response ∧
      cut.wire.client = .returned (.ok daemon.statusText) := by
  have hunsent := cut.unsent_of_stuck (h (.clientSend 1))
  have hunwritten := cut.unwritten_of_stuck (h (.serverSend 1))
  have htoServer := cut.toServer_of_stuck hunwritten (h (.serverRecv 1))
  have htoClient := cut.toClient_of_stuck hunsent (h (.clientRecv 1))
  have hasked := cut.request
  rw [htoServer, hunsent, List.append_nil, List.append_nil] at hasked
  have hgot := cut.answer
  rw [htoClient, hunwritten, List.append_nil, List.append_nil, hasked,
    daemon.answerTo_statusBytes] at hgot
  simp only [wire, ServerState.writeAll, ClientState.behind, hunwritten, hasked, hunsent, hgot, htoClient,
    daemon.turnBehind_statusBytes, daemon.firstStatus_response, if_true, List.append_nil]
  exact ⟨trivial, trivial, rfl⟩

end Cut

/-! ## Agreement -/

/-- **Client and daemon agree** under every delivery. A run has at most so many moves and gets stuck only
where both parties have returned. The server returns ok, having sent the welcome and the status event and
nothing else, and the client returns the text of the status event. -/
theorem client_and_daemon_agree (daemon : Daemon) (moves : List Move) (wire : Wire)
    (hrun : moves.foldlM (Wire.step daemon) Wire.start = some wire) :
    moves.length ≤ 2 * (statusBytes.length + daemon.response.length) ∧
      wire.sent <+: daemon.response ∧
      (∀ result, wire.server = .returned result → result = .ok () ∧ wire.sent = daemon.response) ∧
      (∀ result, wire.client = .returned result → result = .ok daemon.statusText) ∧
      ((∀ move, wire.step daemon move = none) →
        wire.server = .returned (.ok ()) ∧ wire.sent = daemon.response ∧
          wire.client = .returned (.ok daemon.statusText)) := by
  have hstep (s : Wire) (move : Move) (t : Wire) (hs : ∃ cut : Cut daemon, cut.wire = s)
      (h : Wire.step daemon s move = some t) :
      (∃ cut : Cut daemon, cut.wire = t) ∧ t.pending daemon < s.pending daemon := by
    obtain ⟨cut, rfl⟩ := hs
    obtain ⟨next, rfl, hless⟩ := cut.step move h
    exact ⟨⟨next, rfl⟩, hless⟩
  have hbegin : Wire.start.pending daemon = 2 * (statusBytes.length + daemon.response.length) := by
    rw [← @Cut.wire_start daemon, Cut.pending_wire]
    simp only [Cut.start, List.length_nil]
    omega
  obtain ⟨⟨cut, rfl⟩, hbound⟩ := Runs.foldlM_bounded hstep ⟨.start, Cut.wire_start⟩ hrun
  refine ⟨by omega, ?_, fun result hserver => ?_, fun result hclient => ?_, cut.returned_of_stuck⟩
  · obtain ⟨later, hlater⟩ := cut.answer_response
    exact ⟨cut.unwritten ++ later, by rw [← hlater, Cut.wire, List.append_assoc]⟩
  · obtain ⟨hok, _, _, hsent⟩ := cut.of_server_closed (by rw [hserver]; rfl)
    exact ⟨ServerState.returned.inj (hserver.symm.trans hok), hsent⟩
  · obtain ⟨hok, _⟩ := cut.of_client_closed (by rw [hclient]; rfl)
    exact ClientState.returned.inj (hclient.symm.trans hok)

/-- The server receives the hello and the opening of the stream first, and the client half of the welcome. -/
theorem client_and_daemon_agree_in_pieces :
    let moves := [.clientSend 126, .serverRecv 80, .serverSend 40, .clientRecv 20, .serverRecv 46,
      .serverSend 67, .clientRecv 87]
    ∃ wire, moves.foldlM (Wire.step Daemon.started) Wire.start = some wire ∧
      wire.server = .returned (.ok ()) ∧ wire.sent = Daemon.started.response ∧
      wire.client = .returned (.ok Daemon.started.statusText) := by
  intro moves
  have hends : (moves.foldlM (Wire.step Daemon.started) Wire.start).map
      (fun wire => (wire.server.closed, wire.client.closed)) = some (true, true) := by
    decide +kernel
  obtain ⟨wire, hrun, hclosed⟩ := Option.map_eq_some_iff.mp hends
  obtain ⟨hserver, hclient⟩ := Prod.mk.inj hclosed
  obtain ⟨_, _, hserved, hanswered, _⟩ := client_and_daemon_agree Daemon.started moves wire hrun
  refine ⟨wire, hrun, ?_⟩
  cases hs : wire.server with
  | returned result =>
    obtain ⟨rfl, hsent⟩ := hserved result hs
    cases hc : wire.client with
    | returned answer => exact ⟨rfl, hsent, by rw [hanswered answer hc]⟩
    | sending rest => simp [hc, ClientState.closed] at hclient
    | receiving codec => simp [hc, ClientState.closed] at hclient
  | reading session => simp [hs, ServerState.closed] at hserver
  | writing rest next => simp [hs, ServerState.closed] at hserver

end Forge
