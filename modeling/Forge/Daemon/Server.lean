import Forge.Ipc.SessionTrace
import Forge.Workspace.FailedJobs

/-!
# The socket daemon

`Daemon` and `UnixSocketDaemon::serve_once` of `server.cpp`, and the loop of `forged`. A connection is
what `recv` returns on it: chunks of up to 4096 bytes, and the end if the client closes. Calls of `accept`,
`recv` and `send` succeed. `serve_once` answers the events of each feed until it has answered a build
request, so it returns ok on exactly the connections that ask for a build (`serveOnce_ok_iff`). The loop
ends with the first connection on which it does not, and what a well-formed client gets behind others is
its answer exactly if each of them has asked (`answered_iff`).
-/

namespace Forge

open FipcSession (drainTables opened)
open SessionTables (eventOf)

/-! ## The daemon -/

inductive DaemonState
  | initialized | running | stopping | stopped
deriving DecidableEq, Repr

structure Daemon where
  state : DaemonState := .initialized
  workspace : WorkspaceCore

def daemonStateName : DaemonState → Str
  | .initialized => "initialized"
  | .running => "running"
  | .stopping => "stopping"
  | .stopped => "stopped"

/-- A number as `operator<<` writes it. -/
def decimal (n : Nat) : Str := (Nat.toDigits 10 n).map fun c => UInt8.ofNat c.toNat

namespace Daemon

/-- The text of a status event. -/
def statusText (daemon : Daemon) : Str :=
  Str.ofLiteral "state=" ++ daemonStateName daemon.state ++ Str.ofLiteral " generation=" ++
    decimal daemon.workspace.graph.generation.value.toNat ++ Str.ofLiteral "\n"

def welcome (requestToken : UInt64) : FipcFrame := { type := .welcome, requestToken }

def statusEvent (streamId : UInt32) (requestToken : UInt64) (payload : Bytes) : FipcFrame :=
  { type := .statusEvent, streamId, streamGeneration := 1, requestToken, payload }

/-- The bytes written for a hello. -/
def greeting (event : SessionEvent) : Bytes :=
  if event.type = .hello then FipcCodec.encode (welcome event.requestToken) else []

/-- The loop of `serve_once` over the events of a feed: the bytes it writes, and whether it returns. -/
def answer (daemon : Daemon) : List SessionEvent → Bytes × Bool
  | [] => ([], false)
  | event :: events =>
    if event.type = .buildRequest then
      (greeting event ++
        FipcCodec.encode (statusEvent event.streamId event.requestToken daemon.statusText), true)
    else
      let (later, done) := daemon.answer events
      (greeting event ++ later, done)

end Daemon

/-- What `recv` returns on a connection, and whether it ends; on one that does not, it waits. -/
structure Connection where
  chunks : List Bytes
  closes : Bool
  received : ∀ chunk ∈ chunks, chunk ≠ [] ∧ chunk.length ≤ 4096

/-- How `serve_once` ends on a connection. -/
inductive Served
  | returned (result : Result Unit)
  | waiting
deriving DecidableEq

/-- How a turn of the loop of `serve_once` ends: the loop goes on with the session, or returns. -/
inductive TurnEnd
  | again (session : FipcSession)
  | returns (result : Result Unit)

def closedBeforeRequest : Status :=
  Status.error .protocol "unix-socket-daemon" "client closed before request"

namespace Daemon

/-- A turn of the loop of `serve_once` in which `recv` gives some bytes: what it sends and how it ends. -/
def serveTurn (daemon : Daemon) (session : FipcSession) (chunk : Bytes) : Bytes × TurnEnd :=
  match session.feed chunk with
  | (.error status, _) => ([], .returns (.error status))
  | (.ok events, session) =>
    let (sent, done) := daemon.answer events
    (sent, if done then .returns (.ok ()) else .again session)

/-- The loop of `serve_once`: the bytes it sends and how it ends. -/
def serveChunks (daemon : Daemon) (closes : Bool) : FipcSession → List Bytes → Bytes × Served
  | _, [] => ([], if closes then .returned (.error closedBeforeRequest) else .waiting)
  | session, chunk :: chunks =>
    match daemon.serveTurn session chunk with
    | (sent, .returns result) => (sent, .returned result)
    | (sent, .again session) =>
      let (later, served) := daemon.serveChunks closes session chunks
      (sent ++ later, served)

/-- `serve_once` on the connection that it accepts. -/
def serveOnce (daemon : Daemon) (connection : Connection) : Bytes × Served :=
  daemon.serveChunks connection.closes (FipcSession.init {}) connection.chunks

/-- The loop of `forged --socket`: what each served connection is sent, and the exit code once there is
one. -/
def serveLoop (daemon : Daemon) : List Connection → List Bytes × Option Nat
  | [] => ([], none)
  | connection :: connections =>
    match daemon.serveOnce connection with
    | (sent, .returned (.ok _)) =>
      let (replies, exitCode) := daemon.serveLoop connections
      (sent :: replies, exitCode)
    | (sent, .returned (.error _)) => ([sent], some 10)
    | (sent, .waiting) => ([sent], none)

/-! ## The answer to events -/

theorem answer_append (daemon : Daemon) (events later : List SessionEvent) :
    daemon.answer (events ++ later) =
      if (daemon.answer events).2 then daemon.answer events
      else ((daemon.answer events).1 ++ (daemon.answer later).1, (daemon.answer later).2) := by
  induction events with
  | nil => rfl
  | cons event events ih =>
    rw [List.cons_append, answer, answer]
    by_cases hrequest : event.type = .buildRequest
    · rw [if_pos hrequest, if_pos hrequest, if_pos rfl]
    · rw [if_neg hrequest, if_neg hrequest]
      simp only [ih]
      split_ifs
      · rfl
      · rw [List.append_assoc]

theorem answer_done_iff (daemon : Daemon) (events : List SessionEvent) :
    (daemon.answer events).2 = true ↔ ∃ event ∈ events, event.type = .buildRequest := by
  induction events with
  | nil => simp [answer]
  | cons event events ih =>
    rw [answer]
    by_cases hrequest : event.type = .buildRequest
    · rw [if_pos hrequest]
      exact iff_of_true rfl ⟨event, List.mem_cons_self, hrequest⟩
    · rw [if_neg hrequest, List.exists_mem_cons_iff, ← ih]
      simp [hrequest]

end Daemon

/-! ## One connection -/

/-- The chunks drain without an error to events with a build request. -/
def AsksFrom (tables : SessionTables) (buffer : Bytes) (chunks : List Bytes) : Prop :=
  ∃ n, (drainTables {} tables (buffer ++ (chunks.take n).flatten)).error = none ∧
    ∃ event ∈ (drainTables {} tables (buffer ++ (chunks.take n).flatten)).outputs,
      event.type = .buildRequest

/-- Some first chunks of the connection hold only frames that a session accepts, one of them a build
request. -/
def Connection.Asks (connection : Connection) : Prop := AsksFrom {} [] connection.chunks

theorem feed_chunk {tables : SessionTables} {buffer chunk : Bytes}
    (hmore : FipcCodec.parse {} buffer = .more) (hchunk : chunk.length ≤ 4096) :
    FipcSession.Drained {} [] (drainTables {} tables (buffer ++ chunk))
      ((opened {} buffer tables).feed chunk) := by
  have hheld := FipcCodec.length_lt_of_parse_more (by decide) hmore
  have hroom : ({} : Limits).maxFrameBytes.toNat + 4096 ≤ ({} : Limits).maxSingleAllocation.toNat := by
    decide
  exact FipcSession.feed_drained tables buffer chunk (by omega)

/-- How a turn ends behind which the session's buffer has drained to `o`. -/
def Daemon.turnBehind (daemon : Daemon) (o : Incremental.Outcome Byte Status SessionTables SessionEvent) :
    TurnEnd :=
  if (daemon.answer o.outputs).2 then .returns (.ok ()) else .again (opened {} o.left o.state)

theorem serveTurn_of_none (daemon : Daemon) {tables : SessionTables} {buffer chunk : Bytes}
    (hmore : FipcCodec.parse {} buffer = .more) (hchunk : chunk.length ≤ 4096)
    (herror : (drainTables {} tables (buffer ++ chunk)).error = none) :
    daemon.serveTurn (opened {} buffer tables) chunk =
      ((daemon.answer (drainTables {} tables (buffer ++ chunk)).outputs).1,
        daemon.turnBehind (drainTables {} tables (buffer ++ chunk))) := by
  rw [Daemon.serveTurn, (feed_chunk hmore hchunk).of_none herror]
  rfl

theorem serveTurn_of_some (daemon : Daemon) {tables : SessionTables} {buffer chunk : Bytes}
    {status : Status} (hmore : FipcCodec.parse {} buffer = .more) (hchunk : chunk.length ≤ 4096)
    (herror : (drainTables {} tables (buffer ++ chunk)).error = some status) :
    daemon.serveTurn (opened {} buffer tables) chunk = ([], .returns (.error status)) := by
  obtain ⟨hres, _⟩ := (@feed_chunk tables buffer chunk hmore hchunk).of_some status herror
  rcases hpair : (opened {} buffer tables).feed chunk with ⟨res, session⟩
  rw [hpair] at hres
  obtain rfl : res = .error status := hres
  rw [Daemon.serveTurn, hpair]

theorem drain_first {tables : SessionTables} {buffer chunk : Bytes} {chunks : List Bytes} {n : Nat}
    (h : (drainTables {} tables (buffer ++ ((chunk :: chunks).take (n + 1)).flatten)).error = none) :
    let first := drainTables {} tables (buffer ++ chunk)
    let later := drainTables {} first.state (first.left ++ (chunks.take n).flatten)
    first.error = none ∧ later.error = none ∧
      (drainTables {} tables (buffer ++ ((chunk :: chunks).take (n + 1)).flatten)).outputs =
        first.outputs ++ later.outputs := by
  rw [List.take_succ_cons, List.flatten_cons, ← List.append_assoc] at h ⊢
  intro first later
  have hfirst : first.error = none := Incremental.drain_error_of_append h
  obtain ⟨_, houtputs, herror, _⟩ := Incremental.drain_append_of_none hfirst (chunks.take n).flatten
  exact ⟨hfirst, herror ▸ h, houtputs⟩

/-- **A connection that asks is answered**, as the events of its first chunks are. -/
theorem serveChunks_of_asks (daemon : Daemon) (closes : Bool) (chunks : List Bytes)
    (hchunks : ∀ chunk ∈ chunks, chunk.length ≤ 4096) : ∀ (tables : SessionTables) (buffer : Bytes) (n : Nat),
      FipcCodec.parse {} buffer = .more →
      (drainTables {} tables (buffer ++ (chunks.take n).flatten)).error = none →
      (∃ event ∈ (drainTables {} tables (buffer ++ (chunks.take n).flatten)).outputs,
        event.type = .buildRequest) →
        daemon.serveChunks closes (opened {} buffer tables) chunks =
          ((daemon.answer (drainTables {} tables (buffer ++ (chunks.take n).flatten)).outputs).1,
            .returned (.ok ())) := by
  have hnothing (tables : SessionTables) (buffer : Bytes) (hmore : FipcCodec.parse {} buffer = .more)
      (hasks : ∃ event ∈ (drainTables {} tables (buffer ++ [])).outputs, event.type = .buildRequest) :
      False := by
    have hfront : (FipcCodec.decoder {}).front buffer = .more := hmore
    rw [List.append_nil, drainTables, Incremental.drain_more hfront] at hasks
    simp at hasks
  induction chunks with
  | nil =>
    intro tables buffer n hmore _ hasks
    rw [List.take_nil] at hasks
    exact (hnothing tables buffer hmore hasks).elim
  | cons chunk chunks ih =>
    intro tables buffer n hmore herror hasks
    cases n with
    | zero => exact (hnothing tables buffer hmore hasks).elim
    | succ n =>
      obtain ⟨hfirst, hlater, houtputs⟩ := drain_first herror
      rw [houtputs] at hasks ⊢
      rw [Daemon.serveChunks, serveTurn_of_none daemon hmore (hchunks chunk List.mem_cons_self) hfirst,
        Daemon.answer_append, Daemon.turnBehind]
      split_ifs with hdone
      · rfl
      · rw [← Daemon.answer_done_iff daemon, Daemon.answer_append, if_neg hdone,
          Daemon.answer_done_iff] at hasks
        simp only
        rw [ih (fun c hc => hchunks c (List.mem_cons_of_mem _ hc)) _ _ n (Incremental.front_left hfirst)
          hlater hasks]

theorem asks_of_serveChunks (daemon : Daemon) (closes : Bool) (chunks : List Bytes)
    (hchunks : ∀ chunk ∈ chunks, chunk.length ≤ 4096) : ∀ (tables : SessionTables) (buffer : Bytes),
      FipcCodec.parse {} buffer = .more →
      (daemon.serveChunks closes (opened {} buffer tables) chunks).2 = .returned (.ok ()) →
        AsksFrom tables buffer chunks := by
  induction chunks with
  | nil =>
    intro tables buffer _ hserved
    cases closes
    · cases hserved
    · cases hserved
  | cons chunk chunks ih =>
    intro tables buffer hmore hserved
    have hchunk := hchunks chunk List.mem_cons_self
    rw [Daemon.serveChunks] at hserved
    cases herror : (drainTables {} tables (buffer ++ chunk)).error with
    | some status =>
      rw [serveTurn_of_some daemon hmore hchunk herror] at hserved
      cases hserved
    | none =>
      rw [serveTurn_of_none daemon hmore hchunk herror, Daemon.turnBehind] at hserved
      by_cases hdone : (daemon.answer (drainTables {} tables (buffer ++ chunk)).outputs).2 = true
      · refine ⟨1, ?_⟩
        rw [List.take_succ_cons, List.take_zero, List.flatten_cons, List.flatten_nil, List.append_nil]
        exact ⟨herror, (Daemon.answer_done_iff daemon _).mp hdone⟩
      · rw [if_neg hdone] at hserved
        obtain ⟨n, hlater, event, hevent, htype⟩ :=
          ih (fun c hc => hchunks c (List.mem_cons_of_mem _ hc)) _ _ (Incremental.front_left herror) hserved
        obtain ⟨_, houtputs, herror', _⟩ :=
          Incremental.drain_append_of_none herror (chunks.take n).flatten
        refine ⟨n + 1, ?_⟩
        rw [List.take_succ_cons, List.flatten_cons, ← List.append_assoc]
        exact ⟨herror'.trans hlater, event, houtputs ▸ List.mem_append_right _ hevent, htype⟩

theorem serveOnce_ok_iff (daemon : Daemon) (connection : Connection) :
    (daemon.serveOnce connection).2 = .returned (.ok ()) ↔ connection.Asks := by
  have hchunks : ∀ chunk ∈ connection.chunks, chunk.length ≤ 4096 :=
    fun chunk hchunk => (connection.received chunk hchunk).2
  constructor
  · exact asks_of_serveChunks daemon connection.closes connection.chunks hchunks {} [] FipcCodec.parse_nil
  · rintro ⟨n, herror, hasks⟩
    have hserved := serveChunks_of_asks daemon connection.closes connection.chunks hchunks {} [] n
      FipcCodec.parse_nil herror hasks
    exact congrArg Prod.snd hserved

/-! ## A well-formed client -/

/-- A hello, the opening of a stream and a build request on it, each within the limits. -/
structure Exchange (hello openStream request : FipcFrame) : Prop where
  greets : hello.type = .hello ∧ hello.streamId = 0 ∧ hello.sequence = 0
  opens : openStream.type = .openStream ∧ openStream.streamId ≠ 0
  asks : request.type = .buildRequest ∧ request.streamId = openStream.streamId ∧
    request.streamGeneration = openStream.streamGeneration ∧ request.sequence = 0
  fits : FipcCodec.Fits {} hello ∧ FipcCodec.Fits {} openStream ∧ FipcCodec.Fits {} request

def exchangeBytes (hello openStream request : FipcFrame) : Bytes :=
  FipcCodec.encode hello ++ (FipcCodec.encode openStream ++ FipcCodec.encode request)

/-- The tables of a session behind a hello and the opening of its first stream. -/
def oneStream (openStream : FipcFrame) : SessionTables where
  state := .active
  streams := (∅ : Std.ExtTreeMap UInt32 StreamState).insert openStream.streamId
    { generation := openStream.streamGeneration }

section

variable {hello openStream request : FipcFrame} (h : Exchange hello openStream request)
include h

theorem Exchange.apply_hello : SessionTables.applyFrame {} {} hello =
    (.ok (eventOf hello), { state := .negotiated }) := by
  unfold SessionTables.applyFrame SessionTables.applyHello
  simp [h.greets, eventOf, Except.map]

theorem Exchange.apply_openStream : SessionTables.applyFrame {} { state := .negotiated } openStream =
    (.ok (eventOf openStream), oneStream openStream) := by
  unfold SessionTables.applyFrame SessionTables.applyOpenStream oneStream
  simp [h.opens, eventOf, Except.map]

theorem Exchange.apply_request : ∃ tables,
    (oneStream openStream).applyFrame {} request = (.ok (eventOf request), tables) := by
  obtain ⟨htype, hid, hgeneration, hsequence⟩ := h.asks
  have hnext : (oneStream openStream).NextOnStream request
      { generation := openStream.streamGeneration } := by
    refine ⟨?_, hgeneration.symm, hsequence.symm⟩
    rw [hid, oneStream, Std.ExtTreeMap.getElem?_insert_self]
  obtain ⟨tables, hok⟩ := SessionTables.applyStreamFrame_ok (by rw [htype]; decide)
    (fun _ prior hprior => by simp [oneStream] at hprior) (.inr ⟨_, hnext⟩)
  refine ⟨tables, ?_⟩
  rw [SessionTables.applyFrame_of_proceeds {} (.inl rfl), hok]
  rfl

theorem Exchange.drain :
    let o := drainTables {} {} (exchangeBytes hello openStream request)
    o.error = none ∧ o.outputs = [eventOf hello, eventOf openStream, eventOf request] ∧ o.left = [] := by
  obtain ⟨tables, hrequest⟩ := h.apply_request
  have hfront1 : (FipcCodec.decoder {}).front (exchangeBytes hello openStream request) =
      .frame hello (FipcCodec.encode openStream ++ FipcCodec.encode request) :=
    FipcCodec.parse_encode h.fits.1 _
  have hfront2 : (FipcCodec.decoder {}).front (FipcCodec.encode openStream ++ FipcCodec.encode request) =
      .frame openStream (FipcCodec.encode request) := FipcCodec.parse_encode h.fits.2.1 _
  have hfront3 : (FipcCodec.decoder {}).front (FipcCodec.encode request) = .frame request [] := by
    have hparse := FipcCodec.parse_encode h.fits.2.2 []
    rwa [List.append_nil] at hparse
  have hend : (FipcCodec.decoder {}).front [] = .more := @FipcCodec.parse_nil {}
  rw [drainTables, Incremental.drain_frame hfront1 h.apply_hello,
    Incremental.drain_frame hfront2 h.apply_openStream, Incremental.drain_frame hfront3 hrequest,
    Incremental.drain_more hend]
  exact ⟨rfl, rfl, rfl⟩

theorem Exchange.answer (daemon : Daemon) :
    daemon.answer [eventOf hello, eventOf openStream, eventOf request] =
      (FipcCodec.encode (Daemon.welcome hello.requestToken) ++
        FipcCodec.encode (Daemon.statusEvent request.streamId request.requestToken daemon.statusText),
        true) := by
  have hgreets : (eventOf hello).type = .hello := h.greets.1
  have hopens : (eventOf openStream).type = .openStream := h.opens.1
  have hrequests : (eventOf request).type = .buildRequest := h.asks.1
  simp only [Daemon.answer, Daemon.greeting, hgreets, hopens, hrequests]
  simp [eventOf, FrameType.hello, FrameType.openStream, FrameType.buildRequest]

theorem Exchange.serveOnce (daemon : Daemon) {connection : Connection}
    (hbytes : connection.chunks.flatten = exchangeBytes hello openStream request) :
    daemon.serveOnce connection =
      (FipcCodec.encode (Daemon.welcome hello.requestToken) ++
        FipcCodec.encode (Daemon.statusEvent request.streamId request.requestToken daemon.statusText),
        .returned (.ok ())) := by
  obtain ⟨herror, houtputs, _⟩ := h.drain
  have hall : [] ++ (connection.chunks.take connection.chunks.length).flatten =
      exchangeBytes hello openStream request := by
    rw [List.take_length, List.nil_append, hbytes]
  have hserved := serveChunks_of_asks daemon connection.closes connection.chunks
    (fun chunk hchunk => (connection.received chunk hchunk).2) {} [] connection.chunks.length
    FipcCodec.parse_nil (by rw [hall, herror])
    (by rw [hall, houtputs]; exact ⟨eventOf request, by simp, h.asks.1⟩)
  rw [hall, houtputs, h.answer daemon] at hserved
  exact hserved

end

/-! ## The status request -/

namespace Daemon

def statusHello : FipcFrame := { type := .hello, requestToken := 1 }

def statusOpen : FipcFrame :=
  { type := .openStream, streamId := 1, streamGeneration := 1, requestToken := 1 }

def statusRequest : FipcFrame :=
  { type := .buildRequest, streamId := 1, streamGeneration := 1, requestToken := 2,
    payload := Str.ofLiteral "status" }

/-- What `UnixSocketClient::status` sends. -/
def statusBytes : Bytes := exchangeBytes statusHello statusOpen statusRequest

theorem exchange_status : Exchange statusHello statusOpen statusRequest where
  greets := by decide
  opens := by decide
  asks := by decide
  fits := by decide

theorem length_statusBytes : statusBytes.length = 126 := by
  simp only [statusBytes, exchangeBytes, List.length_append, FipcCodec.length_encode]
  rfl

theorem statusBytes_ne_nil : statusBytes ≠ [] :=
  List.ne_nil_of_length_pos (by rw [length_statusBytes]; decide)

end Daemon

/-! ## Clients one after the other -/

namespace Daemon

theorem serveLoop_of_asks {daemon : Daemon} {connection : Connection} (h : connection.Asks)
    (connections : List Connection) :
    (daemon.serveLoop (connection :: connections)).1 =
      (daemon.serveOnce connection).1 :: (daemon.serveLoop connections).1 := by
  have hok := (serveOnce_ok_iff daemon connection).mpr h
  rw [serveLoop]
  rcases hserved : daemon.serveOnce connection with ⟨sent, served⟩
  rw [hserved] at hok
  obtain rfl : served = .returned (.ok ()) := hok
  rfl

theorem serveLoop_of_not_asks {daemon : Daemon} {connection : Connection} (h : ¬ connection.Asks)
    (connections : List Connection) :
    (daemon.serveLoop (connection :: connections)).1 = [(daemon.serveOnce connection).1] := by
  have hnot := mt (serveOnce_ok_iff daemon connection).mp h
  rw [serveLoop]
  rcases hserved : daemon.serveOnce connection with ⟨sent, served⟩
  rw [hserved] at hnot
  cases served with
  | returned result =>
    cases result with
    | ok => exact absurd rfl hnot
    | error status => rfl
  | waiting => rfl

/-- **A well-formed client is answered behind others exactly if each of these has asked** for a build, and
then the answer is that of the daemon to its own frames. -/
theorem answered_iff (daemon : Daemon) (earlier : List Connection) (last : Connection)
    (hello openStream request : FipcFrame) (hexchange : Exchange hello openStream request)
    (hbytes : last.chunks.flatten = exchangeBytes hello openStream request) :
    (daemon.serveLoop (earlier ++ [last])).1[earlier.length]? =
        some (FipcCodec.encode (welcome hello.requestToken) ++
          FipcCodec.encode (statusEvent request.streamId request.requestToken daemon.statusText)) ↔
      ∀ connection ∈ earlier, connection.Asks := by
  have hlast := hexchange.serveOnce daemon hbytes
  have hasks : last.Asks := (serveOnce_ok_iff daemon last).mp (by rw [hlast])
  induction earlier with
  | nil =>
    refine iff_of_true ?_ (by simp)
    rw [List.nil_append, serveLoop_of_asks hasks, hlast]
    rfl
  | cons connection earlier ih =>
    rw [List.cons_append, List.length_cons]
    by_cases hfirst : connection.Asks
    · rw [serveLoop_of_asks hfirst, List.getElem?_cons_succ, List.forall_mem_cons]
      exact ih.trans (and_iff_right hfirst).symm
    · rw [serveLoop_of_not_asks hfirst]
      exact iff_of_false (by simp) fun hall => hfirst (hall connection List.mem_cons_self)

/-- The status request of `forgectl`, in one chunk. -/
def statusConnection : Connection where
  chunks := [statusBytes]
  closes := false
  received := by
    rw [List.forall_mem_singleton]
    exact ⟨statusBytes_ne_nil, by rw [length_statusBytes]; decide⟩

/-- A daemon behind `start`. -/
def started : Daemon := { state := .running, workspace := WorkspaceCore.pairWorkspace }

/-- Two status requests one after the other. -/
theorem answered_iff_twice :
    (started.serveLoop [statusConnection, statusConnection]).1[1]? =
        some (FipcCodec.encode (welcome 1) ++ FipcCodec.encode (statusEvent 1 2 started.statusText)) ↔
      ∀ connection ∈ [statusConnection], connection.Asks :=
  answered_iff started [statusConnection] statusConnection statusHello statusOpen statusRequest
    exchange_status (List.flatten_singleton)

/-- A first client sends forty zero bytes: the daemon exits with the framing error of that session, and the
status request behind it is not served. -/
theorem unanswered_behind_garbage :
    let garbage : Connection :=
      { chunks := [List.replicate 40 0], closes := false, received := by decide }
    (started.serveOnce garbage).2 =
        .returned (.error (FipcCodec.protocolError "invalid frame length")) ∧
      Exchange statusHello statusOpen statusRequest ∧
      statusConnection.chunks.flatten = exchangeBytes statusHello statusOpen statusRequest ∧
      started.serveLoop [garbage, statusConnection] = ([[]], some 10) := by
  intro garbage
  have hserved : started.serveOnce garbage =
      ([], .returned (.error (FipcCodec.protocolError "invalid frame length"))) := by
    decide +kernel
  refine ⟨by rw [hserved], exchange_status, List.flatten_singleton, ?_⟩
  rw [serveLoop, hserved]

end Daemon

end Forge
