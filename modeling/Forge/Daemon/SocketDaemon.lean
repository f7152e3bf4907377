import Forge.Daemon.Server
import Forge.Lib.Runs

/-!
# Starting and stopping the socket daemon

`start`, `serve_once` and `stop` of `UnixSocketDaemon` over the states of the `Daemon` it wraps, with the
answers of the operating system as arguments. `start` puts the daemon into its running state first. Where
`bind` or `listen` fails it calls `stop`, but not on the ways out before that, and then the daemon is left
running without a socket and every further `start` is refused. `failed_start_retriable_iff` says which runs
avoid this.
-/

namespace Forge

namespace Daemon

def alreadyRunning : Status := Status.error .internalInvariant "daemon" "daemon already running"

def start (daemon : Daemon) : Result Unit × Daemon :=
  if daemon.state ≠ .initialized ∧ daemon.state ≠ .stopped then (.error alreadyRunning, daemon)
  else (.ok (), { daemon with state := .running })

/-- `stop`; it cannot fail. -/
def stop (daemon : Daemon) : Daemon :=
  if daemon.state = .stopped then daemon else { daemon with state := .stopped }

end Daemon

structure UnixSocketDaemon where
  socketPath : Str
  daemon : Daemon
  listenFd : Int := -1

/-- Answers to the calls inside `start`; `reason` is the text of `errno` behind a failed one. -/
structure StartOutcomes where
  createDirectories : Bool := true
  /-- The descriptor, negative where the call fails. -/
  socket : Int
  bind : Bool := true
  listen : Bool := true
  reason : Str := []
deriving DecidableEq, Repr

def StartOutcomes.Succeed (io : StartOutcomes) : Prop :=
  io.createDirectories = true ∧ 0 ≤ io.socket ∧ io.bind = true ∧ io.listen = true

/-- How the calls inside `serve_once` go: `accept` fails, a later one does with the status that is
returned, or they succeed. -/
inductive ServeOutcome
  | refused (reason : Str)
  | broken (status : Status)
  | accepted (connection : Connection)

namespace UnixSocketDaemon

def serverError (code : ErrorCode) (message : Str) : Status := Status.error code "unix-socket-daemon" message

/-- `socket_error`. -/
def socketError (message reason : Str) : Status := serverError .io (message ++ ": " ++ reason)

def stop (server : UnixSocketDaemon) : UnixSocketDaemon :=
  { server with
    listenFd := if 0 ≤ server.listenFd then -1 else server.listenFd
    daemon := server.daemon.stop }

def start (server : UnixSocketDaemon) (io : StartOutcomes) : Result Unit × UnixSocketDaemon :=
  if 0 ≤ server.listenFd then
    (.error (serverError .internalInvariant "socket daemon already started"), server)
  else
    match server.daemon.start with
    | (.error status, _) => (.error status, server)
    | (.ok (), daemon) =>
      let server := { server with daemon }
      -- the parent path is empty for a name without a slash
      if 47 ∈ server.socketPath ∧ ¬ io.createDirectories then
        (.error (serverError .io "unable to create socket directory"), server)
      -- `socket_address`, for a `sun_path` of 108 bytes
      else if 108 ≤ server.socketPath.length then
        (.error (serverError .path "socket path is too long"), server)
      else
        let server := { server with listenFd := io.socket }
        if server.listenFd < 0 then (.error (socketError "unable to create socket" io.reason), server)
        else if ¬ io.bind then (.error (socketError "unable to bind socket" io.reason), server.stop)
        else if ¬ io.listen then (.error (socketError "unable to listen on socket" io.reason), server.stop)
        else (.ok (), server)

/-- `serve_once`; it reads the members and changes none. -/
def serveOnce (server : UnixSocketDaemon) (io : ServeOutcome) : Served :=
  if server.listenFd < 0 then
    .returned (.error (serverError .internalInvariant "socket daemon is not started"))
  else
    match io with
    | .refused reason => .returned (.error (socketError "unable to accept connection" reason))
    | .broken status => .returned (.error status)
    | .accepted connection => (server.daemon.serveOnce connection).2

/-! ## Runs -/

inductive ServerCall
  | start (io : StartOutcomes)
  | serveOnce (io : ServeOutcome)
  | stop

def step (server : UnixSocketDaemon) : ServerCall → UnixSocketDaemon
  | .start io => (server.start io).2
  | .serveOnce _ => server
  | .stop => server.stop

/-- A call of `start` is refused for a daemon that is started already. -/
def Started (server : UnixSocketDaemon) : Prop :=
  0 ≤ server.listenFd ∨ server.daemon.state ≠ .initialized ∧ server.daemon.state ≠ .stopped

/-- A `start` that fails for another reason leaves no socket and no running daemon, and another one whose
calls succeed returns ok. -/
def FailsRetriable (server : UnixSocketDaemon) : ServerCall → Prop
  | .start io => ¬ server.Started → ∀ status, (server.start io).1 = .error status →
    (server.start io).2.listenFd < 0 ∧ (server.start io).2.daemon.state ≠ .running ∧
      ∀ io' : StartOutcomes, io'.Succeed → ((server.start io).2.start io').1 = .ok ()
  | _ => True

/-- A `start` that is not refused gets as far as `bind`. -/
def ReachesBind (server : UnixSocketDaemon) : ServerCall → Prop
  | .start io => ¬ server.Started →
    (47 ∈ server.socketPath → io.createDirectories = true) ∧ server.socketPath.length < 108 ∧ 0 ≤ io.socket
  | _ => True

theorem start_of_reachesBind {server : UnixSocketDaemon} {io : StartOutcomes} (hidle : ¬ server.Started)
    (hdirs : 47 ∈ server.socketPath → io.createDirectories = true) (hpath : server.socketPath.length < 108)
    (hsocket : 0 ≤ io.socket) :
    let bound : UnixSocketDaemon :=
      { server with listenFd := io.socket, daemon := { server.daemon with state := .running } }
    (io.bind = true ∧ io.listen = true ∧ server.start io = (.ok (), bound)) ∨
      ¬ (io.bind = true ∧ io.listen = true) ∧ ∃ status, server.start io = (.error status, bound.stop) := by
  intro bound
  obtain ⟨hfd, hstate⟩ := not_or.mp hidle
  have hnodirs : ¬ (47 ∈ server.socketPath ∧ ¬ io.createDirectories = true) := fun h => h.2 (hdirs h.1)
  simp only [start, if_neg hfd, Daemon.start, if_neg hstate, if_neg hnodirs, if_neg (not_le.mpr hpath),
    if_neg (not_lt.mpr hsocket)]
  by_cases hbind : io.bind = true
  · by_cases hlisten : io.listen = true
    · exact .inl ⟨hbind, hlisten, by rw [if_neg (by simp [hbind]), if_neg (by simp [hlisten])]⟩
    · refine .inr ⟨fun h => hlisten h.2, socketError "unable to listen on socket" io.reason, ?_⟩
      rw [if_neg (by simp [hbind]), if_pos hlisten]
  · refine .inr ⟨fun h => hbind h.1, socketError "unable to bind socket" io.reason, ?_⟩
    rw [if_pos hbind]

theorem start_of_not_reachesBind {server : UnixSocketDaemon} {io : StartOutcomes} (hidle : ¬ server.Started)
    (hends : ¬ ((47 ∈ server.socketPath → io.createDirectories = true) ∧
      server.socketPath.length < 108 ∧ 0 ≤ io.socket)) :
    (∃ status, (server.start io).1 = .error status) ∧ (server.start io).2.daemon.state = .running := by
  obtain ⟨hfd, hstate⟩ := not_or.mp hidle
  simp only [start, if_neg hfd, Daemon.start, if_neg hstate]
  by_cases hdirs : 47 ∈ server.socketPath ∧ ¬ io.createDirectories = true
  · rw [if_pos hdirs]
    exact ⟨⟨_, rfl⟩, rfl⟩
  · rw [if_neg hdirs]
    by_cases hpath : 108 ≤ server.socketPath.length
    · rw [if_pos hpath]
      exact ⟨⟨_, rfl⟩, rfl⟩
    · have hsocket : io.socket < 0 := by
        by_contra hfd
        exact hends ⟨fun hparent => by_contra fun hno => hdirs ⟨hparent, hno⟩, by omega, by omega⟩
      rw [if_neg hpath, if_pos hsocket]
      exact ⟨⟨_, rfl⟩, rfl⟩

theorem not_started_stop (server : UnixSocketDaemon) : ¬ server.stop.Started := by
  have hstopped : server.stop.daemon.state = .stopped := by
    simp only [stop, Daemon.stop]
    split
    · assumption
    · rfl
  have hfd : server.stop.listenFd < 0 := by
    simp only [stop]
    split <;> omega
  rw [Started, hstopped]
  simp only [ne_eq, not_true, and_false, or_false]
  omega

theorem failsRetriable_iff (server : UnixSocketDaemon) (call : ServerCall) :
    server.FailsRetriable call ↔ server.ReachesBind call := by
  cases call with
  | serveOnce io => exact Iff.rfl
  | stop => exact Iff.rfl
  | start io =>
    refine forall_congr' fun hidle => ⟨fun hretriable => ?_, fun ⟨hdirs, hpath, hsocket⟩ status hstatus => ?_⟩
    · by_contra hends
      obtain ⟨⟨status, hstatus⟩, hrunning⟩ := start_of_not_reachesBind hidle hends
      exact (hretriable status hstatus).2.1 hrunning
    · rcases start_of_reachesBind hidle hdirs hpath hsocket with ⟨_, _, hrun⟩ | ⟨_, _, hrun⟩
      · rw [hrun] at hstatus
        cases hstatus
      rw [hrun]
      have hagain := not_started_stop
        { server with listenFd := io.socket, daemon := { server.daemon with state := .running } }
      obtain ⟨hfd, hstate⟩ := not_or.mp hagain
      refine ⟨not_le.mp hfd, fun hrunning => hstate ⟨?_, ?_⟩, fun io' hio' => ?_⟩
      · rw [hrunning]
        decide
      · rw [hrunning]
        decide
      · obtain ⟨hdirs', hsocket', hbind', hlisten'⟩ := hio'
        rcases start_of_reachesBind hagain (fun _ => hdirs') hpath hsocket' with ⟨_, _, hok⟩ | ⟨hno, _⟩
        · rw [hok]
        · exact absurd ⟨hbind', hlisten'⟩ hno

/-- **When a failed start can be retried.** In a run every failed `start` cleans up and can be retried,
exactly if each one that is not refused gets as far as `bind`. -/
theorem failed_start_retriable_iff (socketPath : Str) (workspace : WorkspaceCore) (calls : List ServerCall) :
    Runs.Admissible step FailsRetriable { socketPath, daemon := { workspace } } calls ↔
      Runs.Admissible step ReachesBind { socketPath, daemon := { workspace } } calls :=
  @Runs.admissible_congr _ _ step (fun _ => True) (fun _ _ _ => trivial) _ _
    (fun server call _ => server.failsRetriable_iff call) _ trivial calls

/-- The directory of the socket cannot be created: the daemon is left running. -/
theorem failed_start_leaves_running :
    ¬ Runs.Admissible step FailsRetriable
      { socketPath := "/run/forge/daemon.sock", daemon := { workspace := {} } }
      [.start { createDirectories := false, socket := 3, reason := [] }] := by
  intro h
  have hcleanup := h.1 (by rw [Started]; decide) (serverError .io "unable to create socket directory")
    (by decide +kernel)
  exact hcleanup.2.1 (by decide +kernel)

end UnixSocketDaemon

end Forge
