import Forge.Cli.Commands
import Forge.Daemon.SocketDaemon

/-!
# The forged process

`main` of `forged_main.cpp`: the options, and the loop around `serve_once`. The answers of the operating
system to `start` and to each `serve_once` are arguments, and there is no exit code as long as the process
waits for more of them.

The process ends with 2 exactly if its arguments are not options, one behind the other. Told to serve on a
socket it ends with 0 only behind `--once`, when it could listen and its first client asked for a build, and
without `--once` it goes on as long as clients do (`forged_exit`).
-/

namespace Forge

namespace Cli

/-- The variables of `main`. -/
structure ForgedOptions where
  socketPath : Str := []
  socketMode : Bool := false
  once : Bool := false
deriving DecidableEq, Repr

/-- The loop over the arguments; there is no result if one is not known. The last `--socket` has no path
behind it. -/
def forgedOptions : ForgedOptions → List Str → Option ForgedOptions
  | options, [] => some options
  | options, [arg] => if arg = "--once" then some { options with once := true } else none
  | options, arg :: next :: rest =>
    if arg = "--socket" then forgedOptions { options with socketPath := next, socketMode := true } rest
    else if arg = "--once" then forgedOptions { options with once := true } (next :: rest)
    else none

/-- `do … while (!once)` around `serve_once`: the status it is left with, if it is. -/
def serving (server : UnixSocketDaemon) (once : Bool) : List ServeOutcome → Option (Result Unit)
  | [] => none
  | io :: rest =>
    match server.serveOnce io with
    | .waiting => none
    | .returned (.error status) => some (.error status)
    | .returned (.ok ()) => if once then some (.ok ()) else serving server once rest

/-- `main`; the first argument is the name of the program. -/
def forged (io : StartOutcomes) (serves : List ServeOutcome) (args : List Str) : Option Exit :=
  match forgedOptions {} (args.drop 1) with
  | none => some (failed "usage: forged [--socket PATH] [--once]" 2)
  | some options =>
    let daemon : Daemon := { workspace := WorkspaceCore.newWorkspace }
    if options.socketMode then
      let server : UnixSocketDaemon := { socketPath := options.socketPath, daemon }
      match server.start io with
      | (.error status, _) => some (failed status.message 10)
      | (.ok (), server) =>
        let out := line (Str.ofLiteral "forged socket=" ++ options.socketPath)
        match serving server options.once serves with
        | none => none
        | some (.error status) => some { out, err := line status.message, code := 10 }
        -- `stop` cannot fail
        | some (.ok ()) => some { out }
    else
      match daemon.start with
      | (.error status, _) => some (failed status.message 10)
      | (.ok (), _) => some { out := line "forged state=running" }

/-! ## The options -/

inductive ForgedOption
  | socket (path : Str)
  | once
deriving DecidableEq, Repr

namespace ForgedOption

def spell : ForgedOption → List Str
  | socket path => ["--socket", path]
  | once => ["--once"]

/-- What an option does to the variables. -/
def set (options : ForgedOptions) : ForgedOption → ForgedOptions
  | socket path => { options with socketPath := path, socketMode := true }
  | once => { options with once := true }

/-- The path of the last `--socket`. -/
def lastPath (items : List ForgedOption) : Option Str :=
  items.foldl (fun found item => match item with | socket path => some path | once => found) none

end ForgedOption

open ForgedOption (spell set lastPath)

theorem forgedOptions_spell (items : List ForgedOption) : ∀ options : ForgedOptions,
    forgedOptions options (items.flatMap spell) = some (items.foldl set options) := by
  induction items with
  | nil => exact fun _ => rfl
  | cons item items ih =>
    intro options
    rw [List.flatMap_cons, List.foldl_cons, ← ih]
    cases item with
    | socket path =>
      rw [spell, List.cons_append, List.cons_append, List.nil_append, forgedOptions, if_pos rfl]
      rfl
    | once =>
      rw [spell, List.cons_append, List.nil_append]
      cases items.flatMap spell with
      | nil => rfl
      | cons next rest =>
        rw [forgedOptions, if_neg (by decide), if_pos rfl]
        rfl

theorem exists_items (args : List Str) : ∀ {options result : ForgedOptions},
    forgedOptions options args = some result → ∃ items : List ForgedOption, args = items.flatMap spell := by
  induction hn : args.length using Nat.strong_induction_on generalizing args with
  | _ n ih =>
    intro options result h
    match args with
    | [] => exact ⟨[], rfl⟩
    | [arg] =>
      rw [forgedOptions] at h
      split_ifs at h with honce
      exact ⟨[.once], by rw [honce]; rfl⟩
    | arg :: next :: rest =>
      rw [List.length_cons, List.length_cons] at hn
      rw [forgedOptions] at h
      split_ifs at h with hsocket honce
      · obtain ⟨items, hitems⟩ := ih rest.length (by omega) rest rfl h
        exact ⟨.socket next :: items, by rw [hsocket, List.flatMap_cons, ← hitems]; rfl⟩
      · obtain ⟨items, hitems⟩ := ih (next :: rest).length (by rw [List.length_cons]; omega) _ rfl h
        exact ⟨.once :: items, by rw [honce, List.flatMap_cons, ← hitems]; rfl⟩

theorem foldl_set (items : List ForgedOption) :
    (items.foldl set {}).once = decide (.once ∈ items) ∧
      (items.foldl set {}).socketMode = (lastPath items).isSome ∧
      ∀ path, lastPath items = some path → (items.foldl set {}).socketPath = path := by
  induction items using List.reverseRecOn with
  | nil => exact ⟨rfl, rfl, nofun⟩
  | append_singleton items item ih =>
    obtain ⟨honce, hmode, hpath⟩ := ih
    rw [List.foldl_append, lastPath, List.foldl_append, ← lastPath]
    cases item with
    | socket path =>
      refine ⟨?_, rfl, fun other hother => Option.some.inj hother⟩
      show (items.foldl set {}).once = _
      rw [honce]
      simp
    | once => exact ⟨by simp [ForgedOption.set], hmode, hpath⟩

/-! ## Starting and serving -/

/-- The answers with which a new daemon listens on the path. -/
def Starts (path : Str) (io : StartOutcomes) : Prop :=
  (47 ∈ path → io.createDirectories = true) ∧ path.length < 108 ∧ 0 ≤ io.socket ∧ io.bind = true ∧
    io.listen = true

instance (path : Str) (io : StartOutcomes) : Decidable (Starts path io) :=
  inferInstanceAs (Decidable (_ ∧ _))

/-- A client that asks for a build. -/
def Asked : ServeOutcome → Prop
  | .accepted connection => connection.Asks
  | _ => False

def fresh (path : Str) : UnixSocketDaemon :=
  { socketPath := path, daemon := { workspace := WorkspaceCore.newWorkspace } }

def listening (path : Str) (io : StartOutcomes) : UnixSocketDaemon :=
  { socketPath := path, listenFd := io.socket,
    daemon := { state := .running, workspace := WorkspaceCore.newWorkspace } }

theorem not_started_fresh (path : Str) : ¬ (fresh path).Started := by
  simp [UnixSocketDaemon.Started, fresh]

theorem start_of_starts {path : Str} {io : StartOutcomes} (h : Starts path io) :
    (fresh path).start io = (.ok (), listening path io) := by
  obtain ⟨hdirs, hpath, hsocket, hbind, hlisten⟩ := h
  rcases UnixSocketDaemon.start_of_reachesBind (not_started_fresh path) hdirs hpath hsocket with
    ⟨_, _, hok⟩ | ⟨hno, _⟩
  · exact hok
  · exact absurd ⟨hbind, hlisten⟩ hno

theorem start_of_not_starts {path : Str} {io : StartOutcomes} (h : ¬ Starts path io) :
    ∃ status, ((fresh path).start io).1 = .error status := by
  by_cases hreaches : (47 ∈ path → io.createDirectories = true) ∧ path.length < 108 ∧ 0 ≤ io.socket
  · obtain ⟨hdirs, hpath, hsocket⟩ := hreaches
    rcases UnixSocketDaemon.start_of_reachesBind (not_started_fresh path) hdirs hpath hsocket with
      ⟨hbind, hlisten, _⟩ | ⟨_, status, hrun⟩
    · exact absurd ⟨hdirs, hpath, hsocket, hbind, hlisten⟩ h
    · exact ⟨status, by rw [hrun]⟩
  · exact (UnixSocketDaemon.start_of_not_reachesBind (not_started_fresh path) hreaches).1

theorem serveOnce_ok_iff_asked {path : Str} {io : StartOutcomes} (h : Starts path io) (serve : ServeOutcome) :
    (listening path io).serveOnce serve = .returned (.ok ()) ↔ Asked serve := by
  have hfd : ¬ (listening path io).listenFd < 0 := not_lt.mpr h.2.2.1
  unfold UnixSocketDaemon.serveOnce
  rw [if_neg hfd]
  cases serve with
  | refused reason => simp [Asked]
  | broken status => simp [Asked]
  | accepted connection => exact serveOnce_ok_iff _ connection

theorem serving_once_iff {path : Str} {io : StartOutcomes} (h : Starts path io) (serves : List ServeOutcome) :
    serving (listening path io) true serves = some (.ok ()) ↔ ∃ serve ∈ serves.head?, Asked serve := by
  cases serves with
  | nil => simp [serving]
  | cons serve rest =>
    rw [serving, List.head?_cons]
    simp only [Option.mem_some, exists_eq_left', ← serveOnce_ok_iff_asked h]
    rcases (listening path io).serveOnce serve with ⟨_ | ⟨⟩⟩ | _ <;> simp

theorem serving_ne_ok (server : UnixSocketDaemon) (serves : List ServeOutcome) :
    serving server false serves ≠ some (.ok ()) := by
  induction serves with
  | nil => exact nofun
  | cons serve rest ih =>
    rw [serving]
    rcases server.serveOnce serve with ⟨_ | ⟨⟩⟩ | _
    · simp
    · exact ih
    · simp

theorem serving_of_asked {path : Str} {io : StartOutcomes} (h : Starts path io) {serves : List ServeOutcome}
    (hasked : ∀ serve ∈ serves, Asked serve) : serving (listening path io) false serves = none := by
  induction serves with
  | nil => rfl
  | cons serve rest ih =>
    obtain ⟨hserve, hrest⟩ := List.forall_mem_cons.mp hasked
    rw [serving, (serveOnce_ok_iff_asked h serve).mpr hserve]
    exact ih hrest

/-! ## Exit codes -/

theorem forged_socket (io : StartOutcomes) (serves : List ServeOutcome) (program : Str)
    {items : List ForgedOption} {path : Str} (hpath : lastPath items = some path) :
    (¬ Starts path io ∧ Fails 10 (forged io serves (program :: items.flatMap spell))) ∨
      Starts path io ∧ forged io serves (program :: items.flatMap spell) =
        (serving (listening path io) (decide (.once ∈ items)) serves).map fun result =>
          match result with
          | .error status => ⟨line (Str.ofLiteral "forged socket=" ++ path), line status.message, 10⟩
          | .ok () => ⟨line (Str.ofLiteral "forged socket=" ++ path), [], 0⟩ := by
  obtain ⟨honce, hmode, hlast⟩ := foldl_set items
  rw [hpath, Option.isSome_some] at hmode
  rw [forged, List.drop_one, List.tail_cons, forgedOptions_spell]
  simp only [hmode, if_true, honce, hlast path hpath]
  by_cases hstarts : Starts path io
  · right
    refine ⟨hstarts, ?_⟩
    rw [show UnixSocketDaemon.start ⟨path, _, -1⟩ io = _ from start_of_starts hstarts]
    dsimp only
    generalize serving (listening path io) _ serves = result
    rcases result with _ | ⟨_ | ⟨⟩⟩ <;> rfl
  · left
    refine ⟨hstarts, ?_⟩
    obtain ⟨status, hfail⟩ := start_of_not_starts hstarts
    rcases hstart : (fresh path).start io with ⟨result, server⟩
    rw [hstart] at hfail
    rw [show UnixSocketDaemon.start ⟨path, _, -1⟩ io = _ from hstart, show result = _ from hfail]
    exact ⟨status.message, rfl⟩

theorem forged_no_socket (io : StartOutcomes) (serves : List ServeOutcome) (program : Str)
    {items : List ForgedOption} (hpath : lastPath items = none) :
    forged io serves (program :: items.flatMap spell) = some { out := line "forged state=running" } := by
  have hmode := (foldl_set items).2.1
  rw [hpath, Option.isSome_none] at hmode
  rw [forged, List.drop_one, List.tail_cons, forgedOptions_spell]
  simp only [hmode, Bool.false_eq_true, if_false]
  rfl

theorem forged_fails_two_iff (io : StartOutcomes) (serves : List ServeOutcome) (program : Str) (args : List Str) :
    Fails 2 (forged io serves (program :: args)) ↔ ¬ ∃ items : List ForgedOption, args = items.flatMap spell := by
  constructor
  · rintro ⟨message, hfail⟩ ⟨items, rfl⟩
    have hcode := congrArg (Option.map Exit.code) hfail
    cases hpath : lastPath items with
    | none =>
      rw [forged_no_socket io serves program hpath] at hcode
      exact absurd hcode (by simp [failed])
    | some path =>
      rcases forged_socket io serves program hpath with ⟨_, other, hten⟩ | ⟨_, hserved⟩
      · rw [hten] at hcode
        exact absurd hcode (by simp [failed])
      · rw [hserved] at hcode
        generalize serving (listening path io) _ serves = result at hcode
        rcases result with _ | ⟨_ | ⟨⟩⟩
        · cases hcode
        · exact absurd hcode (by simp [failed])
        · exact absurd hcode (by simp [failed])
  · intro hno
    rw [forged, List.drop_one, List.tail_cons]
    cases hoptions : forgedOptions {} args with
    | none => exact ⟨_, rfl⟩
    | some options => exact absurd (exists_items args hoptions) hno

theorem forged_succeeds_iff (io : StartOutcomes) (serves : List ServeOutcome) (program : Str)
    (items : List ForgedOption) :
    (∃ out, forged io serves (program :: items.flatMap spell) = some { out }) ↔
      ∀ path ∈ lastPath items, Starts path io ∧ .once ∈ items ∧ ∃ serve ∈ serves.head?, Asked serve := by
  cases hpath : lastPath items with
  | none =>
    rw [forged_no_socket io serves program hpath]
    exact iff_of_true ⟨_, rfl⟩ (by simp)
  | some path =>
    simp only [Option.mem_some, forall_eq']
    rcases forged_socket io serves program hpath with ⟨hno, other, hten⟩ | ⟨hstarts, hserved⟩
    · rw [hten]
      refine iff_of_false ?_ fun h => hno h.1
      rintro ⟨out, hout⟩
      exact absurd (congrArg (Option.map Exit.code) hout) (by simp [failed])
    · rw [hserved]
      by_cases honce : .once ∈ items
      · rw [decide_eq_true honce, ← serving_once_iff hstarts serves]
        rcases serving (listening path io) true serves with _ | ⟨_ | ⟨⟩⟩
        · simp
        · simp
        · simp [hstarts, honce]
      · rw [decide_eq_false honce]
        have hne := serving_ne_ok (listening path io) serves
        generalize serving (listening path io) false serves = result at hne ⊢
        rcases result with _ | ⟨_ | ⟨⟩⟩
        · simp [honce]
        · simp [honce]
        · exact absurd rfl hne

/-- **How forged ends**, for all arguments and all answers of the operating system. -/
theorem forged_exit (io : StartOutcomes) (serves : List ServeOutcome) (program : Str) :
    (∀ args : List Str, Fails 2 (forged io serves (program :: args)) ↔
      ¬ ∃ items : List ForgedOption, args = items.flatMap spell) ∧
    ∀ items : List ForgedOption,
      ((∃ out, forged io serves (program :: items.flatMap spell) = some { out }) ↔
        ∀ path ∈ lastPath items, Starts path io ∧ .once ∈ items ∧ ∃ serve ∈ serves.head?, Asked serve) ∧
      (.once ∉ items → (∀ serve ∈ serves, Asked serve) → ∀ path ∈ lastPath items, Starts path io →
        forged io serves (program :: items.flatMap spell) = none) := by
  refine ⟨forged_fails_two_iff io serves program, fun items =>
    ⟨forged_succeeds_iff io serves program items, fun honce hasked path hpath hstarts => ?_⟩⟩
  rcases forged_socket io serves program hpath with ⟨hno, _⟩ | ⟨_, hserved⟩
  · exact absurd hstarts hno
  · rw [hserved, decide_eq_false honce, serving_of_asked hstarts hasked]
    rfl

/-- Two options with a path each, and one without. -/
theorem forged_exit_options :
    let io : StartOutcomes := { socket := 3 }
    (∃ out, forged io [] ["forged", "--once", "--once"] = some { out }) ∧
      forged io [] ["forged", "--socket", "a", "--socket", "b"] = none ∧
        Fails 2 (forged io [] ["forged", "--once", "--socket"]) := by
  intro io
  obtain ⟨hfails, hspelled⟩ := forged_exit io [] "forged"
  refine ⟨(hspelled [.once, .once]).1.mpr nofun, ?_, (hfails ["--once", "--socket"]).mpr ?_⟩
  · exact (hspelled [.socket "a", .socket "b"]).2 (by decide) (by simp) "b" rfl (by decide)
  · rintro ⟨items, hitems⟩
    have hnone : forgedOptions {} ["--once", "--socket"] = none := by decide
    rw [hitems, forgedOptions_spell] at hnone
    cases hnone

end Cli

end Forge
