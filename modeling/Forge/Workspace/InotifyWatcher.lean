import Forge.Base.Header
import Forge.Lib.Runs
import Forge.Workspace.FileCoalescer

/-!
# Watching a directory

`InotifyWatcher` of `inotify_watcher.cpp`, with the answers of the operating system as arguments. The kernel
hands out its events in records of 16 bytes and a name, as many of them as fit into the buffer of a `read`.
However it cuts them into reads, and whatever interrupts these, `poll_events` returns the events with a name
and a known kind, in their order (`poll_returns`).

`start`, `poll_events` and `stop` may be called in any order and the calls inside them may fail. The watcher
has at most one descriptor open at a time and closes each of them once, and a failed `start` can be tried
again (`descriptors_balanced`).
-/

namespace Forge

structure WatchEvent where
  path : NormalizedPath
  kind : FileEventKind := .modify
deriving DecidableEq, Repr

structure InotifyWatcher where
  root : Str
  fd : Int := -1
  watchFd : Int := -1
deriving DecidableEq, Repr

/-! ## Events of the kernel -/

namespace Inotify

def inModify : UInt32 := 0x2
def inAttrib : UInt32 := 0x4
def inCloseWrite : UInt32 := 0x8
def inMovedFrom : UInt32 := 0x40
def inMovedTo : UInt32 := 0x80
def inCreate : UInt32 := 0x100
def inDelete : UInt32 := 0x200
def inDeleteSelf : UInt32 := 0x400
def inMoveSelf : UInt32 := 0x800
def inIgnored : UInt32 := 0x8000

/-- An event as the kernel writes it: the name is followed by `pad` null bytes. -/
structure KernelEvent where
  wd : UInt32
  mask : UInt32
  cookie : UInt32
  name : Str := []
  pad : Nat := 0
deriving DecidableEq, Repr

namespace KernelEvent

/-- The record of the event. -/
def encode (event : KernelEvent) : Bytes :=
  LittleEndian.bytes 4 event.wd.toNat ++ (LittleEndian.bytes 4 event.mask.toNat ++
    (LittleEndian.bytes 4 event.cookie.toNat ++
      (LittleEndian.bytes 4 (UInt32.ofNat (event.name.length + event.pad)).toNat ++
        (event.name ++ List.replicate event.pad 0))))

/-- A name has no null byte in it and at least one behind it, and its length fits its field. -/
structure WellFormed (event : KernelEvent) : Prop where
  name : 0 ∉ event.name
  padded : event.pad = 0 → event.name = []
  fits : event.name.length + event.pad < 2 ^ 32

instance (event : KernelEvent) : Decidable event.WellFormed :=
  decidable_of_iff (0 ∉ event.name ∧ (event.pad = 0 → event.name = []) ∧
    event.name.length + event.pad < 2 ^ 32) ⟨fun h => ⟨h.1, h.2.1, h.2.2⟩, fun h => ⟨h.1, h.2, h.3⟩⟩

theorem length_encode (event : KernelEvent) :
    event.encode.length = 16 + (event.name.length + event.pad) := by
  simp [encode]
  omega

end KernelEvent

/-- `map_kind`. -/
def mapKind (mask : UInt32) : Option FileEventKind :=
  if mask &&& (inDelete ||| inMovedFrom ||| inDeleteSelf ||| inMoveSelf) ≠ 0 then some .remove
  else if mask &&& (inCreate ||| inMovedTo) ≠ 0 then some .create
  else if mask &&& (inModify ||| inCloseWrite ||| inAttrib) ≠ 0 then some .modify
  else none

/-- What is to be reported of an event. -/
def KernelEvent.watched (event : KernelEvent) : Option WatchEvent :=
  if event.mask &&& inIgnored ≠ 0 ∨ event.name = [] then none
  else (mapKind event.mask).map fun kind => ⟨⟨event.name⟩, kind⟩

end Inotify

open Inotify

/-! ## Reading the buffer -/

/-- A string up to its null byte, if that is there. -/
def cString (bytes : Bytes) : Option Str :=
  if 0 ∈ bytes then some (bytes.takeWhile (· ≠ 0)) else none

/-- What the body of the inner loop makes of the record at `offset`; there is no result if the name has no
end in the buffer. -/
def eventAt (buffer : Bytes) (offset : Nat) (mask len : UInt32) : Option (List WatchEvent) :=
  if mask &&& inIgnored ≠ 0 ∨ len = 0 then some []
  else
    match mapKind mask with
    | none => some []
    | some kind =>
      (cString (buffer.drop (offset + 16))).map fun name => if name = [] then [] else [⟨⟨name⟩, kind⟩]

/-- The loop over the records in the first `size` bytes of the buffer, from `offset`; there is no result if it
reads outside the buffer. Every turn moves on by 16 bytes at least. -/
def parseBuffer (buffer : Bytes) (size : Nat) : Nat → Nat → Option (List WatchEvent)
  | 0, _ => some []
  | turns + 1, offset =>
    if offset < size then do
      let mask ← (readU32Le buffer (offset + 4)).toOption
      let len ← (readU32Le buffer (offset + 12)).toOption
      let events ← eventAt buffer offset mask len
      let later ← parseBuffer buffer size turns (offset + (16 + len.toNat))
      return events ++ later
    else some []

/-! ## Polling -/

/-- The answers to `poll`. `reason` is the text of `errno`. -/
inductive PollAnswer
  | interrupted
  | failed (reason : Str)
  | timeout
  | ready
deriving DecidableEq, Repr

/-- The answers to `read`. -/
inductive ReadAnswer
  | interrupted
  | wouldBlock
  | failed (reason : Str)
  | bytes (chunk : Bytes)
deriving DecidableEq, Repr

/-- How a call of `poll_events` stands behind some answers. -/
inductive Polled
  | waiting
  | outsideBuffer
  | returned (result : Result (List WatchEvent))
deriving DecidableEq

def watcherError (code : ErrorCode) (message : Str) : Status := Status.error code "inotify-watcher" message

/-- `inotify_error`. -/
def inotifyError (message reason : Str) : Status := watcherError .io (message ++ ": " ++ reason)

/-- The loop around `read`. -/
def readLoop (buffer : Bytes) (events : List WatchEvent) : List ReadAnswer → Polled
  | [] => .waiting
  | .interrupted :: rest => readLoop buffer events rest
  | .wouldBlock :: _ => .returned (.ok events)
  | .failed reason :: _ => .returned (.error (inotifyError "unable to read inotify events" reason))
  | .bytes chunk :: rest =>
    if chunk = [] then .returned (.ok events)
    else
      let buffer := chunk ++ buffer.drop chunk.length
      match parseBuffer buffer chunk.length chunk.length 0 with
      | none => .outsideBuffer
      | some found => readLoop buffer (events ++ found) rest

/-- The loop around `poll`, and the other one behind it. -/
def pollLoop (reads : List ReadAnswer) : List PollAnswer → Polled
  | [] => .waiting
  | .interrupted :: rest => pollLoop reads rest
  | .failed reason :: _ => .returned (.error (inotifyError "unable to poll inotify descriptor" reason))
  | .timeout :: _ => .returned (.ok [])
  | .ready :: _ => readLoop (List.replicate 4096 0) [] reads

def InotifyWatcher.pollEvents (watcher : InotifyWatcher) (polls : List PollAnswer)
    (reads : List ReadAnswer) : Polled :=
  if watcher.fd < 0 then .returned (.error (watcherError .internalInvariant "watcher is not started"))
  else pollLoop reads polls

/-! ## What is read of records -/

theorem readU32Le_behind (before : Bytes) (v : UInt32) (behind : Bytes) :
    readU32Le (before ++ (LittleEndian.bytes 4 v.toNat ++ behind)) before.length = .ok v := by
  rw [readU32Le_eq _ _ (by simp), List.drop_left, List.take_left' (LittleEndian.length_bytes 4 _),
    value_u32_bytes]

namespace Inotify.KernelEvent

variable {event : KernelEvent}

theorem read_fields (event : KernelEvent) (before behind : Bytes) :
    readU32Le (before ++ (event.encode ++ behind)) (before.length + 4) = .ok event.mask ∧
      readU32Le (before ++ (event.encode ++ behind)) (before.length + 12) =
        .ok (UInt32.ofNat (event.name.length + event.pad)) := by
  let wd := LittleEndian.bytes 4 event.wd.toNat
  let mask := LittleEndian.bytes 4 event.mask.toNat
  let cookie := LittleEndian.bytes 4 event.cookie.toNat
  constructor
  · have hmask := readU32Le_behind (before ++ wd) event.mask (cookie ++
      (LittleEndian.bytes 4 (UInt32.ofNat (event.name.length + event.pad)).toNat ++
        (event.name ++ (List.replicate event.pad 0 ++ behind))))
    simpa [encode, wd, cookie] using hmask
  · have hlen := readU32Le_behind (before ++ (wd ++ (mask ++ cookie)))
      (UInt32.ofNat (event.name.length + event.pad)) (event.name ++ (List.replicate event.pad 0 ++ behind))
    simpa [encode, wd, mask, cookie] using hlen

theorem cString_name (h : event.WellFormed) (hpad : event.pad ≠ 0) (behind : Bytes) :
    cString (event.name ++ (List.replicate event.pad 0 ++ behind)) = some event.name := by
  obtain ⟨pad, hpad⟩ := Nat.exists_eq_succ_of_ne_zero hpad
  rw [hpad, List.replicate_succ, cString, if_pos (by simp), List.takeWhile_append_of_pos, List.cons_append,
    List.takeWhile_cons_of_neg (by simp), List.append_nil]
  intro c hc
  simpa using fun hzero : c = 0 => h.name (hzero ▸ hc)

theorem eventAt_eq (h : event.WellFormed) (before behind : Bytes) :
    eventAt (before ++ (event.encode ++ behind)) before.length event.mask
      (UInt32.ofNat (event.name.length + event.pad)) = some event.watched.toList := by
  have hdrop : (before ++ (event.encode ++ behind)).drop (before.length + 16) =
      event.name ++ (List.replicate event.pad 0 ++ behind) := by
    rw [List.drop_append, encode]
    simp [List.drop_append, List.drop_of_length_le]
  have hzero : UInt32.ofNat (event.name.length + event.pad) = 0 ↔ event.pad = 0 := by
    rw [← UInt32.toNat_inj, UInt32.toNat_ofNat_of_lt' h.fits]
    constructor
    · intro hsum
      have : event.name.length + event.pad = 0 := hsum
      omega
    · intro hpad
      rw [h.padded hpad, hpad]
      rfl
  rw [eventAt, watched]
  simp only [hzero]
  by_cases hignored : event.mask &&& inIgnored ≠ 0
  · rw [if_pos (.inl hignored), if_pos (.inl hignored)]
    rfl
  by_cases hpad : event.pad = 0
  · rw [if_pos (.inr hpad), if_pos (.inr (h.padded hpad))]
    rfl
  rw [if_neg (by tauto)]
  cases mapKind event.mask with
  | none => by_cases hname : event.name = [] <;> simp [hname, hignored]
  | some kind =>
    dsimp only
    rw [hdrop, cString_name h hpad]
    by_cases hname : event.name = [] <;> simp [hname, hignored]

/-- **The records in a buffer** are read one by one. -/
theorem parseBuffer_eq {events : List KernelEvent} (hevents : ∀ event ∈ events, event.WellFormed)
    (behind : Bytes) : ∀ (before : Bytes) {size turns : Nat},
      size = (before ++ events.flatMap encode).length → (events.flatMap encode).length ≤ turns →
        parseBuffer (before ++ (events.flatMap encode ++ behind)) size turns before.length =
          some (events.filterMap watched) := by
  induction events with
  | nil =>
    intro before size turns hsize _
    cases turns with
    | zero => rfl
    | succ turns => rw [parseBuffer, if_neg (by simp [hsize])]; rfl
  | cons event events ih =>
    intro before size turns hsize hturns
    obtain ⟨hevent, hrest⟩ := List.forall_mem_cons.mp hevents
    have hlength := event.length_encode
    rw [List.flatMap_cons, List.length_append] at hturns
    obtain ⟨turns, rfl⟩ : ∃ n, turns = n + 1 := ⟨turns - 1, by omega⟩
    have hinside : before.length < size := by
      rw [hsize, List.flatMap_cons, List.length_append, List.length_append]
      omega
    obtain ⟨hmask, hlen⟩ := event.read_fields before (events.flatMap encode ++ behind)
    have hnext := @ih hrest (before ++ event.encode) size turns (by rw [hsize]; simp) (by omega)
    rw [List.flatMap_cons, List.append_assoc, parseBuffer, if_pos hinside, hmask, hlen,
      List.filterMap_cons]
    have htoNat : (UInt32.ofNat (event.name.length + event.pad)).toNat = event.name.length + event.pad :=
      UInt32.toNat_ofNat_of_lt' hevent.fits
    rw [List.length_append, hlength, List.append_assoc] at hnext
    simp only [Except.toOption, Option.bind_eq_bind, Option.bind_some, eventAt_eq hevent, htoNat, hnext]
    cases event.watched <;> rfl

end Inotify.KernelEvent

/-! ## What a poll returns -/

open KernelEvent

/-- The answers to `read` while there is something to be read: whole records, no more than the buffer holds,
and interruptions. -/
inductive Delivers : List ReadAnswer → List KernelEvent → Prop
  | none : Delivers [] []
  | interrupted {reads events} : Delivers reads events → Delivers (.interrupted :: reads) events
  | batch {reads events} (batch : List KernelEvent) (hne : batch ≠ [])
      (hbatch : ∀ event ∈ batch, event.WellFormed) (hfits : (batch.flatMap encode).length ≤ 4096) :
      Delivers reads events → Delivers (.bytes (batch.flatMap encode) :: reads) (batch ++ events)

theorem Delivers.readLoop {reads : List ReadAnswer} {events : List KernelEvent} (h : Delivers reads events)
    (rest : List ReadAnswer) : ∀ (buffer : Bytes) (found : List WatchEvent),
      ∃ buffer', readLoop buffer found (reads ++ rest) =
        Forge.readLoop buffer' (found ++ events.filterMap watched) rest := by
  -- the buffer is read no further than the records are long
  induction h with
  | none => exact fun buffer found => ⟨buffer, by simp⟩
  | interrupted _ ih => exact ih
  | @batch reads events batch hne hbatch hfits _ ih =>
    intro buffer found
    have hchunk : batch.flatMap encode ≠ [] := by
      obtain ⟨event, batch, rfl⟩ := List.exists_cons_of_ne_nil hne
      have := event.length_encode
      intro hnil
      rw [List.flatMap_cons, List.append_eq_nil_iff] at hnil
      rw [hnil.1, List.length_nil] at this
      omega
    have hparse := parseBuffer_eq hbatch (buffer.drop (batch.flatMap encode).length) []
      (by rw [List.nil_append]) (le_refl _)
    rw [List.nil_append, List.length_nil] at hparse
    obtain ⟨buffer', hlater⟩ := ih (batch.flatMap encode ++ buffer.drop (batch.flatMap encode).length)
      (found ++ batch.filterMap watched)
    refine ⟨buffer', ?_⟩
    rw [List.cons_append, Forge.readLoop, if_neg hchunk]
    simp only [hparse]
    rw [hlater, List.filterMap_append, List.append_assoc]

theorem pollLoop_interrupts (reads : List ReadAnswer) (interrupts : Nat) (polls : List PollAnswer) :
    pollLoop reads (List.replicate interrupts .interrupted ++ polls) = pollLoop reads polls := by
  induction interrupts with
  | zero => rfl
  | succ n ih => rw [List.replicate_succ, List.cons_append, pollLoop, ih]

/-- **A poll reports what the kernel has written**, in its order and once, however it is cut into reads and
however often these are interrupted. A `read` that fails loses what was read before it. -/
theorem InotifyWatcher.poll_returns {watcher : InotifyWatcher} (hstarted : 0 ≤ watcher.fd)
    {reads : List ReadAnswer} {events : List KernelEvent} (hreads : Delivers reads events)
    (interrupts : Nat) (polls : List PollAnswer) (rest : List ReadAnswer) :
    (∀ last, last = .wouldBlock ∨ last = .bytes [] →
      watcher.pollEvents (List.replicate interrupts .interrupted ++ .ready :: polls) (reads ++ last :: rest) =
        .returned (.ok (events.filterMap watched))) ∧
      ∀ reason, watcher.pollEvents (List.replicate interrupts .interrupted ++ .ready :: polls)
        (reads ++ .failed reason :: rest) =
          .returned (.error (inotifyError "unable to read inotify events" reason)) := by
  have hpoll : ∀ reads, watcher.pollEvents (List.replicate interrupts .interrupted ++ .ready :: polls) reads =
      readLoop (List.replicate 4096 0) [] reads := fun reads => by
    rw [pollEvents, if_neg (by omega), pollLoop_interrupts, pollLoop]
  constructor
  · rintro last (rfl | rfl)
    all_goals
      obtain ⟨buffer, hloop⟩ := hreads.readLoop (_ :: rest) (List.replicate 4096 0) []
      rw [hpoll, hloop, List.nil_append]
      rfl
  · intro reason
    obtain ⟨buffer, hloop⟩ := hreads.readLoop (.failed reason :: rest) (List.replicate 4096 0) []
    rw [hpoll, hloop]
    rfl

/-- A file that is written twice and removed, in two reads with an interruption between them. -/
theorem InotifyWatcher.poll_returns_two_reads :
    let watcher : InotifyWatcher := { root := "src", fd := 3, watchFd := 1 }
    let file : Str := "a.c"
    let written : KernelEvent := { wd := 1, mask := inModify, cookie := 0, name := file, pad := 13 }
    let removed : KernelEvent := { wd := 1, mask := inDelete, cookie := 0, name := file, pad := 13 }
    watcher.pollEvents [.interrupted, .ready]
        [.bytes ([written, written].flatMap encode), .interrupted, .bytes ([removed].flatMap encode),
          .wouldBlock] =
      .returned (.ok [⟨⟨file⟩, .modify⟩, ⟨⟨file⟩, .modify⟩, ⟨⟨file⟩, .remove⟩]) := by
  intro watcher file written removed
  have hreads : Delivers [.bytes ([written, written].flatMap encode), .interrupted,
      .bytes ([removed].flatMap encode)] [written, written, removed] :=
    .batch [written, written] (by decide) (by decide) (by decide)
      (.interrupted (.batch [removed] (by decide) (by decide) (by decide) .none))
  have hwatched : [written, written, removed].filterMap watched =
      [⟨⟨file⟩, .modify⟩, ⟨⟨file⟩, .modify⟩, ⟨⟨file⟩, .remove⟩] := by decide
  rw [← hwatched]
  exact (@InotifyWatcher.poll_returns watcher (by decide) _ _ hreads 1 [] []).1 .wouldBlock (.inl rfl)

/-! ## Starting and stopping -/

/-- What the system answers to the calls of a `start`. `reason` is the text of `errno`, if one fails. -/
structure StartAnswers where
  created : Bool := true
  initialized : Int
  watching : Int
  reason : Str := []
deriving DecidableEq, Repr

def StartAnswers.Good (answers : StartAnswers) : Prop :=
  answers.created = true ∧ 0 ≤ answers.initialized ∧ 0 ≤ answers.watching

instance (answers : StartAnswers) : Decidable answers.Good := inferInstanceAs (Decidable (_ ∧ _))

/-- What happens to descriptors. -/
inductive WatchEffect
  | opened (fd : Int)
  | added (fd watch : Int)
  | removed (fd watch : Int)
  | closed (fd : Int)
deriving DecidableEq, Repr

namespace InotifyWatcher

/-- The constructor. -/
def fresh (root : Str) : InotifyWatcher := { root := root }

/-- `stop`, which never fails. -/
def stop (watcher : InotifyWatcher) : InotifyWatcher × List WatchEffect :=
  let (watcher, effects) :=
    if 0 ≤ watcher.fd ∧ 0 ≤ watcher.watchFd then
      ({ watcher with watchFd := -1 }, [.removed watcher.fd watcher.watchFd])
    else (watcher, [])
  if 0 ≤ watcher.fd then ({ watcher with fd := -1 }, effects ++ [.closed watcher.fd]) else (watcher, effects)

def start (watcher : InotifyWatcher) (answers : StartAnswers) :
    Result Unit × InotifyWatcher × List WatchEffect :=
  if 0 ≤ watcher.fd then (.error (watcherError .internalInvariant "watcher already started"), watcher, [])
  else if !answers.created then (.error (watcherError .io "unable to create watch root"), watcher, [])
  else
    let watcher := { watcher with fd := answers.initialized }
    if watcher.fd < 0 then
      (.error (inotifyError "unable to create inotify descriptor" answers.reason), watcher, [])
    else
      let watcher := { watcher with watchFd := answers.watching }
      if watcher.watchFd < 0 then
        let (stopped, effects) := watcher.stop
        (.error (inotifyError "unable to add inotify watch" answers.reason), stopped,
          .opened watcher.fd :: effects)
      else (.ok (), watcher, [.opened watcher.fd, .added watcher.fd watcher.watchFd])

end InotifyWatcher

/-- A call of a watcher. -/
inductive WatchCall
  | start (answers : StartAnswers)
  | poll (polls : List PollAnswer) (reads : List ReadAnswer)
  | stop
deriving DecidableEq, Repr

namespace InotifyWatcher

def call (watcher : InotifyWatcher) : WatchCall → InotifyWatcher × List WatchEffect
  | .start answers => (watcher.start answers).2
  | .poll _ _ => (watcher, [])
  | .stop => watcher.stop

/-- Calls one after the other, and everything they do to descriptors. -/
def calls (watcher : InotifyWatcher) : List WatchCall → InotifyWatcher × List WatchEffect
  | [] => (watcher, [])
  | c :: cs =>
    let (watcher, effects) := watcher.call c
    let (watcher, later) := watcher.calls cs
    (watcher, effects ++ later)

/-- Either both descriptors are there or none. -/
def Consistent (watcher : InotifyWatcher) : Prop := 0 ≤ watcher.fd ↔ 0 ≤ watcher.watchFd

/-- What has been done for the descriptor that is open. -/
def held (watcher : InotifyWatcher) : List WatchEffect :=
  if 0 ≤ watcher.fd then [.opened watcher.fd, .added watcher.fd watcher.watchFd] else []

end InotifyWatcher

/-- All that is done with one descriptor: without a watch if that could not be added. -/
inductive WatchSpan
  | unwatched (fd : Int)
  | watched (fd watch : Int)
deriving DecidableEq, Repr

namespace WatchSpan

def effects : WatchSpan → List WatchEffect
  | unwatched fd => [.opened fd, .closed fd]
  | watched fd watch => [.opened fd, .added fd watch, .removed fd watch, .closed fd]

def fd : WatchSpan → Int
  | unwatched fd => fd
  | watched fd _ => fd

end WatchSpan

namespace InotifyWatcher

variable {watcher : InotifyWatcher}

theorem held_of_closed (h : watcher.fd < 0) : watcher.held = [] := if_neg (by omega)

theorem stop_closed (watcher : InotifyWatcher) : watcher.stop.1.fd < 0 := by
  unfold stop
  by_cases hfd : 0 ≤ watcher.fd <;> by_cases hwatch : 0 ≤ watcher.watchFd <;> simp [hfd, hwatch]
  all_goals omega

/-- What the calls do before and after this one are whole spans and what is held. -/
def Advances (watcher : InotifyWatcher) (after : InotifyWatcher × List WatchEffect) : Prop :=
  after.1.Consistent ∧ ∃ spans : List WatchSpan, (∀ span ∈ spans, 0 ≤ span.fd) ∧
    watcher.held ++ after.2 = spans.flatMap WatchSpan.effects ++ after.1.held

theorem stop_advances (h : watcher.Consistent) : watcher.Advances watcher.stop := by
  by_cases hfd : 0 ≤ watcher.fd
  · have hstop : watcher.stop = ({ watcher with watchFd := -1, fd := -1 },
        [.removed watcher.fd watcher.watchFd, .closed watcher.fd]) := by
      simp [stop, hfd, h.mp hfd]
    rw [hstop]
    refine ⟨Iff.rfl, [.watched watcher.fd watcher.watchFd], by simpa [WatchSpan.fd] using hfd, ?_⟩
    rw [held, if_pos hfd]
    rfl
  · have hstop : watcher.stop = (watcher, []) := by simp [stop, hfd]
    rw [hstop]
    exact ⟨h, [], by simp, by simp⟩

theorem start_ok_iff (watcher : InotifyWatcher) (answers : StartAnswers) :
    (watcher.start answers).1 = .ok () ↔ watcher.fd < 0 ∧ answers.Good := by
  unfold start StartAnswers.Good
  by_cases hfd : 0 ≤ watcher.fd
  · simp [hfd]
  by_cases hcreated : answers.created = true <;> by_cases hinit : answers.initialized < 0 <;>
    by_cases hwatch : answers.watching < 0 <;> simp [hfd, hcreated, hinit, hwatch]
  all_goals omega

theorem start_advances (h : watcher.Consistent) (answers : StartAnswers) :
    watcher.Advances (watcher.start answers).2 := by
  have hstay : watcher.Advances (watcher, []) := ⟨h, [], by simp, by simp⟩
  unfold start
  by_cases hfd : 0 ≤ watcher.fd
  · rwa [if_pos hfd]
  rw [if_neg hfd]
  have hclosed : watcher.fd < 0 := by omega
  have hunwatched : watcher.watchFd < 0 := by
    have := h.not.mp hfd
    omega
  cases hcreated : answers.created with
  | false => exact hstay
  | true =>
    by_cases hinit : answers.initialized < 0
    · simp only [Bool.not_true, Bool.false_eq_true, if_false, hinit, if_true]
      refine ⟨?_, [], by simp, ?_⟩
      · show 0 ≤ answers.initialized ↔ 0 ≤ watcher.watchFd
        omega
      · rw [held_of_closed hclosed, held_of_closed (by show answers.initialized < 0; exact hinit)]
        rfl
    have hopen : 0 ≤ answers.initialized := by omega
    by_cases hwatch : answers.watching < 0
    · have hstop : stop { watcher with fd := answers.initialized, watchFd := answers.watching } =
          ({ watcher with fd := -1, watchFd := answers.watching }, [.closed answers.initialized]) := by
        simp [stop, hopen, show ¬0 ≤ answers.watching by omega]
      simp only [Bool.not_true, Bool.false_eq_true, if_false, hinit, hwatch, if_true, hstop]
      refine ⟨?_, [.unwatched answers.initialized], by simpa [WatchSpan.fd] using hopen, ?_⟩
      · show (0 : Int) ≤ -1 ↔ 0 ≤ answers.watching
        omega
      · rw [held_of_closed hclosed, held_of_closed (by show (-1 : Int) < 0; decide)]
        rfl
    · simp only [Bool.not_true, Bool.false_eq_true, if_false, hinit, hwatch]
      refine ⟨?_, [], by simp, ?_⟩
      · show 0 ≤ answers.initialized ↔ 0 ≤ answers.watching
        omega
      · rw [held_of_closed hclosed, held, if_pos hopen]
        rfl

theorem call_advances (h : watcher.Consistent) : ∀ c, watcher.Advances (watcher.call c)
  | .start answers => start_advances h answers
  | .poll _ _ => ⟨h, [], by simp, by simp [call]⟩
  | .stop => stop_advances h

theorem calls_advances (cs : List WatchCall) :
    ∀ {watcher : InotifyWatcher}, watcher.Consistent → watcher.Advances (watcher.calls cs) := by
  induction cs with
  | nil => exact fun h => ⟨h, [], by simp, by simp [calls]⟩
  | cons c cs ih =>
    intro watcher h
    obtain ⟨hconsistent, spans, hspans, heffects⟩ := call_advances h c
    obtain ⟨hlast, later, hlater, hrest⟩ := ih hconsistent
    refine ⟨hlast, spans ++ later, ?_, ?_⟩
    · intro span hspan
      rcases List.mem_append.mp hspan with hspan | hspan
      · exact hspans span hspan
      · exact hlater span hspan
    · show watcher.held ++ ((watcher.call c).2 ++ ((watcher.call c).1.calls cs).2) = _
      rw [← List.append_assoc, heffects, List.append_assoc, hrest, List.flatMap_append, List.append_assoc]
      rfl

/-- **Descriptors are closed**, each of them once and before the next is opened, whatever is called in which
order and whatever fails: all that is left is what the watcher holds, and a `stop` gives that back. A `start`
works whenever none is open. -/
theorem descriptors_balanced (root : Str) (cs : List WatchCall) :
    (∃ spans : List WatchSpan, (∀ span ∈ spans, 0 ≤ span.fd) ∧
      ((fresh root).calls cs).2 = spans.flatMap WatchSpan.effects ++ ((fresh root).calls cs).1.held) ∧
      ((fresh root).calls cs).1.stop.1.held = [] ∧
      ∀ answers, (((fresh root).calls cs).1.start answers).1 = .ok () ↔
        ((fresh root).calls cs).1.held = [] ∧ answers.Good := by
  obtain ⟨_, spans, hspans, heffects⟩ := calls_advances cs (show (fresh root).Consistent from Iff.rfl)
  refine ⟨⟨spans, hspans, ?_⟩, held_of_closed (stop_closed _), fun answers => ?_⟩
  · rw [← heffects, held_of_closed (show (-1 : Int) < 0 by decide), List.nil_append]
  · rw [start_ok_iff]
    refine and_congr_left fun _ => ⟨held_of_closed, fun hheld => ?_⟩
    by_contra hopen
    rw [held, if_pos (by omega)] at hheld
    exact List.cons_ne_nil _ _ hheld

end InotifyWatcher

end Forge
