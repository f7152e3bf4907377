import Forge.Base.Checked
import Forge.Base.Ids
import Forge.Lib.Runs

/-!
# Coalescing of file events

`FileEventCoalescer` of `file_coalescer.cpp`. A path that was pushed is pending until a fingerprint for
it is completed; its entry counts the pushes in a token, and `complete` accepts an event with the
current token.

A successful `complete` erases the entry together with its token, so the count starts again and the
token of an event from an earlier round can be current once more. `complete_behaves_iff` says exactly
when this does not happen.
-/

namespace Forge

open Std (ExtTreeMap)

structure NormalizedPath where
  relative : Str := []
deriving DecidableEq, Repr

inductive FileEventKind
  | create | modify | remove | rename
deriving DecidableEq, Repr

def FileEventKind.value : FileEventKind → UInt32
  | create => 1
  | modify => 2
  | remove => 4
  | rename => 8

structure CoalescedEvent where
  path : NormalizedPath := {}
  mergedKind : UInt32 := 0
  token : Generation := {}
  dueTime : UInt64 := 0
deriving DecidableEq, Repr

structure InputFingerprint where
  path : NormalizedPath
  digest : Digest256
  size : UInt64 := 0
  epoch : Generation := {}
deriving DecidableEq, Repr

structure FileEventCoalescer where
  debounceTicks : UInt64 := 5
  pending : ExtTreeMap Str CoalescedEvent := ∅
  fingerprints : ExtTreeMap Str InputFingerprint := ∅
deriving DecidableEq

namespace FileEventCoalescer

/-- `push`; it cannot fail. -/
def push (coalescer : FileEventCoalescer) (path : NormalizedPath) (kind : FileEventKind) (now : UInt64) :
    CoalescedEvent × FileEventCoalescer :=
  let entry := coalescer.pending.getD path.relative {}
  let entry : CoalescedEvent :=
    { path
      mergedKind := entry.mergedKind ||| kind.value
      token := entry.token.next
      dueTime := now + coalescer.debounceTicks }
  (entry, { coalescer with pending := coalescer.pending.insert path.relative entry })

def due (coalescer : FileEventCoalescer) (now : UInt64) : List CoalescedEvent :=
  (coalescer.pending.toList.map Prod.snd).filter (·.dueTime ≤ now)

def staleCompletion : Status := Status.error .inputUnstable "coalescer" "stale fingerprint completion"

def complete (coalescer : FileEventCoalescer) (event : CoalescedEvent) (fingerprint : InputFingerprint) :
    Result Unit × FileEventCoalescer :=
  let relative := event.path.relative
  match coalescer.pending[relative]?.filter (·.token = event.token) with
  | none => (.error staleCompletion, coalescer)
  | some _ =>
    let epoch : Generation :=
      match coalescer.fingerprints[relative]? with
      | none => ⟨1⟩
      | some old => old.epoch.next
    (.ok (),
      { coalescer with
        fingerprints := coalescer.fingerprints.insert relative { fingerprint with epoch }
        pending := coalescer.pending.erase relative })

def current (coalescer : FileEventCoalescer) (relative : Str) : Option InputFingerprint :=
  coalescer.fingerprints[relative]?

/-- The pending entry of the event's path has the event's token. -/
def Accepts (coalescer : FileEventCoalescer) (event : CoalescedEvent) : Prop :=
  ∃ entry, coalescer.pending[event.path.relative]? = some entry ∧ entry.token = event.token

theorem complete_cases (coalescer : FileEventCoalescer) (event : CoalescedEvent)
    (fingerprint : InputFingerprint) :
    (coalescer.Accepts event ∧ ∃ epoch, coalescer.complete event fingerprint = (.ok (),
      { coalescer with
        fingerprints := coalescer.fingerprints.insert event.path.relative { fingerprint with epoch }
        pending := coalescer.pending.erase event.path.relative })) ∨
    (¬ coalescer.Accepts event ∧
      coalescer.complete event fingerprint = (.error staleCompletion, coalescer)) := by
  unfold Accepts
  cases hpending : coalescer.pending[event.path.relative]? with
  | none => exact .inr ⟨by simp, by simp only [complete, hpending, Option.filter_none]⟩
  | some entry =>
    by_cases htoken : entry.token = event.token
    · exact .inl ⟨⟨entry, rfl, htoken⟩, _, by
        simp only [complete, hpending, Option.filter_some, htoken, decide_true, if_true]; rfl⟩
    · refine .inr ⟨by simpa using htoken, ?_⟩
      simp only [complete, hpending, Option.filter_some, htoken, decide_false, Bool.false_eq_true,
        if_false]

theorem complete_ok_iff (coalescer : FileEventCoalescer) (event : CoalescedEvent)
    (fingerprint : InputFingerprint) :
    (coalescer.complete event fingerprint).1 = .ok () ↔ coalescer.Accepts event := by
  rcases coalescer.complete_cases event fingerprint with ⟨hyes, _, hrun⟩ | ⟨hno, hrun⟩
  · simp [hrun, hyes]
  · simp [hrun, hno]

theorem complete_rejected {coalescer : FileEventCoalescer} {event : CoalescedEvent}
    {fingerprint : InputFingerprint} (h : (coalescer.complete event fingerprint).1 ≠ .ok ()) :
    (coalescer.complete event fingerprint).2 = coalescer := by
  rcases coalescer.complete_cases event fingerprint with ⟨_, _, hrun⟩ | ⟨_, hrun⟩
  · exact absurd (by rw [hrun]) h
  · rw [hrun]

end FileEventCoalescer

/-! ## Histories -/

/-- What a call leaves behind for its callers; of the `complete` calls only the successful ones do. -/
inductive CoalescerEntry
  | pushed (event : CoalescedEvent)
  | due (events : List CoalescedEvent)
  | completed (path : NormalizedPath)
deriving DecidableEq, Repr

namespace CoalescerEntry

/-- The entry hands out the event. -/
def HandsOut (entry : CoalescerEntry) (event : CoalescedEvent) : Prop :=
  match entry with
  | pushed pushedEvent => event = pushedEvent
  | due events => event ∈ events
  | completed _ => False

instance (entry : CoalescerEntry) (event : CoalescedEvent) : Decidable (entry.HandsOut event) :=
  match entry with
  | pushed pushedEvent => inferInstanceAs (Decidable (event = pushedEvent))
  | due events => inferInstanceAs (Decidable (event ∈ events))
  | completed _ => inferInstanceAs (Decidable False)

def isPush (path : NormalizedPath) : CoalescerEntry → Bool
  | pushed event => event.path = path
  | _ => false

end CoalescerEntry

/-- The coalescer and what its calls left behind, newest first. -/
structure CoalescerHistory where
  coalescer : FileEventCoalescer := {}
  log : List CoalescerEntry := []
deriving DecidableEq

/-- A call of `complete` names the entry of the log, counted from the newest, that handed out its
event. -/
inductive CoalescerCall
  | push (path : NormalizedPath) (kind : FileEventKind) (now : UInt64)
  | due (now : UInt64)
  | complete (age : Nat) (event : CoalescedEvent) (fingerprint : InputFingerprint)
deriving DecidableEq

namespace CoalescerHistory

def step (h : CoalescerHistory) : CoalescerCall → CoalescerHistory
  | .push path kind now =>
    let (event, coalescer) := h.coalescer.push path kind now
    ⟨coalescer, .pushed event :: h.log⟩
  | .due now => { h with log := .due (h.coalescer.due now) :: h.log }
  | .complete _ event fingerprint =>
    match h.coalescer.complete event fingerprint with
    | (.ok (), coalescer) => ⟨coalescer, .completed event.path :: h.log⟩
    | (.error _, coalescer) => { h with coalescer }

/-- The pushes of a path since its last successful completion. -/
def roundPushes (path : NormalizedPath) (log : List CoalescerEntry) : Nat :=
  (log.takeWhile (· ≠ .completed path)).countP (CoalescerEntry.isPush path)

/-- The entry at `age` hands out the event. -/
def HandedOut (h : CoalescerHistory) (age : Nat) (event : CoalescedEvent) : Prop :=
  ∃ entry, h.log[age]? = some entry ∧ entry.HandsOut event

/-- The event was handed out by the most recent push of its path or later, and that push was not yet
completed. -/
def Fresh (h : CoalescerHistory) (age : Nat) (path : NormalizedPath) : Prop :=
  (∀ entry ∈ h.log.take age, entry.isPush path = false) ∧ 0 < roundPushes path h.log

/-- A call of `complete` succeeds only for a fresh event, and changes nothing if it fails. -/
def Behaves (h : CoalescerHistory) : CoalescerCall → Prop
  | .complete age event fingerprint => h.HandedOut age event →
    ((h.coalescer.complete event fingerprint).1 = .ok () → h.Fresh age event.path) ∧
    ((h.coalescer.complete event fingerprint).1 ≠ .ok () →
      (h.coalescer.complete event fingerprint).2 = h.coalescer)
  | _ => True

/-- The event is fresh, or nothing was pushed for its path since the last completion, or the pushes of
the round it was handed out in, up to then, and those of the current round differ in number. -/
def Distinguished (h : CoalescerHistory) : CoalescerCall → Prop
  | .complete age event _ => h.HandedOut age event →
    h.Fresh age event.path ∨ roundPushes event.path h.log = 0 ∨
      roundPushes event.path (h.log.drop age) % 2 ^ 64 ≠ roundPushes event.path h.log % 2 ^ 64
  | _ => True

/-! ## Tokens count pushes -/

theorem roundPushes_pushed (path : NormalizedPath) (event : CoalescedEvent) (log : List CoalescerEntry) :
    roundPushes path (.pushed event :: log) =
      roundPushes path log + if event.path = path then 1 else 0 := by
  simp [roundPushes, List.countP_cons, CoalescerEntry.isPush]

theorem roundPushes_due (path : NormalizedPath) (events : List CoalescedEvent)
    (log : List CoalescerEntry) : roundPushes path (.due events :: log) = roundPushes path log := by
  simp [roundPushes, CoalescerEntry.isPush]

theorem roundPushes_completed (path done : NormalizedPath) (log : List CoalescerEntry) :
    roundPushes path (.completed done :: log) = if done = path then 0 else roundPushes path log := by
  by_cases hpath : done = path
  · simp [roundPushes, hpath]
  · simp [roundPushes, CoalescerEntry.isPush, hpath]

/-- The entry of a path, given the number of pushes in its round. -/
def EntryOk (path : NormalizedPath) (pushes : Nat) : Option CoalescedEvent → Prop
  | none => pushes = 0
  | some entry => 0 < pushes ∧ entry.path = path ∧ entry.token.value = UInt64.ofNat (pushes + 1)

/-- The events an entry hands out carry the count of its time. -/
def LogOk : List CoalescerEntry → Prop
  | [] => True
  | entry :: log =>
    (∀ event, entry.HandsOut event →
      event.token.value = UInt64.ofNat (roundPushes event.path (entry :: log) + 1)) ∧ LogOk log

structure Inv (h : CoalescerHistory) : Prop where
  pending : ∀ path : NormalizedPath,
    EntryOk path (roundPushes path h.log) h.coalescer.pending[path.relative]?
  log : LogOk h.log

theorem inv_init (debounceTicks : UInt64) : Inv { coalescer := { debounceTicks } } :=
  ⟨fun path => by simp [EntryOk, roundPushes], trivial⟩

theorem relative_ne_of_ne {p q : NormalizedPath} (h : p ≠ q) : p.relative ≠ q.relative :=
  fun heq => h (by cases p; cases q; simpa using heq)

theorem inv_push {h : CoalescerHistory} (hinv : h.Inv) (path : NormalizedPath) (kind : FileEventKind)
    (now : UInt64) : (h.step (.push path kind now)).Inv := by
  have htoken : (h.coalescer.push path kind now).1.token.value =
      UInt64.ofNat (roundPushes path h.log + 1 + 1) := by
    have hentry := hinv.pending path
    show (h.coalescer.pending.getD path.relative {}).token.value + 1 = _
    rw [ExtTreeMap.getD_eq_getD_getElem?, UInt64.ofNat_add _ 1]
    cases hpending : h.coalescer.pending[path.relative]? with
    | none =>
      rw [hpending] at hentry
      rw [show roundPushes path h.log = 0 from hentry]
      rfl
    | some entry =>
      rw [hpending] at hentry
      rw [Option.getD_some, hentry.2.2]
      rfl
  refine ⟨fun other => ?_, ?_, hinv.log⟩
  · show EntryOk other (roundPushes other (.pushed (h.coalescer.push path kind now).1 :: h.log))
      (h.coalescer.pending.insert path.relative (h.coalescer.push path kind now).1)[other.relative]?
    rw [roundPushes_pushed, show (h.coalescer.push path kind now).1.path = path from rfl,
      ExtTreeMap.getElem?_insert]
    by_cases hpath : path = other
    · subst hpath
      rw [if_pos rfl, if_pos (by simp)]
      exact ⟨by omega, rfl, htoken⟩
    · rw [if_neg hpath, if_neg (by simpa using relative_ne_of_ne hpath)]
      exact hinv.pending other
  · rintro event rfl
    rw [roundPushes_pushed, if_pos rfl]
    exact htoken

theorem inv_due {h : CoalescerHistory} (hinv : h.Inv) (now : UInt64) : (h.step (.due now)).Inv := by
  refine ⟨fun path => ?_, fun event hevent => ?_, hinv.log⟩
  · show EntryOk path (roundPushes path (.due (h.coalescer.due now) :: h.log)) _
    rw [roundPushes_due]
    exact hinv.pending path
  · rw [roundPushes_due]
    obtain ⟨⟨relative, entry⟩, hmem, rfl⟩ := List.mem_map.mp (List.mem_filter.mp hevent).1
    have hget := ExtTreeMap.mem_toList_iff_getElem?_eq_some.mp hmem
    have hentry := hinv.pending ⟨relative⟩
    simp only [hget] at hentry
    obtain ⟨_, hpath, htoken⟩ := hentry
    rw [show (relative, entry).2.path = ⟨relative⟩ from hpath]
    exact htoken

theorem inv_complete {h : CoalescerHistory} (hinv : h.Inv) (age : Nat) (event : CoalescedEvent)
    (fingerprint : InputFingerprint) : (h.step (.complete age event fingerprint)).Inv := by
  rcases h.coalescer.complete_cases event fingerprint with ⟨_, _, hrun⟩ | ⟨_, hrun⟩
  · simp only [step, hrun]
    refine ⟨fun path => ?_, fun e he => he.elim, hinv.log⟩
    simp only
    rw [roundPushes_completed, ExtTreeMap.getElem?_erase]
    by_cases hpath : event.path = path
    · simp [hpath, EntryOk]
    · rw [if_neg hpath, if_neg (by simpa using relative_ne_of_ne hpath)]
      exact hinv.pending path
  · simp only [step, hrun]
    exact hinv

theorem inv_step {h : CoalescerHistory} (hinv : h.Inv) (call : CoalescerCall) : (h.step call).Inv := by
  cases call with
  | push path kind now => exact inv_push hinv path kind now
  | due now => exact inv_due hinv now
  | complete age event fingerprint => exact inv_complete hinv age event fingerprint

/-! ## When stale fingerprints are rejected -/

theorem LogOk.token {log : List CoalescerEntry} (hlog : LogOk log) {age : Nat} {entry : CoalescerEntry}
    (hentry : log[age]? = some entry) {event : CoalescedEvent} (hevent : entry.HandsOut event) :
    event.token.value = UInt64.ofNat (roundPushes event.path (log.drop age) + 1) := by
  induction log generalizing age with
  | nil => simp at hentry
  | cons newest log ih =>
    cases age with
    | zero =>
      obtain rfl : newest = entry := by simpa using hentry
      exact hlog.1 event hevent
    | succ age => exact ih hlog.2 (by simpa using hentry)

theorem ofNat_succ_inj {m n : Nat} : UInt64.ofNat (m + 1) = UInt64.ofNat (n + 1) ↔
    m % 2 ^ 64 = n % 2 ^ 64 := by
  rw [← UInt64.toNat_inj, UInt64.toNat_ofNat', UInt64.toNat_ofNat']
  omega

theorem complete_ok_iff_pushes {h : CoalescerHistory} (hinv : h.Inv) {age : Nat}
    {event : CoalescedEvent} (hevent : h.HandedOut age event) (fingerprint : InputFingerprint) :
    (h.coalescer.complete event fingerprint).1 = .ok () ↔
      roundPushes event.path h.log ≠ 0 ∧
        roundPushes event.path (h.log.drop age) % 2 ^ 64 = roundPushes event.path h.log % 2 ^ 64 := by
  obtain ⟨entry, hentry, hhands⟩ := hevent
  have htoken := hinv.log.token hentry hhands
  have hpending := hinv.pending event.path
  rw [FileEventCoalescer.complete_ok_iff, FileEventCoalescer.Accepts]
  cases hget : h.coalescer.pending[event.path.relative]? with
  | none =>
    rw [hget] at hpending
    simp [show roundPushes event.path h.log = 0 from hpending]
  | some pending =>
    rw [hget] at hpending
    obtain ⟨hpos, _, hvalue⟩ := hpending
    have hgen : pending.token = event.token ↔ pending.token.value = event.token.value :=
      ⟨fun heq => by rw [heq], fun heq => by
        cases hp : pending.token; cases he : event.token; simpa [hp, he] using heq⟩
    simp only [Option.some.injEq, exists_eq_left', hgen, hvalue, htoken, ofNat_succ_inj]
    constructor
    · exact fun heq => ⟨by omega, heq.symm⟩
    · exact fun heq => heq.2.symm

/-- **When stale fingerprints do not publish.** In any run the calls of `complete` behave exactly when
each of them is made with a fresh event, or with no push to complete, or in a round whose number of
pushes tells it apart from the one of its event. -/
theorem complete_behaves_iff (debounceTicks : UInt64) (calls : List CoalescerCall) :
    Runs.Admissible step Behaves { coalescer := { debounceTicks } } calls ↔
      Runs.Admissible step Distinguished { coalescer := { debounceTicks } } calls := by
  refine @Runs.admissible_congr _ _ step Inv (fun h call hinv => inv_step hinv call) _ _
    (fun h call hinv => ?_) _ (inv_init debounceTicks) calls
  cases call with
  | push path kind now => exact Iff.rfl
  | due now => exact Iff.rfl
  | complete age event fingerprint =>
    refine forall_congr' fun hevent => ?_
    have hunchanged : (h.coalescer.complete event fingerprint).1 ≠ .ok () →
        (h.coalescer.complete event fingerprint).2 = h.coalescer :=
      FileEventCoalescer.complete_rejected
    rw [and_iff_left hunchanged, complete_ok_iff_pushes hinv hevent]
    tauto

/-- One push and its completion, another push, and the event of the first push completed once more: it
is not fresh, and it is accepted. -/
theorem stale_event_accepted :
    ¬ Runs.Admissible step Behaves {}
      [.push ⟨[97]⟩ .modify 0, .complete 0 ⟨⟨[97]⟩, 2, ⟨2⟩, 5⟩ ⟨⟨[97]⟩, {}, 0, {}⟩,
        .push ⟨[97]⟩ .modify 7, .complete 2 ⟨⟨[97]⟩, 2, ⟨2⟩, 5⟩ ⟨⟨[97]⟩, {}, 0, {}⟩] := by
  intro h
  have hfresh := (h.2.2.2.1 ⟨.pushed ⟨⟨[97]⟩, 2, ⟨2⟩, 5⟩, by decide +kernel, rfl⟩).1 (by decide +kernel)
  exact absurd (hfresh.1 (.pushed ⟨⟨[97]⟩, 2, ⟨2⟩, 12⟩) (by decide +kernel)) (by decide +kernel)

end CoalescerHistory

end Forge
