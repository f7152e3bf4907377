import Forge.Base.Error
import Std.Data.ExtTreeMap
import Std.Data.ExtTreeMap.Lemmas

/-!
# Build events

`BuildEvent` and `EventHub` of `event_hub.cpp`. A stream is opened under an id of its own and stays. It
holds the events that were published and not drained yet, and the credit for further ones: an event
takes its bytes from the credit. Where the credit is too small a terminal event is queued all the same,
and any other event is dropped, the first time with a gap event in its place.
-/

namespace Forge

open Std (ExtTreeMap)

inductive EventKind
  | progress | gap | queued | running | succeeded | failed | cancelled
deriving DecidableEq, Repr

structure BuildEvent where
  kind : EventKind := .progress
  message : Str := []
  terminal : Bool := false
  bytes : UInt64 := 0
deriving DecidableEq, Repr

structure EventHub.Stream where
  credit : UInt64 := 0
  queued : List BuildEvent := []
  gapEmitted : Bool := false
deriving DecidableEq, Repr

structure EventHub where
  streams : ExtTreeMap UInt32 EventHub.Stream := ∅
deriving DecidableEq

namespace EventHub

def hubError (message : Str) : Status := Status.error .protocol "event-hub" message

/-- The event queued in place of dropped progress. -/
def gapEvent : BuildEvent :=
  { kind := .gap, message := "progress omitted by credit backpressure", terminal := false, bytes := 0 }

def openStream (hub : EventHub) (streamId : UInt32) (credit : UInt64) : Result Unit × EventHub :=
  if streamId = 0 ∨ streamId ∈ hub.streams then
    (.error (Status.error .protocol "event-hub" "invalid event stream"), hub)
  else
    (.ok (), { hub with streams := hub.streams.insert streamId { credit } })

def addCredit (hub : EventHub) (streamId : UInt32) (credit : UInt64) : Result Unit × EventHub :=
  match hub.streams[streamId]? with
  | none => (.error (hubError "unknown event stream"), hub)
  | some stream =>
    match checkedAdd stream.credit credit "event-hub" with
    | .error status => (.error status, hub)
    | .ok credit =>
      (.ok (), { hub with streams := hub.streams.insert streamId { stream with credit } })

def publish (hub : EventHub) (streamId : UInt32) (event : BuildEvent) : Result Unit × EventHub :=
  match hub.streams[streamId]? with
  | none => (.error (hubError "unknown event stream"), hub)
  | some stream =>
    if event.bytes ≤ stream.credit then
      (.ok (), { hub with
        streams := hub.streams.insert streamId
          { stream with credit := stream.credit - event.bytes, queued := stream.queued ++ [event] } })
    else if event.terminal then
      (.ok (), { hub with
        streams := hub.streams.insert streamId { stream with queued := stream.queued ++ [event] } })
    else
      let stream :=
        if stream.gapEmitted then stream
        else { stream with gapEmitted := true, queued := stream.queued ++ [gapEvent] }
      (.error (Status.error .backpressure "event-hub" "progress event dropped"),
        { hub with streams := hub.streams.insert streamId stream })

def drain (hub : EventHub) (streamId : UInt32) : List BuildEvent × EventHub :=
  match hub.streams[streamId]? with
  | none => ([], hub)
  | some stream =>
    (stream.queued, { hub with streams := hub.streams.insert streamId { stream with queued := [] } })

end EventHub

end Forge
