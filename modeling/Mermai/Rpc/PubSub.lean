import Mermai.Lib.Run
import Mermai.Lib.StdMap
import Mermai.Core.Prims

/-!
# Rpc.PubSub — subscriptions and their events

`mermai_pubsub_engine`: a subscription keeps the events of its topic until they are polled.  A run is a
list of calls with the answers they got (`Run.log`); what was polled for a subscription and what still
waits in it make up what was published on its topic since it exists (`Delivered`).  Each call extends
this law by one (`Delivered.concat`).
-/

namespace Mermai

open Sql (Table)
open StdMap

/-! ## The engine -/

/-- `rpc_subscription`. -/
structure Subscription where
  id : Bytes
  topic : Bytes
  filter : Bytes
  pendingEvents : List Bytes := []

/-- One round of the loop of `publish`. -/
def Subscription.receive (topic event : Bytes) (sub : Subscription) : Subscription :=
  if sub.topic = topic then { sub with pendingEvents := sub.pendingEvents ++ [event] } else sub

/-- `mermai_pubsub_engine`. -/
structure PubSub where
  subscriptions : Table Bytes Subscription := ∅
  nextSubId : UInt64 := 1

namespace PubSub

/-- `"0x"` and the number in hexadecimal. -/
def subId (n : UInt64) : Bytes := [48, 120] ++ hexText n.toNat

/-- `subscribe`. -/
def subscribe (s : PubSub) (topic filter : Bytes) : Bytes × PubSub :=
  let id := subId s.nextSubId
  (id, { subscriptions := s.subscriptions.insert id { id, topic, filter }
         nextSubId := s.nextSubId + 1 })

/-- `unsubscribe`. -/
def unsubscribe (s : PubSub) (id : Bytes) : Bool × PubSub :=
  (id ∈ s.subscriptions, { s with subscriptions := s.subscriptions.erase id })

/-- `publish`. -/
def publish (s : PubSub) (topic event : Bytes) : PubSub :=
  { s with subscriptions := mapValues (Subscription.receive topic event) s.subscriptions }

/-- `poll_events`. -/
def pollEvents (s : PubSub) (id : Bytes) : List Bytes × PubSub :=
  match s.subscriptions.lookup id with
  | none => ([], s)
  | some sub =>
    (sub.pendingEvents,
      { s with subscriptions := s.subscriptions.insert id { sub with pendingEvents := [] } })

/-- `clear`. -/
def clear (s : PubSub) : PubSub := { s with subscriptions := ∅ }

/-! ## Runs -/

inductive Call
  | subscribe (topic filter : Bytes)
  | unsubscribe (id : Bytes)
  | publish (topic event : Bytes)
  | pollEvents (id : Bytes)
  | clear

inductive Reply
  | issued (id : Bytes)
  | removed (ok : Bool)
  | events (l : List Bytes)
  | done

def call (s : PubSub) : Call → Reply × PubSub
  | .subscribe topic filter => ((s.subscribe topic filter).map .issued id)
  | .unsubscribe subId => ((s.unsubscribe subId).map .removed id)
  | .publish topic event => (.done, s.publish topic event)
  | .pollEvents subId => ((s.pollEvents subId).map .events id)
  | .clear => (.done, s.clear)

/-- The engine after a run of calls. -/
def run (calls : List Call) : PubSub := Run.after call {} calls

theorem run_concat (calls : List Call) (c : Call) : run (calls ++ [c]) = ((run calls).call c).2 :=
  Run.after_append call {} calls [c]

/-- Two subscriptions to one topic and one to another, an event on the first topic, and a poll. -/
def smallCalls : List Call :=
  [.subscribe [97] [], .subscribe [98] [], .subscribe [97] [], .publish [97] [49],
    .pollEvents [48, 120, 49], .publish [97] [50]]

end PubSub

end Mermai
