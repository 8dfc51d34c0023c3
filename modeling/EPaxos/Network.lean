import EPaxos.Replica
import Mathlib.Logic.Relation

/-!
# Runs of a deployment

A deployment is a list of distinct nodes, each running one `epaxos` state
machine. After every call the network takes the replica's outbox; a message in
flight may later be delivered to its destination or lost, in any order, but it
is never duplicated. A replica may also be restarted from its storage, as the
tests' `network.restart` does. Each call is made with the orders in which Go
happens to range over the executor's vertices and over the storage's instances.
-/
namespace EPaxos

structure Network where
  replicas : ℕ → Replica
  inFlight : List Message

inductive Event
  | request (r : ℕ) (cmd : Command)
  | deliver (m : Message)
  | drop (m : Message)
  | tick (r : ℕ)
  | restart (r : ℕ)
  deriving DecidableEq, Repr

namespace Network

/-- Store the replica after a call and take its outbox. -/
def update (net : Network) (r : ℕ) (p : Replica) : Network :=
  { replicas := Function.update net.replicas r { p with msgs := [] }
    inFlight := net.inFlight ++ p.msgs }

/-- The deployment before any call: every node with a fresh storage. -/
def init (nodes : List ℕ) (aliasing : ℕ → Bool) : Network :=
  { replicas := fun r =>
      Replica.empty r nodes ((Storage.empty (aliasing r)).persistHardState ⟨r, nodes⟩)
    inFlight := [] }

/-- The restart of a replica from its storage, with the same configuration. -/
def restartReplica (order : MapOrder InstanceID) (loadOrder : MapOrder InstanceState)
    (p : Replica) : Option Replica :=
  newEPaxos order loadOrder ⟨p.id, p.nodes, some (p.storage.freeze p.liveState)⟩

/-- One event; `none` when a call panics or a message is not in flight. -/
def step (order : MapOrder InstanceID) (loadOrder : MapOrder InstanceState) :
    Event → Network → Option Network
  | .request r cmd, net => ((net.replicas r).onRequest order cmd).map (net.update r)
  | .deliver m, net =>
    if m ∈ net.inFlight then
      ((net.replicas m.dest).step order m).map
        ({ net with inFlight := net.inFlight.erase m }.update m.dest)
    else none
  | .drop m, net =>
    if m ∈ net.inFlight then some { net with inFlight := net.inFlight.erase m } else none
  | .tick r, net => ((net.replicas r).tick order).map (net.update r)
  | .restart r, net => (restartReplica order loadOrder (net.replicas r)).map (net.update r)

/-- The events a run may take at the given nodes; `restarts` allows restarts. -/
def Event.allowed (nodes : List ℕ) (restarts : Bool) : Event → Bool
  | .request r _ | .tick r => decide (r ∈ nodes)
  | .restart r => restarts && decide (r ∈ nodes)
  | .deliver _ | .drop _ => true

/-- One step of a run. -/
def Step (nodes : List ℕ) (restarts : Bool) (net net' : Network) : Prop :=
  ∃ e order loadOrder, Event.allowed nodes restarts e ∧ step order loadOrder e net = some net'

/-- The states a run reaches: from the fresh deployment, any number of steps. -/
def Reachable (nodes : List ℕ) (aliasing : ℕ → Bool) (restarts : Bool) (net : Network) : Prop :=
  Relation.ReflTransGen (Step nodes restarts) (init nodes aliasing) net

/-- Run a list of events with fixed orders. -/
def runEvents (order : MapOrder InstanceID) (loadOrder : MapOrder InstanceState) :
    List Event → Network → Option Network
  | [], net => some net
  | e :: es, net => (step order loadOrder e net).bind (runEvents order loadOrder es)

theorem Reachable.trans_runEvents {nodes : List ℕ} {aliasing : ℕ → Bool} {restarts : Bool}
    {order : MapOrder InstanceID} {loadOrder : MapOrder InstanceState} :
    ∀ {es : List Event} {net net' : Network}, Reachable nodes aliasing restarts net →
      es.all (Event.allowed nodes restarts) →
      runEvents order loadOrder es net = some net' → Reachable nodes aliasing restarts net'
  | [], _, _, h, _, hrun => by
    rw [runEvents, Option.some.injEq] at hrun
    exact hrun ▸ h
  | e :: es, net, net', h, hall, hrun => by
    rw [List.all_cons, Bool.and_eq_true] at hall
    rw [runEvents, Option.bind_eq_some_iff] at hrun
    obtain ⟨mid, hmid, hrest⟩ := hrun
    exact Reachable.trans_runEvents (h.tail ⟨e, order, loadOrder, hall.1, hmid⟩) hall.2 hrest

/-- A run of events from the fresh deployment reaches a reachable state. -/
theorem reachable_of_runEvents {nodes : List ℕ} {aliasing : ℕ → Bool} {restarts : Bool}
    {order : MapOrder InstanceID} {loadOrder : MapOrder InstanceState} {es : List Event}
    {net : Network} (hall : es.all (Event.allowed nodes restarts))
    (hrun : runEvents order loadOrder es (init nodes aliasing) = some net) :
    Reachable nodes aliasing restarts net :=
  Reachable.trans_runEvents Relation.ReflTransGen.refl hall hrun

end Network

end EPaxos
