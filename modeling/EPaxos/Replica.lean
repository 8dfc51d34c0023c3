import EPaxos.Instance

/-!
# The `epaxos` entry points: `newEPaxos`, `Request`, `Step`, `Tick`

`newEPaxos` validates the configuration, loads every persisted instance in the
order the storage's `Instances` returns them, and replays the transition into
the current status of each of its own instances that has not executed.
`Step` drops invalid messages, creates the instance a message from another
replica names when it is unknown, and dispatches on the message type.
-/
namespace EPaxos

/-- `Config`; a missing `Storage` is `none`. The logger and the random seed
are not modelled. -/
structure Config where
  id : ℕ
  nodes : List ℕ
  storage : Option Storage

/-- `Config.validate`: the storage to use, or the error. -/
def Config.validate (c : Config) : Except String Storage :=
  if c.id ∉ c.nodes then .error "ID not in Nodes slice"
  else
    match c.storage with
    | none => .ok (Storage.empty true)
    | some s =>
      match s.hardState with
      | some hs =>
        if hs.replicaID ≠ c.id then .error "ID different than in HardState"
        else if hs.nodes ≠ c.nodes then .error "Node set different than in HardState"
        else .ok s
      | none => .ok s

namespace Replica

variable (order : MapOrder InstanceID)

/-- A replica with the given storage and no instances. -/
def empty (id : ℕ) (nodes : List ℕ) (s : Storage) : Replica :=
  ⟨id, nodes, s, fun _ => BTree.empty, fun _ _ h => by simp [BTree.empty] at h, [], [], [], []⟩

/-- One iteration of the loading loop of `initStorage`. -/
def loadInstance (p : Replica) (is : InstanceState) : Option Replica :=
  let inst := Instance.ofState is
  let p := p.setInstance inst
  if is.instanceID.replicaID = p.id && !inst.isStates [.executed] then
    p.restartTransition order is.instanceID
  else some p

/-- `initStorage`, with `insts` the result of `Instances()`. -/
def initStorage (p : Replica) (insts : List InstanceState) : Option Replica :=
  let p := match p.storage.hardState with
    | some _ => p
    | none => { p with storage := p.storage.persistHardState ⟨p.id, p.nodes⟩ }
  insts.foldlM (loadInstance order) p

/-- `validateMessage`. -/
def validateMessage (p : Replica) (m : Message) : Bool :=
  if m.dest ≠ p.id then false
  else if isReply m.msgType then decide (m.instanceID.replicaID = p.id)
  else decide (m.instanceID.replicaID ≠ p.id) && decide (m.instanceID.replicaID ∈ p.nodes)

/-- `Step`. -/
def step (p : Replica) (m : Message) : Option Replica :=
  if !p.validateMessage m then some p
  else if (p.getInstance m.instanceID).isNone && m.instanceID.replicaID = p.id then some p
  else
    let p := if (p.getInstance m.instanceID).isNone then
        p.setInstance (Instance.new m.instanceID.replicaID m.instanceID.instanceNum)
      else p
    match m.msgType with
    | .preAccept pa => p.onPreAccept m.instanceID pa
    | .preAcceptOk => p.onPreAcceptOK order m.instanceID
    | .preAcceptReply s ds => p.onPreAcceptReply order m.instanceID s ds
    | .accept a => p.onAccept m.instanceID a
    | .acceptOk => p.onAcceptOK order m.instanceID
    | .commit c => p.onCommit order m.instanceID c

/-- `Tick`: every registered timer ticks once. -/
def tick (p : Replica) : Option Replica := p.timers.foldlM (tickTimer order) p

end Replica

/-- `newEPaxos`; `loadOrder` is the order of `Instances()`. -/
def newEPaxos (order : MapOrder InstanceID) (loadOrder : MapOrder InstanceState) (c : Config) :
    Option Replica :=
  match c.validate with
  | .error _ => none
  | .ok s => (Replica.empty c.id c.nodes s).initStorage order
      (loadOrder.arrange (s.resolve fun _ => none))

end EPaxos
