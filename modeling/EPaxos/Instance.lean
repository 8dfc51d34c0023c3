import EPaxos.Deps
import EPaxos.Executor

/-!
# Instances: state transitions, the message handlers, `onRequest`

A handler acts on the instance with a given id in the replica's table and
returns the new replica, or `none` where the Go code panics (`Panicf`, a missing
`stateTransitions` entry, a nil dereference). Every handler takes the order in
which the executor ranges over its vertices, since a commit may run it.
-/
namespace EPaxos

/-- The action `stateTransitions` maps a transition to. -/
inductive TransitionAction
  | broadcastPreAccept
  | broadcastAccept
  /-- `broadcastCommit` then `prepareToExecute`. -/
  | broadcastCommitAndExecute
  | deliverExecutedCommand
  deriving DecidableEq, Repr

/-- `stateTransitions`. -/
def stateTransitions : Status → Status → Option TransitionAction
  | .none, .preAccepted => some .broadcastPreAccept
  | .preAccepted, .accepted => some .broadcastAccept
  | .preAccepted, .committed => some .broadcastCommitAndExecute
  | .accepted, .committed => some .broadcastCommitAndExecute
  | .committed, .executed => some .deliverExecutedCommand
  | _, _ => none

/-- `isStates`. -/
def Instance.isStates (inst : Instance) (states : List Status) : Bool :=
  decide (inst.is.status ∈ states)

/-- `fastPathAvailable`. -/
def Instance.fastPathAvailable (inst : Instance) : Bool := !inst.differentReplies

/-- The merge of a `PreAcceptReply` into the leader's instance. -/
def Instance.mergeReply (inst : Instance) (newSeq : ℕ) (updatedDeps : List InstanceID) :
    Instance :=
  let inst := if newSeq > inst.is.seqNum then
      { inst with is := { inst.is with seqNum := newSeq }, differentReplies := true }
    else inst
  let oldDepsLen := inst.is.deps.length
  let deps := unionDepSlices inst.is.deps updatedDeps
  let inst := { inst with is := { inst.is with deps := deps } }
  let inst := if oldDepsLen ≠ deps.length then { inst with differentReplies := true } else inst
  { inst with preAcceptReplies := inst.preAcceptReplies + 1 }

namespace Replica

variable (order : MapOrder InstanceID)

def setStatus (p : Replica) (d : InstanceID) (s : Status) : Replica :=
  p.modify d fun inst => { inst with is := { inst.is with status := s } }

/-- `Dependencies` of the executable `d`. -/
def depsOf (p : Replica) (d : InstanceID) : List InstanceID :=
  ((p.getInstance d).map (·.is.deps)).getD []

/-- `ExecutesBefore` of the executables `a` and `b`. -/
def executesBefore (p : Replica) (a b : InstanceID) : Bool :=
  match p.getInstance a, p.getInstance b with
  | some x, some y => x.executesBefore y
  | _, _ => false

def broadcastPreAccept (p : Replica) (d : InstanceID) : Replica :=
  match p.getInstance d with
  | some inst => p.broadcast (.preAccept inst.instanceData) d
  | none => p

def broadcastAccept (p : Replica) (d : InstanceID) : Replica :=
  match p.getInstance d with
  | some inst => p.broadcast (.accept inst.instanceDataWithoutCommand) d
  | none => p

def broadcastCommit (p : Replica) (d : InstanceID) : Replica :=
  match p.getInstance d with
  | some inst => p.broadcast (.commit inst.instanceData) d
  | none => p

/-- `deliverExecutedCommand(*inst.is.Command)`. -/
def deliverExecuted (p : Replica) (d : InstanceID) : Option Replica := do
  let inst ← p.getInstance d
  let cmd ← inst.is.command
  some { p with executedCmds := p.executedCmds ++ [cmd] }

/-- `instance.Execute`, which is `transitionTo(Executed)`: the only transition
into `Executed` leaves `Committed` and delivers the command. -/
def execute (p : Replica) (d : InstanceID) : Option Replica := do
  let inst ← p.getInstance d
  guard (stateTransitions inst.is.status .executed = some .deliverExecutedCommand)
  let p ← (p.setStatus d .executed).deliverExecuted d
  some (p.persist d)

/-- `prepareToExecute`: add the committed instance to the executor and run it. -/
def prepareToExecute (p : Replica) (d : InstanceID) : Option Replica := do
  let inst ← p.getInstance d
  guard (inst.is.status = .committed)
  let r := run p.depsOf p.executesBefore p.hasExecuted order (addExec p.vertices d)
  r.2.foldlM execute { p with vertices := r.1 }

def runAction : TransitionAction → Replica → InstanceID → Option Replica
  | .broadcastPreAccept, p, d => some (p.broadcastPreAccept d)
  | .broadcastAccept, p, d => some (p.broadcastAccept d)
  | .broadcastCommitAndExecute, p, d => (p.broadcastCommit d).prepareToExecute order d
  | .deliverExecutedCommand, p, d => p.deliverExecuted d

/-- `transitionTo`: look up the transition, take it, run its action, persist. -/
def transitionTo (p : Replica) (d : InstanceID) (toStatus : Status) : Option Replica := do
  let inst ← p.getInstance d
  let action ← stateTransitions inst.is.status toStatus
  let p ← runAction order action (p.setStatus d toStatus) d
  some (p.persist d)

/-- `restartTransition`: replay the action of the transition into the current
status, without persisting. Below `None` there is no transition. -/
def restartTransition (p : Replica) (d : InstanceID) : Option Replica := do
  let inst ← p.getInstance d
  let prev ← inst.is.status.pred
  let action ← stateTransitions prev inst.is.status
  runAction order action p d

def onPreAccept (p : Replica) (d : InstanceID) (pa : InstanceData) : Option Replica := do
  let inst ← p.getInstance d
  if !inst.isStates [.none, .preAccepted] then return p
  let p := p.setStatus d .preAccepted
  let cmd ← pa.command
  let (maxLocalSeq, localDeps) ← p.seqAndDepsForCommand cmd d
  let seq := maxSeqNum pa.seqNum (maxLocalSeq + 1)
  let deps := depSliceFromMap (localDeps ++ pa.deps)
  let p := p.modify d fun inst =>
    { inst with is := { inst.is with command := pa.command, seqNum := seq, deps := deps } }
  if seq = pa.seqNum ∧ deps.length = pa.deps.length then some (p.reply .preAcceptOk d)
  else some (p.reply (.preAcceptReply seq deps) d)

def onEitherPreAcceptReply (p : Replica) (d : InstanceID) : Option Replica := do
  let inst ← p.getInstance d
  let replies := inst.preAcceptReplies + 1
  let takeFastPath := !inst.differentReplies && p.fastQuorum replies
  let takeSlowPath := p.quorum replies
  if takeFastPath then (p.unregisterTimer d).transitionTo order d .committed
  else if takeSlowPath then
    if !inst.fastPathAvailable then (p.unregisterTimer d).transitionTo order d .accepted
    else if !inst.slowPathTimer.isSet then some (p.registerOneTimeTimer d)
    else some p
  else some p

def onPreAcceptOK (p : Replica) (d : InstanceID) : Option Replica := do
  let inst ← p.getInstance d
  if !inst.isStates [.preAccepted] then return p
  (p.modify d fun inst => { inst with preAcceptReplies := inst.preAcceptReplies + 1 }
    ).onEitherPreAcceptReply order d

def onPreAcceptReply (p : Replica) (d : InstanceID) (newSeq : ℕ)
    (updatedDeps : List InstanceID) : Option Replica := do
  let inst ← p.getInstance d
  if !inst.isStates [.preAccepted] then return p
  (p.setInstance (inst.mergeReply newSeq updatedDeps)).onEitherPreAcceptReply order d

def onAccept (p : Replica) (d : InstanceID) (a : InstanceData) : Option Replica := do
  let inst ← p.getInstance d
  if !inst.isStates [.none, .preAccepted, .accepted] then return p
  let p := p.modify d fun inst =>
    { inst with is := { inst.is with status := .accepted, seqNum := a.seqNum, deps := a.deps } }
  some (p.reply .acceptOk d)

def onAcceptOK (p : Replica) (d : InstanceID) : Option Replica := do
  let inst ← p.getInstance d
  if !inst.isStates [.accepted] then return p
  let p := p.modify d fun inst => { inst with acceptReplies := inst.acceptReplies + 1 }
  if p.quorum (inst.acceptReplies + 1 + 1) then p.transitionTo order d .committed
  else some p

def onCommit (p : Replica) (d : InstanceID) (c : InstanceData) : Option Replica := do
  let inst ← p.getInstance d
  if !inst.isStates [.none, .preAccepted, .accepted] then return p
  let p := p.modify d fun inst =>
    { inst with
      is := { inst.is with
        status := .committed, command := c.command, seqNum := c.seqNum, deps := c.deps } }
  p.prepareToExecute order d

/-- `onRequest`: a new instance at the smallest unused number, pre-accepted. -/
def onRequest (p : Replica) (cmd : Command) : Option Replica := do
  let i := p.maxInstanceNum p.id + 1
  let (maxLocalSeq, localDeps) ← p.seqAndDepsForCommand cmd ⟨0, 0⟩
  let newInst := Instance.ofState
    ⟨⟨p.id, i⟩, .none, some cmd, maxLocalSeq + 1, depSliceFromMap localDeps⟩
  (p.setInstance newInst).transitionTo order ⟨p.id, i⟩ .preAccepted

/-- `tick` of one registered slow-path timer; on timeout it unregisters itself
and moves the instance to `Accepted`. -/
def tickTimer (p : Replica) (d : InstanceID) : Option Replica :=
  match p.getInstance d with
  | none => some p
  | some inst =>
    let t := inst.slowPathTimer
    if t.paused then some p
    else if t.ticksElapsed + 1 ≥ slowPathTimout then
      ((p.modify d fun inst => { inst with slowPathTimer := ⟨t.ticksElapsed + 1, true⟩ }
        ).unregisterTimer d).transitionTo order d .accepted
    else some (p.modify d fun inst => { inst with slowPathTimer := ⟨t.ticksElapsed + 1, false⟩ })

end Replica

end EPaxos
