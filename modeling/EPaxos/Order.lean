import EPaxos.Network

/-!
# The order of execution inside a component

`executeSCC` sorts a strongly connected component with `ExecutesBefore`, which
compares the sequence numbers and then the replicas, and executes it in that
order. The source relies on "commands in the same SCC will always be from
different replicas": then no two members of a component tie, and the sort
leaves nothing to the order in which the executor ranged over its vertices.

Two instances of one replica can however depend on each other with the same
sequence number. Replica `0` proposes `X` and then `Y` on one key; replica `1`
sees `Y`'s `PreAccept` first and makes `X` depend on `Y`, replica `2` makes `Y`
depend on `X`, and both replies raise the two sequence numbers to `3`. The
component `{X, Y}` is then executed in the executor's map order, and two
replicas execute the two interfering commands in opposite orders.
-/
namespace EPaxos

namespace Network

/-- A write of the key `a`; any two of them interfere. -/
def writeA (n : ℕ) : Command := ⟨n, ⟨[97], []⟩, true⟩

/-- A map order that ranges over the first two vertices the other way round. -/
def swapOrder : MapOrder InstanceID :=
  ⟨fun | a :: b :: l => b :: a :: l | l => l, fun
    | a :: b :: l => List.Perm.swap a b l
    | [] => List.Perm.refl _
    | [_] => List.Perm.refl _⟩

/-- `X = (0,1)` and `Y = (0,2)` of replica `0` and `W = (2,1)` of replica `2`
reach `Accepted` with `X → Y`, `Y → X, W` and sequence number `3` each; replica
`0` commits `X` and `Y`, replica `2` commits `W` with `W → X, Y`. -/
def tieRun : List Event :=
  [.request 0 (writeA 1),
   .deliver ⟨2, ⟨0, 1⟩, .preAccept ⟨some (writeA 1), 1, []⟩⟩,
   .request 2 (writeA 3),
   .request 0 (writeA 2),
   .deliver ⟨1, ⟨0, 2⟩, .preAccept ⟨some (writeA 2), 2, [⟨0, 1⟩]⟩⟩,
   .deliver ⟨1, ⟨0, 1⟩, .preAccept ⟨some (writeA 1), 1, []⟩⟩,
   .deliver ⟨2, ⟨0, 2⟩, .preAccept ⟨some (writeA 2), 2, [⟨0, 1⟩]⟩⟩,
   .deliver ⟨0, ⟨0, 1⟩, .preAcceptReply 3 [⟨0, 2⟩]⟩,
   .deliver ⟨0, ⟨0, 2⟩, .preAcceptReply 3 [⟨0, 1⟩, ⟨2, 1⟩]⟩,
   .deliver ⟨1, ⟨0, 1⟩, .accept ⟨none, 3, [⟨0, 2⟩]⟩⟩,
   .deliver ⟨0, ⟨0, 1⟩, .acceptOk⟩,
   .deliver ⟨1, ⟨0, 2⟩, .accept ⟨none, 3, [⟨0, 1⟩, ⟨2, 1⟩]⟩⟩,
   .deliver ⟨0, ⟨0, 2⟩, .acceptOk⟩,
   .deliver ⟨1, ⟨2, 1⟩, .preAccept ⟨some (writeA 3), 2, [⟨0, 1⟩]⟩⟩,
   .deliver ⟨2, ⟨2, 1⟩, .preAcceptReply 4 [⟨0, 1⟩, ⟨0, 2⟩]⟩,
   .deliver ⟨1, ⟨2, 1⟩, .accept ⟨none, 4, [⟨0, 1⟩, ⟨0, 2⟩]⟩⟩,
   .deliver ⟨2, ⟨2, 1⟩, .acceptOk⟩]

def tieNet : Network :=
  (runEvents (MapOrder.id _) (MapOrder.id _) tieRun (init [0, 1, 2] fun _ => true)).get
    (by decide +kernel)

/-- The commit of `W` on its way to replica `0`, where it unblocks `{X, Y}`. -/
def commitW : Message := ⟨0, ⟨2, 1⟩, .commit ⟨some (writeA 3), 4, [⟨0, 1⟩, ⟨0, 2⟩]⟩⟩

theorem committed_component_tie :
    Reachable [0, 1, 2] (fun _ => true) false tieNet ∧
    (tieNet.replicas 0).liveState ⟨0, 1⟩ =
      some ⟨⟨0, 1⟩, .committed, some (writeA 1), 3, [⟨0, 2⟩]⟩ ∧
    (tieNet.replicas 0).liveState ⟨0, 2⟩ =
      some ⟨⟨0, 2⟩, .committed, some (writeA 2), 3, [⟨0, 1⟩, ⟨2, 1⟩]⟩ ∧
    ((step (MapOrder.id _) (MapOrder.id _) (.deliver commitW) tieNet).map
      fun net => (net.replicas 0).executedCmds) = some [writeA 2, writeA 1, writeA 3] ∧
    ((step swapOrder (MapOrder.id _) (.deliver commitW) tieNet).map
      fun net => (net.replicas 0).executedCmds) = some [writeA 1, writeA 2, writeA 3] :=
  ⟨reachable_of_runEvents (by decide +kernel) (Option.some_get _).symm, by decide +kernel,
    by decide +kernel, by decide +kernel, by decide +kernel⟩

/-- Replica `0` executes `{X, Y}` in one map order; replica `1` then receives the
three commits and executes it in the other. -/
def swapNet : Network :=
  (step swapOrder (MapOrder.id _) (.deliver commitW) tieNet).get (by decide +kernel)

def commitsToOne : List Event :=
  [.deliver ⟨1, ⟨0, 1⟩, .commit ⟨some (writeA 1), 3, [⟨0, 2⟩]⟩⟩,
   .deliver ⟨1, ⟨0, 2⟩, .commit ⟨some (writeA 2), 3, [⟨0, 1⟩, ⟨2, 1⟩]⟩⟩,
   .deliver ⟨1, ⟨2, 1⟩, .commit ⟨some (writeA 3), 4, [⟨0, 1⟩, ⟨0, 2⟩]⟩⟩]

def orderNet : Network :=
  (runEvents (MapOrder.id _) (MapOrder.id _) commitsToOne swapNet).get (by decide +kernel)

theorem interfering_executed_in_opposite_orders :
    Reachable [0, 1, 2] (fun _ => true) false orderNet ∧
    (writeA 1).interferes (writeA 2) = true ∧
    (orderNet.replicas 0).executedCmds = [writeA 1, writeA 2, writeA 3] ∧
    (orderNet.replicas 1).executedCmds = [writeA 2, writeA 1, writeA 3] := by
  have htie : Reachable [0, 1, 2] (fun _ => true) false tieNet :=
    reachable_of_runEvents (by decide +kernel) (Option.some_get _).symm
  have hswap : Reachable [0, 1, 2] (fun _ => true) false swapNet :=
    htie.tail ⟨.deliver commitW, swapOrder, MapOrder.id _, rfl, (Option.some_get _).symm⟩
  exact ⟨hswap.trans_runEvents (by decide +kernel) (Option.some_get _).symm, by decide,
    by decide +kernel, by decide +kernel⟩

end Network

end EPaxos
