import EPaxos.State
import EPaxos.Interval

/-!
# `seqAndDepsForCommand`

For every replica space the instances are read from the highest instance
number down. An interfering instance raises the maximal sequence number. A
writing one is a dependency only when its range grows the range group of the
writes seen so far in that space, and the scan of the space stops once a single
range of the group encloses the command's range. A reading one is a dependency
only when the group does not overlap it. The spaces are the keys of
`p.commands`, the nodes; their order does not matter, since the group is
cleared after each space and the results are a maximum and a set.

A stored instance without a command makes `otherCmd.Interferes` dereference nil:
the scan panics there, which is `none`.
-/
namespace EPaxos

/-- `rangeForCmd`: a point span `k` becomes `[k, k++0x00)`. -/
def rangeForCmd (cmd : Command) : Range :=
  { start := cmd.span.key
    endKey := if cmd.span.endKey.isEmpty then cmd.span.key ++ [0] else cmd.span.endKey }

/-- The `Descend` callback over one replica space `rID`, with the range group
`g` of that space and the running maximum and dependencies. -/
def descendDeps (cmd : Command) (ignored : InstanceID) (rID : ℕ) :
    List Instance → RangeGroup → ℕ × List InstanceID → Option (ℕ × List InstanceID)
  | [], _, acc => some acc
  | inst :: rest, g, acc =>
    if inst.is.instanceID = ignored then descendDeps cmd ignored rID rest g acc
    else do
      let otherCmd ← inst.is.command
      if otherCmd.interferes cmd then
        let maxSeq := maxSeqNum acc.1 inst.is.seqNum
        let dep : InstanceID := ⟨rID, inst.num⟩
        let otherRange := rangeForCmd otherCmd
        if otherCmd.writing then
          let (grew, g') ← g.add otherRange
          if grew then
            let deps := acc.2 ++ [dep]
            if g'.len = 1 then
              let enc ← g'.encloses (rangeForCmd cmd)
              if enc then some (maxSeq, deps)
              else descendDeps cmd ignored rID rest g' (maxSeq, deps)
            else descendDeps cmd ignored rID rest g' (maxSeq, deps)
          else descendDeps cmd ignored rID rest g' (maxSeq, acc.2)
        else
          let ov ← g.overlaps otherRange
          descendDeps cmd ignored rID rest g (maxSeq, if ov then acc.2 else acc.2 ++ [dep])
      else descendDeps cmd ignored rID rest g acc

/-- `seqAndDepsForCommand`: the locally known maximal interfering sequence
number and the dependencies of `cmd`, skipping `ignoredInstance`. -/
def Replica.seqAndDepsForCommand (p : Replica) (cmd : Command) (ignoredInstance : InstanceID) :
    Option (ℕ × List InstanceID) :=
  p.nodes.foldlM
    (fun acc rID => descendDeps cmd ignoredInstance rID (p.commands rID).items RangeGroup.empty acc)
    (0, [])

end EPaxos
