import EPaxos.Pb
import EPaxos.Lib.GoSort
import EPaxos.Lib.OptionFold
import EPaxos.Interval
import EPaxos.Executor
import EPaxos.State
import EPaxos.Deps
import EPaxos.Instance
import EPaxos.Replica
import EPaxos.Network
import EPaxos.Frame
import EPaxos.Calls
import EPaxos.Execution
import EPaxos.Restart
import EPaxos.Order
import EPaxos.Commands
import EPaxos.Durability
import EPaxos.Agreement
import EPaxos.Lib.Digraph
import EPaxos.Tarjan.Invariant
import EPaxos.Tarjan.Correct
import EPaxos.Run
import EPaxos.Eager
import EPaxos.EagerRestart
import EPaxos.Interference
import EPaxos.Attributes
import EPaxos.Effects
import EPaxos.DepInv
import EPaxos.DepsOrder
import EPaxos.DemoStore
import EPaxos.Lib.IntervalList
import EPaxos.RangeSet
import EPaxos.RangeTree
import EPaxos.Lib.Varint
import EPaxos.Lib.ProtoWire
import EPaxos.Wire
import EPaxos.DemoStoreWire
import EPaxos.WireMessage
import EPaxos.Transport
