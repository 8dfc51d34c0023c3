import EPaxos.Pb
import Mathlib.Data.List.Pairwise

/-!
# The state of one replica

An `instance` is its `InstanceState` together with the command leader's
counters and its slow-path timer. Each replica keeps one `btree.BTree` of
instances per replica space, ordered by instance number; we keep the items
highest number first, which is the order `Descend` and `Max` read them in.

`Storage` records what `PersistInstance` was given. `MemoryStorage` stores the
pointer `&inst.is` of the live instance, so it keeps seeing later changes to the
instance until that instance object dies with its replica; another storage keeps
the state as it was when persisted. `Stored.live` and `Stored.copy` are these two
cases, and `Storage.freeze` resolves the live entries when the replica stops.

The `rangeGroup` field of `epaxos` is empty between calls and is local to
`seqAndDepsForCommand` here; the logger and the random source are not modelled.
-/
namespace EPaxos

/-- A `tickingTimer`; its callback is fixed by the code that owns it. -/
structure TickingTimer where
  ticksElapsed : ℕ
  paused : Bool
  deriving DecidableEq, Repr

namespace TickingTimer

/-- `makeTickingTimer` leaves the timer paused. -/
def make : TickingTimer := ⟨0, true⟩

def reset (_ : TickingTimer) : TickingTimer := ⟨0, false⟩

def stop (_ : TickingTimer) : TickingTimer := ⟨0, true⟩

def isSet (t : TickingTimer) : Bool := !t.paused

end TickingTimer

/-- `slowPathTimout`. -/
def slowPathTimout : ℕ := 2

structure Instance where
  is : InstanceState
  preAcceptReplies : ℕ
  differentReplies : Bool
  slowPathTimer : TickingTimer
  acceptReplies : ℕ
  deriving DecidableEq, Repr

namespace Instance

def num (inst : Instance) : ℕ := inst.is.instanceID.instanceNum

/-- `newInstanceFromState`: fresh leader counters and a paused timer. -/
def ofState (is : InstanceState) : Instance := ⟨is, 0, false, TickingTimer.make, 0⟩

/-- `newInstance`: an instance in status `None` with no command. -/
def new (r : ℕ) (i : ℕ) : Instance :=
  ofState ⟨⟨r, i⟩, .none, none, 0, []⟩

/-- `instanceDataWithoutCommand`. -/
def instanceDataWithoutCommand (inst : Instance) : InstanceData :=
  ⟨none, inst.is.seqNum, inst.is.deps⟩

/-- `instanceData`. -/
def instanceData (inst : Instance) : InstanceData :=
  ⟨inst.is.command, inst.is.seqNum, inst.is.deps⟩

/-- `ExecutesBefore`: by sequence number, then by replica. -/
def executesBefore (a b : Instance) : Bool :=
  if a.is.seqNum ≠ b.is.seqNum then decide (a.is.seqNum < b.is.seqNum)
  else decide (a.is.instanceID.replicaID < b.is.instanceID.replicaID)

end Instance

/-- A `btree.BTree` of instances keyed by instance number, highest first. -/
structure BTree where
  items : List Instance
  sorted : items.Pairwise fun a b => b.num < a.num

namespace BTree

def empty : BTree := ⟨[], List.Pairwise.nil⟩

/-- `Get`. -/
def get (t : BTree) (i : ℕ) : Option Instance := t.items.find? (·.num = i)

/-- `Max`. -/
def max (t : BTree) : Option Instance := t.items.head?

/-- Insertion into a list kept highest first, replacing an item of equal number. -/
def insertDesc (x : Instance) : List Instance → List Instance
  | [] => [x]
  | y :: ys =>
    if y.num < x.num then x :: y :: ys
    else if y.num = x.num then x :: ys
    else y :: insertDesc x ys

theorem mem_insertDesc {x z : Instance} {l : List Instance} (h : z ∈ insertDesc x l) :
    z = x ∨ z ∈ l := by
  induction l with
  | nil => simpa [insertDesc] using h
  | cons y ys ih =>
    unfold insertDesc at h
    split_ifs at h
    · simpa using h
    · rcases List.mem_cons.mp h with h | h
      · exact .inl h
      · exact .inr (List.mem_cons_of_mem _ h)
    · rcases List.mem_cons.mp h with h | h
      · exact .inr (h ▸ List.mem_cons_self)
      · rcases ih h with h | h
        · exact .inl h
        · exact .inr (List.mem_cons_of_mem _ h)

theorem insertDesc_sorted (x : Instance) {l : List Instance}
    (hl : l.Pairwise fun a b => b.num < a.num) :
    (insertDesc x l).Pairwise fun a b => b.num < a.num := by
  induction l with
  | nil => simp [insertDesc]
  | cons y ys ih =>
    rw [List.pairwise_cons] at hl
    unfold insertDesc
    split_ifs with hlt heq
    · refine List.pairwise_cons.mpr ⟨fun z hz => ?_, List.pairwise_cons.mpr hl⟩
      rcases List.mem_cons.mp hz with rfl | hz
      · exact hlt
      · exact lt_trans (hl.1 z hz) hlt
    · exact List.pairwise_cons.mpr ⟨fun z hz => heq ▸ hl.1 z hz, hl.2⟩
    · refine List.pairwise_cons.mpr ⟨fun z hz => ?_, ih hl.2⟩
      rcases mem_insertDesc hz with rfl | hz
      · omega
      · exact hl.1 z hz

/-- `ReplaceOrInsert`. -/
def replaceOrInsert (t : BTree) (x : Instance) : BTree :=
  ⟨insertDesc x t.items, insertDesc_sorted x t.sorted⟩

theorem find_insertDesc (x : Instance) (i : ℕ) {l : List Instance}
    (hl : l.Pairwise fun a b => b.num < a.num) :
    (insertDesc x l).find? (·.num = i) = if x.num = i then some x else l.find? (·.num = i) := by
  induction l with
  | nil => by_cases h : x.num = i <;> simp [insertDesc, h]
  | cons y ys ih =>
    rw [List.pairwise_cons] at hl
    by_cases hlt : y.num < x.num
    · -- `x` goes in front
      rw [insertDesc, if_pos hlt]
      by_cases hxi : x.num = i <;> simp [hxi]
    · by_cases heq : y.num = x.num
      · -- `x` replaces `y`, which carries the same number
        rw [insertDesc, if_neg hlt, if_pos heq]
        by_cases hxi : x.num = i
        · simp [hxi]
        · have hy : ¬y.num = i := heq ▸ hxi
          simp [hxi, hy]
      · -- `y` stays in front, numbered above `x`
        rw [insertDesc, if_neg hlt, if_neg heq]
        by_cases hyi : y.num = i
        · have hx : ¬x.num = i := by omega
          simp [hyi, hx]
        · by_cases hxi : x.num = i <;> simp [hyi, hxi, ih hl.2]

theorem get_replaceOrInsert (t : BTree) (x : Instance) (i : ℕ) :
    (t.replaceOrInsert x).get i = if x.num = i then some x else t.get i :=
  find_insertDesc x i t.sorted

theorem get_some {t : BTree} {i : ℕ} {x : Instance} (h : t.get i = some x) :
    x.num = i ∧ x ∈ t.items := by
  unfold get at h
  exact ⟨by simpa using List.find?_some h, List.mem_of_find?_eq_some h⟩

theorem mem_replaceOrInsert {t : BTree} {x z : Instance} (h : z ∈ (t.replaceOrInsert x).items) :
    z = x ∨ z ∈ t.items :=
  mem_insertDesc h

@[simp] theorem get_empty (i : ℕ) : empty.get i = none := rfl

end BTree

/-- What a storage holds for a persisted instance. -/
inductive Stored
  | live
  | copy (is : InstanceState)
  deriving DecidableEq, Repr

/-- The state a stored entry stands for, given the live state of its instance. -/
def Stored.resolve : Stored → Option InstanceState → Option InstanceState
  | .copy is, _ => some is
  | .live, state => state

theorem nodup_keys_filterMap {β : Type} (l : List (InstanceID × β)) (f : InstanceID × β → Option β)
    (h : (l.map Prod.fst).Nodup) :
    ((l.filterMap fun e => (f e).map fun b => (e.1, b)).map Prod.fst).Nodup := by
  induction l with
  | nil => exact List.nodup_nil
  | cons e l ih =>
    rw [List.map_cons, List.nodup_cons] at h
    rw [List.filterMap_cons]
    cases f e with
    | none => exact ih h.2
    | some b =>
      refine List.nodup_cons.mpr ⟨fun hmem => h.1 ?_, ih h.2⟩
      simp only [List.mem_map, List.mem_filterMap, Option.map_eq_some_iff] at hmem ⊢
      obtain ⟨_, ⟨e', he', _, _, rfl⟩, hk⟩ := hmem
      exact ⟨e', he', hk⟩

/-- A `Storage`: `MemoryStorage` when `aliasing` holds. It maps instance ids to
what was persisted for them. -/
structure Storage where
  aliasing : Bool
  hardState : Option HardState
  instances : List (InstanceID × Stored)
  keyed : (instances.map Prod.fst).Nodup

namespace Storage

/-- `NewMemoryStorage`, or an empty storage that copies. -/
def empty (aliasing : Bool) : Storage := ⟨aliasing, none, [], List.nodup_nil⟩

def persistHardState (s : Storage) (hs : HardState) : Storage :=
  { s with hardState := some hs }

theorem keyed_persistInstance (s : Storage) (k : InstanceID) (st : Stored) :
    (((k, st) :: s.instances.filter (·.1 ≠ k)).map Prod.fst).Nodup := by
  rw [List.map_cons, List.nodup_cons]
  refine ⟨fun hmem => ?_, (s.keyed.sublist ((List.filter_sublist).map Prod.fst))⟩
  obtain ⟨e, he, hk⟩ := List.mem_map.mp hmem
  exact (of_decide_eq_true (List.mem_filter.mp he).2) hk

/-- `PersistInstance`: keyed by instance id. -/
def persistInstance (s : Storage) (is : InstanceState) : Storage :=
  { s with
    instances :=
      (is.instanceID, if s.aliasing then .live else .copy is) ::
        s.instances.filter (·.1 ≠ is.instanceID)
    keyed := keyed_persistInstance s _ _ }

/-- The entries as `Instances()` reads them, given the live instance states. -/
def resolve (s : Storage) (live : InstanceID → Option InstanceState) :
    List InstanceState :=
  s.instances.filterMap fun e => e.2.resolve (live e.1)

/-- When the replica that owns the live instances stops, the pointers keep the
states the instances had then. -/
def freeze (s : Storage) (live : InstanceID → Option InstanceState) : Storage :=
  { s with
    instances := s.instances.filterMap fun e =>
      ((e.2.resolve (live e.1)).map Stored.copy).map fun st => (e.1, st)
    keyed := nodup_keys_filterMap _ _ s.keyed }

/-- What the storage holds for the instance `d`. -/
def lookup (s : Storage) (d : InstanceID) : Option Stored :=
  (s.instances.find? (·.1 = d)).map Prod.snd

end Storage

/-- The `epaxos` state machine of one replica. Each space holds only instances
of its replica. -/
structure Replica where
  id : ℕ
  nodes : List ℕ
  storage : Storage
  commands : ℕ → BTree
  spaces : ∀ r, ∀ inst ∈ (commands r).items, inst.is.instanceID.replicaID = r
  /-- The keys of `executor.vertices`. -/
  vertices : List InstanceID
  /-- The instances whose slow-path timer is in `timers`. -/
  timers : List InstanceID
  msgs : List Message
  executedCmds : List Command

namespace Replica

/-- `getInstance`. -/
def getInstance (p : Replica) (d : InstanceID) : Option Instance :=
  (p.commands d.replicaID).get d.instanceNum

theorem spaces_update (p : Replica) (inst : Instance) :
    ∀ r, ∀ z ∈ (Function.update p.commands inst.is.instanceID.replicaID
      ((p.commands inst.is.instanceID.replicaID).replaceOrInsert inst) r).items,
      z.is.instanceID.replicaID = r := by
  intro r z hz
  by_cases hr : r = inst.is.instanceID.replicaID
  · subst hr
    rw [Function.update_self] at hz
    rcases BTree.mem_replaceOrInsert hz with rfl | hz
    · rfl
    · exact p.spaces _ z hz
  · rw [Function.update_of_ne hr] at hz
    exact p.spaces r z hz

/-- Write an instance back into its space; handlers mutate instances in place. -/
def setInstance (p : Replica) (inst : Instance) : Replica :=
  { p with
    commands := Function.update p.commands inst.is.instanceID.replicaID
      ((p.commands inst.is.instanceID.replicaID).replaceOrInsert inst)
    spaces := spaces_update p inst }

/-- Apply `f` to the instance `d`, if the replica holds it. -/
def modify (p : Replica) (d : InstanceID) (f : Instance → Instance) : Replica :=
  match p.getInstance d with
  | some inst => p.setInstance (f inst)
  | none => p

/-- The live instance states, which `MemoryStorage` points to. -/
def liveState (p : Replica) (d : InstanceID) : Option InstanceState :=
  (p.getInstance d).map (·.is)

/-- `maxInstanceNum`. -/
def maxInstanceNum (p : Replica) (r : ℕ) : ℕ :=
  match (p.commands r).max with
  | some inst => inst.num
  | none => 0

/-- `hasExecuted`, the executor's history. -/
def hasExecuted (p : Replica) (d : InstanceID) : Bool :=
  match p.getInstance d with
  | some inst => decide (inst.is.status = .executed)
  | none => false

/-- `persist`: hand the instance's state to the storage. -/
def persist (p : Replica) (d : InstanceID) : Replica :=
  match p.getInstance d with
  | some inst => { p with storage := p.storage.persistInstance inst.is }
  | none => p

/-- What `Instances()` returns for the instance `d`, read through a live
pointer where the storage holds one. -/
def storedState (p : Replica) (d : InstanceID) : Option InstanceState :=
  (p.storage.lookup d).bind fun st => st.resolve (p.liveState d)

/-- `sendTo`. -/
def sendTo (p : Replica) (m : MessageType) (dest : ℕ) (d : InstanceID) : Replica :=
  { p with msgs := p.msgs ++ [⟨dest, d, m⟩] }

/-- `broadcast`: to every other node. -/
def broadcast (p : Replica) (m : MessageType) (d : InstanceID) : Replica :=
  { p with msgs := p.msgs ++ (p.nodes.filter (· ≠ p.id)).map fun n => ⟨n, d, m⟩ }

/-- `reply`: to the instance's command leader. -/
def reply (p : Replica) (m : MessageType) (d : InstanceID) : Replica :=
  p.sendTo m d.replicaID d

/-- `unregisterTimer` of an instance's slow-path timer. -/
def unregisterTimer (p : Replica) (d : InstanceID) : Replica :=
  { p.modify d (fun inst => { inst with slowPathTimer := inst.slowPathTimer.stop }) with
    timers := p.timers.filter (· ≠ d) }

/-- `registerOneTimeTimer` of an instance's slow-path timer. -/
def registerOneTimeTimer (p : Replica) (d : InstanceID) : Replica :=
  { p.modify d (fun inst => { inst with slowPathTimer := inst.slowPathTimer.reset }) with
    timers := if d ∈ p.timers then p.timers else p.timers ++ [d] }

/-- `quorum`: floor(N/2)+1. -/
def quorum (p : Replica) (val : ℕ) : Bool := decide (val > p.nodes.length / 2)

/-- `fastQuorum`. -/
def fastQuorum (p : Replica) (val : ℕ) : Bool := decide (val ≥ p.nodes.length - 1)

theorem getInstance_id {p : Replica} {d : InstanceID} {inst : Instance}
    (h : p.getInstance d = some inst) : inst.is.instanceID = d := by
  obtain ⟨hnum, hmem⟩ := BTree.get_some h
  have hr := p.spaces _ inst hmem
  cases d
  cases hid : inst.is.instanceID
  simp only [Instance.num, hid] at hnum hr
  rw [hnum, hr]

/-- An instance of the space `r` is named `⟨r, num⟩`. -/
theorem id_of_mem_items {p : Replica} {r : ℕ} {w : Instance} (hw : w ∈ (p.commands r).items) :
    w.is.instanceID = ⟨r, w.num⟩ := by
  rw [← p.spaces r w hw]
  rfl

theorem getInstance_setInstance (p : Replica) (inst : Instance) (d : InstanceID) :
    (p.setInstance inst).getInstance d =
      if inst.is.instanceID = d then some inst else p.getInstance d := by
  obtain ⟨r, i⟩ := d
  obtain ⟨⟨⟨r', i'⟩, st, c, s, ds⟩, a, b, t, e⟩ := inst
  show (Function.update p.commands r' _ r).get i = _
  by_cases hr : r = r'
  · subst hr
    rw [Function.update_self, BTree.get_replaceOrInsert]
    simp only [Instance.num, getInstance, InstanceID.mk.injEq, true_and]
    by_cases h : i' = i <;> simp [h]
  · rw [Function.update_of_ne hr]
    simp [getInstance, Ne.symm hr]

theorem getInstance_modify (p : Replica) (d e : InstanceID) (f : Instance → Instance)
    (hf : ∀ inst, (f inst).is.instanceID = inst.is.instanceID) :
    (p.modify d f).getInstance e =
      if e = d then (p.getInstance d).map f else p.getInstance e := by
  unfold modify
  cases hd : p.getInstance d with
  | none =>
    split_ifs with he
    · subst he; simp [hd]
    · rfl
  | some inst =>
    rw [getInstance_setInstance, hf, getInstance_id hd]
    by_cases he : e = d
    · subst he; simp
    · simp [he, Ne.symm he]

end Replica

end EPaxos
