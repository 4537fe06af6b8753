import ChonKV.Kv.Handlers
import ChonKV.Kv.Service
import ChonKV.Raft.ReadPersist

/-!
The servers of a cluster as a whole: each node has its `Raft` object, the `KVServer` on top of it, and the threads of
their handlers. A step is a stretch of Raft, a message that `ApplierLoop` takes, a turn of a handler, a crash or a
restart.
-/

set_option autoImplicit false

namespace ChonKV

open Function (update)

structure KvConfig where
  cap : Nat := 1024 * 1024
  maxIdleIndex : UInt64 := 100000
  maxraftstate : Int32 := -1

abbrev KvConfig.service (cfg : KvConfig) : Service (Option KVState) := kvService cfg.cap cfg.maxIdleIndex

/-- A snapshot that was encoded and is not yet passed to `Raft::Snapshot`. `inc` is the incarnation of the node whose
thread holds it. -/
structure SnapCall where
  node : Nat
  inc : Nat
  index : Int
  data : Bytes

/-- A call of `Get`. `call` is its call of `ReadIndex`, `floor` the highest commit index any node had had before, and
beside the reply stands how far the server had applied. -/
structure GetCall where
  node : Nat
  inc : Nat
  key : Bytes
  call : Nat
  floor : Int
  reply : Option (Int × GetReply) := none

inductive PutPhase where
  /-- Before the call of `Start` with this number. -/
  | proposing (tries : Nat)
  | started
  | waiting
  | returned (reply : PutAppendReply)
  deriving DecidableEq

/-- A call of `PutAppend`, and the place in the log that `Start` gave it. -/
structure PutCall where
  node : Nat
  inc : Nat
  op : Op
  floor : Int
  phase : PutPhase
  index : Int := 0
  term : Int := 0

/-- `servers` has nothing where the process ended itself. -/
structure KvCluster where
  raft : Cluster (Option KVState)
  servers : Nat → Option KVServer
  snapshots : List SnapCall := []
  gets : List GetCall := []
  puts : List PutCall := []

inductive KvEvent where
  | raft (e : Event)
  /-- One round of `ApplierLoop`. -/
  | applier (i : Nat)
  /-- `ForceSnapshotOnDiskFull` encodes the state. -/
  | force (i : Nat)
  /-- A snapshot is passed to `Raft::Snapshot`. -/
  | snapshot (t : Nat)
  | get (i : Nat) (key : Bytes) (now : Int)
  | getTurn (t : Nat) (timedOut : Bool)
  | putAppend (i : Nat) (args : PutAppendArgs)
  /-- `WaitOp` calls `Start`. -/
  | propose (t : Nat)
  | register (t : Nat)
  | waitTurn (t : Nat) (timedOut : Bool)
  /-- `Kill` sets `dead_` and kills Raft. -/
  | kill (i : Nat)
  /-- `Kill` releases the calls. -/
  | release (i : Nat)
  | restart (i : Nat) (now : Int)

/-- Events in which the server has no part. -/
def Event.isInner : Event → Bool
  | .start .. | .consume _ | .takeSnapshot .. | .kill _ | .restart .. | .read .. => false
  | _ => true

def KvEvent.isStatic : KvEvent → Bool
  | .raft e => e.isStatic
  | _ => true

namespace Server

variable {σ : Type} {svc : Service σ} {s : Server σ}

/-- `Raft::Snapshot` on what the upper layer passes to it, whatever that is. -/
def passSnapshot (s : Server σ) (index : Int) (data : Bytes) : Server σ :=
  match s.raft.snapshotCheck index with
  | none => s
  | some term => s.addTasks [.snapshotBlob index term data]

/-- The node comes up as `r`. -/
def reboot (svc : Service σ) (s : Server σ) (r : Raft) : Server σ where
  raft := r
  inc := s.inc + 1
  saved := s.saved
  states := [(r.snapshotIndex, if 0 < r.snapshotIndex then svc.load r.snapshotData else svc.init)]

theorem takeSnapshot_of_mem [DecidableEq σ] {index : Int} {data : Bytes} (h : (index, svc.load data) ∈ s.states) :
    s.takeSnapshot svc index data = s.passSnapshot index data := if_pos h

theorem restart_of_killed (h : s.raft.killed = true) (n i : Nat) (now : Int) :
    s.restart svc n i now = s.reboot svc (Raft.make n i s.saved now) := if_neg (by simp [h])

end Server

namespace KvCluster

/-- The server that a thread of an incarnation works on, if it is still there. -/
def server (k : KvCluster) (node inc : Nat) : Option KVServer :=
  if inc = (k.raft.nodes node).inc then k.servers node else none

/-- The constructor of `KVServer`, over what Raft comes up with. Either may end the process. -/
def comeUp (n : Nat) (cfg : KvConfig) (k : KvCluster) (i : Nat) (now : Int) : Option (Raft × KVServer) :=
  (Raft.makeOfFiles n i (k.raft.nodes i).saved now).bind fun r =>
    ((KVServer.fresh cfg.cap cfg.maxIdleIndex).boot r.snapshotIndex r.snapshotData).map (Prod.mk r)

/-- The event of Raft that an event stands for, if it stands for one. -/
def raftEvent (n : Nat) (cfg : KvConfig) (k : KvCluster) : KvEvent → Option Event
  | .raft e => if e.isInner then some e else none
  | .applier i =>
    match k.servers i, (k.raft.nodes i).applyCh with
    | some kv, m :: _ =>
      match kv.applierLoop m with
      | some _ => some (.consume i)
      | none => some (.kill i) -- `std::abort()`
    | _, _ => none
  | .snapshot t =>
    match k.snapshots[t]? with
    | some b => if b.inc = (k.raft.nodes b.node).inc then some (.takeSnapshot b.node b.index b.data) else none
    | none => none
  | .get i _ now => if i < n then some (.read i now) else none
  | .propose t =>
    match k.puts[t]? with
    | some ⟨node, inc, op, _, .proposing _, _, _⟩ => (k.server node inc).map fun _ => .start node op.serialize
    | _ => none
  | .kill i => some (.kill i)
  | .restart i now => (k.comeUp n cfg i now).map fun _ => .restart i now
  | _ => none

/-- Raft after an event. `KVServer` passes every snapshot on, and what it comes up with is what `ReadPersist` makes of
the files. -/
def lower (n : Nat) (cfg : KvConfig) (k : KvCluster) : KvEvent → Cluster (Option KVState)
  | .snapshot t =>
    match k.snapshots[t]? with
    | some b =>
      if b.inc = (k.raft.nodes b.node).inc then
        k.raft.on n b.node fun s => { node := s.passSnapshot b.index b.data }
      else k.raft
    | none => k.raft
  | .restart i now =>
    match k.comeUp n cfg i now with
    | some (r, _) => k.raft.on n i fun s => { node := if s.raft.killed then s.reboot cfg.service r else s }
    | none => k.raft
  | ev => (k.raftEvent n cfg ev).toList.foldl (Cluster.step n cfg.service) k.raft

/-- The servers and their threads after an event. -/
def upper (n : Nat) (cfg : KvConfig) (k : KvCluster) (c : Cluster (Option KVState)) : KvEvent → KvCluster
  | .applier i =>
    match k.servers i, (k.raft.nodes i).applyCh with
    | some kv, m :: _ =>
      let size := UInt64.ofNat (k.raft.nodes i).raft.raftStateSizeLocked
      let taken := if m.commandValid then kv.prepareSnapshot m size cfg.maxraftstate else none
      { k with
        raft := c
        servers := update k.servers i (kv.applierLoop m)
        snapshots := k.snapshots ++ taken.toList.map fun b => ⟨i, (k.raft.nodes i).inc, b.1, b.2⟩ }
    | _, _ => { k with raft := c }
  | .force i =>
    match k.servers i with
    | some kv =>
      { k with
        raft := c
        snapshots := k.snapshots ++ [⟨i, (k.raft.nodes i).inc, kv.lastCmdIndex, kv.state.encodeSnapshot⟩] }
    | none => { k with raft := c }
  | .snapshot t => { k with raft := c, snapshots := k.snapshots.eraseIdx t }
  | .get i key _ =>
    if i < n then
      { k with
        raft := c
        gets := k.gets ++ [⟨i, (k.raft.nodes i).inc, key, k.raft.calls.length, k.raft.maxCommit, none⟩] }
    else { k with raft := c }
  | .getTurn t timedOut =>
    match k.gets[t]? with
    | some g =>
      match k.server g.node g.inc, g.reply, (k.raft.calls[g.call]?).bind ReadCall.result with
      | some kv, none, some ri =>
        { k with
          raft := c
          gets := k.gets.set t { g with
            reply := (kv.getTurn (k.raft.nodes g.node).raft g.key ri timedOut).map fun r => (kv.lastCmdIndex, r) } }
      | _, _, _ => { k with raft := c }
    | none => { k with raft := c }
  | .putAppend i args =>
    match k.servers i with
    | some kv =>
      let phase := match kv.sessionGone args with
        | some reply => PutPhase.returned reply
        | none => .proposing 0
      if i < n then
        { k with
          raft := c
          puts := k.puts ++ [⟨i, (k.raft.nodes i).inc, args.toOp, k.raft.maxCommit, phase, 0, 0⟩] }
      else { k with raft := c }
    | none => { k with raft := c }
  | .propose t =>
    match k.puts[t]? with
    | some p =>
      match k.server p.node p.inc, p.phase with
      | some kv, .proposing tries =>
        let result := ((k.raft.nodes p.node).raft.start p.op.serialize).2.1
        let p' := match kv.afterStart (c.nodes p.node).raft tries result with
          | .again => { p with phase := .proposing (tries + 1) }
          | .ret reply => { p with phase := .returned reply }
          | .wait index term => { p with phase := .started, index := index, term := term }
        { k with raft := c, puts := k.puts.set t p' }
      | _, _ => { k with raft := c }
    | none => { k with raft := c }
  | .register t =>
    match k.puts[t]? with
    | some p =>
      match k.server p.node p.inc, p.phase with
      | some kv, .started =>
        let replies := kv.setReply p.index (some ⟨false, false, p.op.clientId, p.op.seqId⟩)
        { k with
          raft := c
          servers := update k.servers p.node (some { kv with msgReplies := replies })
          puts := k.puts.set t { p with phase := .waiting } }
      | _, _ => { k with raft := c }
    | none => { k with raft := c }
  | .waitTurn t timedOut =>
    match k.puts[t]? with
    | some p =>
      match k.server p.node p.inc, p.phase with
      | some kv, .waiting =>
        match kv.waitTurn (k.raft.nodes p.node).raft p.index timedOut with
        | some reply =>
          { k with
            raft := c
            servers := update k.servers p.node (some { kv with msgReplies := kv.setReply p.index none })
            puts := k.puts.set t { p with phase := .returned reply } }
        | none => { k with raft := c }
      | _, _ => { k with raft := c }
    | none => { k with raft := c }
  | .kill i =>
    { k with raft := c, servers := update k.servers i ((k.servers i).map fun kv => { kv with dead := true }) }
  | .release i =>
    let release (kv : KVServer) : KVServer :=
      if kv.dead then { kv with msgReplies := fun x => (kv.msgReplies x).map fun m => { m with done := true, ok := false } }
      else kv
    { k with raft := c, servers := update k.servers i ((k.servers i).map release) }
  | .restart i now =>
    if (k.raft.nodes i).raft.killed ∧ i < n then
      { k with raft := c, servers := update k.servers i ((k.comeUp n cfg i now).map Prod.snd) }
    else { k with raft := c }
  | .raft _ => { k with raft := c }

def step (n : Nat) (cfg : KvConfig) (k : KvCluster) (ev : KvEvent) : KvCluster :=
  k.upper n cfg (k.lower n cfg ev) ev

def init (n : Nat) (cfg : KvConfig) : KvCluster where
  raft := .init n cfg.service
  servers _ := some (.fresh cfg.cap cfg.maxIdleIndex)

def run (n : Nat) (cfg : KvConfig) (evs : List KvEvent) : KvCluster := evs.foldl (step n cfg) (init n cfg)

/-- An event is one of Raft, or none. -/
def OfRaft (n : Nat) (cfg : KvConfig) (k : KvCluster) (ev : KvEvent) : Prop :=
  k.lower n cfg ev = (k.raftEvent n cfg ev).toList.foldl (Cluster.step n cfg.service) k.raft

/-- The stores fit the count of a snapshot. -/
def StoresFit (n : Nat) (k : KvCluster) : Prop := ∀ i < n, ∀ kv ∈ k.servers i, StoreFits kv.state

/-- A node that comes up finds files that fit. -/
def DiskFits (n : Nat) (k : KvCluster) : KvEvent → Prop
  | .restart i _ => i < n → (k.raft.nodes i).raft.killed = true → (k.raft.nodes i).saved.Fits
  | _ => True

/-- Nothing outgrows the counts of the files in a run from `k`. -/
def Sized (n : Nat) (cfg : KvConfig) (k : KvCluster) : List KvEvent → Prop
  | [] => k.StoresFit n
  | ev :: evs => k.StoresFit n ∧ k.DiskFits n ev ∧ (k.step n cfg ev).Sized n cfg evs

instance (n : Nat) (k : KvCluster) : Decidable (k.StoresFit n) := inferInstanceAs (Decidable (∀ i < n, _))

instance (n : Nat) (k : KvCluster) : (ev : KvEvent) → Decidable (k.DiskFits n ev)
  | .restart i _ => inferInstanceAs (Decidable (i < n → _ = true → _))
  | .raft _ | .applier _ | .force _ | .snapshot _ | .get .. | .getTurn .. | .putAppend .. | .propose _ | .register _
  | .waitTurn .. | .kill _ | .release _ => .isTrue trivial

instance Sized.instDecidable (n : Nat) (cfg : KvConfig) : (k : KvCluster) → (evs : List KvEvent) →
    Decidable (k.Sized n cfg evs)
  | k, [] => inferInstanceAs (Decidable (k.StoresFit n))
  | k, ev :: evs => @instDecidableAnd _ _ _ (@instDecidableAnd _ _ _ (instDecidable n cfg (k.step n cfg ev) evs))

variable {n : Nat} {cfg : KvConfig} {k : KvCluster}

@[simp] theorem raft_upper (c : Cluster (Option KVState)) (ev : KvEvent) : (k.upper n cfg c ev).raft = c := by
  cases ev with
  | getTurn t timedOut =>
    dsimp only [upper]
    split
    · split <;> rfl
    · rfl
  | waitTurn t timedOut =>
    dsimp only [upper]
    split
    · split
      · split <;> rfl
      · rfl
    · rfl
  | propose t | register t =>
    dsimp only [upper]
    split
    · split <;> rfl
    · rfl
  | putAppend i args =>
    dsimp only [upper]
    split
    · split_ifs <;> rfl
    · rfl
  | applier i | force i | get i key now | restart i now =>
    dsimp only [upper]
    split <;> rfl
  | _ => rfl

theorem server_some {node inc : Nat} {kv : KVServer} (h : k.server node inc = some kv) :
    inc = (k.raft.nodes node).inc ∧ k.servers node = some kv := by
  rw [server] at h
  split_ifs at h with hinc
  exact ⟨hinc, h⟩

theorem raft_step (ev : KvEvent) : (k.step n cfg ev).raft = k.lower n cfg ev := raft_upper _ _

/-- Where an event of Raft comes from. -/
theorem raftEvent_some {ev : KvEvent} {e : Event} (h : k.raftEvent n cfg ev = some e) :
    ev = .raft e ∨ (e.isInner = false ∧ e.isStatic = true) := by
  cases ev with
  | raft e' =>
    dsimp only [raftEvent] at h
    split_ifs at h
    cases h
    exact .inl rfl
  | applier i =>
    dsimp only [raftEvent] at h
    split at h
    · split at h <;> cases h <;> exact .inr ⟨rfl, rfl⟩
    · cases h
  | snapshot t =>
    dsimp only [raftEvent] at h
    split at h
    · split_ifs at h
      cases h
      exact .inr ⟨rfl, rfl⟩
    · cases h
  | get i key now =>
    dsimp only [raftEvent] at h
    split_ifs at h
    cases h
    exact .inr ⟨rfl, rfl⟩
  | propose t =>
    dsimp only [raftEvent] at h
    split at h
    · obtain ⟨kv, -, rfl⟩ := Option.map_eq_some_iff.mp h
      exact .inr ⟨rfl, rfl⟩
    · cases h
  | kill i =>
    cases h
    exact .inr ⟨rfl, rfl⟩
  | restart i now =>
    obtain ⟨kv, -, rfl⟩ := Option.map_eq_some_iff.mp h
    exact .inr ⟨rfl, rfl⟩
  | _ => cases h

theorem static_raftEvent {ev : KvEvent} (h : ev.isStatic = true) {e : Event} (he : k.raftEvent n cfg ev = some e) :
    e.isStatic = true := by
  rcases raftEvent_some he with rfl | ⟨-, hstatic⟩
  · exact h
  · exact hstatic

theorem raftEvent_deliver {ev : KvEvent} {m : Nat} {now : Int} (h : k.raftEvent n cfg ev = some (.deliver m now)) :
    ev = .raft (.deliver m now) :=
  (raftEvent_some h).resolve_right fun hinner => Bool.noConfusion hinner.1

end KvCluster
end ChonKV
