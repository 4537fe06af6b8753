import ChonKV.Raft.Apply

/-!
A cluster of `n` nodes over a network that loses, duplicates, delays and reorders. A step runs one
stretch of one thread of one node: a timer, a handler, a callback, a stretch that a thread left
behind when it released the lock, the applier, the upper layer, a crash or a restart. Packets and
answers stay in the network, so that each may arrive any number of times, or never.
-/

set_option autoImplicit false

namespace ChonKV

open Function (update)

/-- The upper layer of a node: a state machine that is also rebuilt from a snapshot. -/
structure Service (σ : Type) where
  init : σ
  apply : σ → ApplyMsg → σ
  load : Bytes → σ

inductive Rpc where
  | vote (args : RequestVoteArgs)
  | preVote (args : RequestPreVoteArgs)
  | append (args : AppendEntriesArgs)
  /-- A heartbeat of `BroadcastReadHeartbeat`, with a callback of its own. -/
  | readBeat (args : AppendEntriesArgs)
  | install (args : InstallSnapshotArgs)
  | readIndex (args : ReadIndexArgs) (token : Nat)
  deriving DecidableEq, Repr

/-- `inc` is the incarnation of the sender, whose callback takes the answer. -/
structure Packet where
  src : Nat
  inc : Nat
  dst : Nat
  rpc : Rpc
  deriving DecidableEq, Repr

inductive RpcReply where
  | vote (reply : RequestVoteReply)
  | preVote (reply : RequestPreVoteReply)
  | append (reply : AppendEntriesReply)
  | install (reply : InstallSnapshotReply)
  | readIndex (reply : ReadIndexReply)
  deriving DecidableEq, Repr

structure Answer where
  packet : Packet
  reply : RpcReply
  deriving DecidableEq, Repr

/-- Who waits for a call of `ReadIndex`: a client, or the handler of a forwarded call. -/
inductive Reader where
  | client (call : Nat)
  | server (packet : Packet) (term : Int)
  deriving DecidableEq, Repr

/-- What a thread does when it takes the lock again. -/
inductive Task where
  | startRealElection
  | sendRequestVotes
  | commitSynced
  | installBlob (packet : Packet) (args : InstallSnapshotArgs) (blob : Bytes)
  | installCommit (packet : Packet) (args : InstallSnapshotArgs) (blob : Bytes)
  | snapshotBlob (index term : Int) (data : Bytes)
  | snapshotCommit (index term : Int) (data : Bytes)
  | readOpen (k : Reader)
  | readBroadcast (k : Reader) (ctx : Nat) (term readIndex : Int) (s : Nat)
  | readWait (k : Reader) (ctx : Nat) (term readIndex deadline : Int)
  | readForwarded (k : Reader) (token : Nat)
  deriving DecidableEq, Repr

/-- A node: the `Raft` object, the threads under way, the apply channel and the upper layer with all
the states it went through. `saved` is the copy of the disk that the crash kept. -/
structure Server (σ : Type) where
  raft : Raft
  inc : Nat := 0
  saved : Disk := {}
  tasks : List Task := []
  applyCh : List ApplyMsg := []
  states : List (Int × σ)

/-- A call of `ReadIndex` by a client. `floor` is the highest commit index any node had had before. -/
structure ReadCall where
  node : Nat
  floor : Int
  result : Option Int := none
  deriving DecidableEq, Repr

/-- The nodes, the network, and what the run has shown so far. -/
structure Cluster (σ : Type) where
  nodes : Nat → Server σ
  packets : List Packet := []
  answers : List Answer := []
  dispatched : List (Nat × LogEntry) := []
  installed : List (Nat × ApplyMsg) := []
  started : List (Nat × StartResult) := []
  calls : List ReadCall := []
  maxCommit : Int := 0

/-- What a stretch of a thread leaves behind. -/
structure Effect (σ : Type) where
  node : Server σ
  packets : List Packet := []
  answers : List Answer := []
  dispatched : List LogEntry := []
  installed : List ApplyMsg := []
  started : List StartResult := []
  finished : List (Nat × Int) := []

namespace Server

variable {σ : Type}

def lastCmd (s : Server σ) : Int := (s.states.getLast?.map Prod.fst).getD 0

def packetTo (s : Server σ) (rpc : Rpc) (dst : Nat) : Packet :=
  { src := s.raft.me, inc := s.inc, dst := dst, rpc := rpc }

def addTasks (s : Server σ) (ts : List Task) : Server σ := { s with tasks := s.tasks ++ ts }

/-- The stretch after `Sync(true)` is only there when the commit index moved. -/
def syncTask (committed : Bool) : List Task := if committed then [.commitSynced] else []

def finishStart (s : Server σ) (st : Raft × Raft.ElectionStart) : Effect σ :=
  match st.2 with
  | .none => { node := { s with raft := st.1 } }
  | .selfOnly => { node := { s with raft := st.1 }.addTasks [.startRealElection] }
  | .prevote args targets =>
    { node := { s with raft := st.1 }, packets := targets.map (s.packetTo (.preVote args)) }

def electionTimeout (s : Server σ) (now : Int) : Effect σ :=
  s.finishStart (s.raft.electionTimeout now)

def leaderTick (s : Server σ) (now : Int) : Effect σ :=
  { node := { s with raft := s.raft.leaderTick now } }

/-- A reader gets its result. -/
def finishRead (s : Server σ) (k : Reader) (result : Int) : Effect σ :=
  match k with
  | .client call => { node := s, finished := [(call, result)] }
  | .server p term =>
    { node := s
      answers := [⟨p, .readIndex { term := term, readIndex := if 0 ≤ result then result else -1 }⟩] }

/-- The first stretch of `ReadIndex`. -/
def openRead (s : Server σ) (k : Reader) (fresh : Nat) (now : Int) : Effect σ :=
  let (r, o) := s.raft.readIndexOpen now
  let s := { s with raft := r }
  match o with
  | .forward lid args =>
    { node := s.addTasks [.readForwarded k fresh]
      packets := [s.packetTo (.readIndex args fresh) lid] }
  | .ret result => s.finishRead k result
  | .wait ctx term readIndex starter =>
    { node := s.addTasks [if starter then .readBroadcast k ctx term readIndex 0
        else .readWait k ctx term readIndex (now + kElectionTimeoutMin)] }

/-- One stretch of a thread that has released the lock before. -/
def runTask (s : Server σ) (fresh : Nat) (now : Int) : Task → Effect σ
  | .startRealElection =>
    let (r, stood) := s.raft.startRealElection now
    { node := { s with raft := r }.addTasks (if stood then [.sendRequestVotes] else []) }
  | .sendRequestVotes =>
    match s.raft.sendRequestVoteRPCs with
    | none => { node := s }
    | some (args, targets) => { node := s, packets := targets.map (s.packetTo (.vote args)) }
  | .commitSynced => { node := { s with raft := s.raft.commitSynced } }
  | .installBlob p args blob =>
    { node := { s with
        raft := s.raft.saveSnapshotBlob args.lastIncludedIndex args.lastIncludedTerm blob
      }.addTasks [.installCommit p args blob] }
  | .installCommit p args blob =>
    let (r, reply) := s.raft.installCommit args blob
    { node := { s with raft := r }, answers := [⟨p, .install reply⟩] }
  | .snapshotBlob index term data =>
    { node := { s with raft := s.raft.saveSnapshotBlob index term data
      }.addTasks [.snapshotCommit index term data] }
  | .snapshotCommit index term data =>
    let (r, cut) := s.raft.snapshotCommit index term data
    { node := { s with raft := if cut then r.truncateStore index else r } }
  | .readOpen k => s.openRead k fresh now
  | .readBroadcast k ctx term readIndex t =>
    if t < s.raft.peers then
      match s.raft.readHeartbeat ctx t with
      | .stop => { node := s.addTasks [.readWait k ctx term readIndex (now + kElectionTimeoutMin)] }
      | .skip => { node := s.addTasks [.readBroadcast k ctx term readIndex (t+1)] }
      | .send args =>
        { node := s.addTasks [.readBroadcast k ctx term readIndex (t+1)]
          packets := if s.raft.killed then [] else [s.packetTo (.readBeat args) t] }
    else { node := s.addTasks [.readWait k ctx term readIndex (now + kElectionTimeoutMin)] }
  | .readWait k ctx term readIndex deadline =>
    let (r, result) := s.raft.readIndexPoll ctx term readIndex deadline now
    match result with
    | none => { node := { s with raft := r }.addTasks [.readWait k ctx term readIndex deadline] }
    | some result => { s with raft := r }.finishRead k result
  | .readForwarded k token => { node := s.addTasks [.readForwarded k token] }

/-- The handler of a request. -/
def deliver (s : Server σ) (p : Packet) (now : Int) : Effect σ :=
  match p.rpc with
  | .vote args =>
    let (r, reply) := s.raft.requestVote args now
    { node := { s with raft := r }, answers := [⟨p, .vote reply⟩] }
  | .preVote args => { node := s, answers := [⟨p, .preVote (s.raft.requestPreVote args)⟩] }
  | .append args | .readBeat args =>
    let (r, reply) := s.raft.appendEntries args now
    { node := { s with raft := r }, answers := [⟨p, .append reply⟩] }
  | .install args =>
    let (r, reply, blob) := s.raft.installSnapshot args now
    match blob with
    | none => { node := { s with raft := r }, answers := [⟨p, .install reply⟩] }
    | some blob => { node := { s with raft := r }.addTasks [.installBlob p args blob] }
  | .readIndex args _ =>
    let (reply, serve) := s.raft.readIndexRPC args
    if serve then { node := s.addTasks [.readOpen (.server p reply.term)] }
    else { node := s, answers := [⟨p, .readIndex reply⟩] }

/-- The thread that waits for a forwarded read. -/
def awaiting (s : Server σ) (token : Nat) : Option Reader :=
  s.tasks.findSome? fun t => match t with
    | .readForwarded k tok => if tok = token then some k else none
    | _ => none

def endForward (s : Server σ) (token : Nat) (ok : Bool) (reply : ReadIndexReply) : Effect σ :=
  match s.awaiting token with
  | none => { node := s }
  | some k =>
    { s with tasks := s.tasks.erase (.readForwarded k token) }.finishRead k
      (s.raft.readIndexForwarded ok reply)

/-- The callback of an answer; the callback of an earlier incarnation finds itself killed. -/
def answer (s : Server σ) (p : Packet) (reply : RpcReply) (now : Int) : Effect σ :=
  if p.inc ≠ s.inc then { node := s }
  else match p.rpc, reply with
  | .vote args, .vote reply => { node := { s with raft := s.raft.voteReply args p.dst reply now } }
  | .preVote args, .preVote reply =>
    let (r, go) := s.raft.prevoteReply args p.dst reply now
    { node := { s with raft := r }.addTasks (if go then [.startRealElection] else []) }
  | .append args, .append reply =>
    let (r, committed) := s.raft.appendReply args p.dst true reply now
    { node := { s with raft := r }.addTasks (syncTask committed) }
  | .readBeat args, .append reply =>
    { node := { s with raft := s.raft.readHeartbeatReply args p.dst reply now } }
  | .install args, .install reply =>
    { node := { s with raft := s.raft.snapshotReply args p.dst true reply now } }
  | .readIndex _ token, .readIndex reply => s.endForward token true reply
  | _, _ => { node := s }

/-- The callback of a request that got no answer. -/
def fail (s : Server σ) (p : Packet) (now : Int) : Effect σ :=
  if p.inc ≠ s.inc then { node := s }
  else match p.rpc with
  | .append args => { node := { s with raft := (s.raft.appendReply args p.dst false {} now).1 } }
  | .install args => { node := { s with raft := s.raft.snapshotReply args p.dst false {} now } }
  | .readIndex _ token => s.endForward token false {}
  | _ => { node := s }

def replicate (s : Server σ) (dst : Nat) (now : Int) : Effect σ :=
  let (r, send) := s.raft.replicate dst now
  let s := { s with raft := r }
  match send with
  | .none => { node := s }
  | .append args => { node := s, packets := [s.packetTo (.append args) dst] }
  | .snapshot chunks =>
    { node := s, packets := chunks.map fun c => s.packetTo (.install c) dst }

def start (s : Server σ) (command : Command) : Effect σ :=
  let (r, result, committed) := s.raft.start command
  { node := { s with raft := r }.addTasks (syncTask committed), started := [result] }

def proposeConf (s : Server σ) (server : Int) (target : MemberRole) : Effect σ :=
  let (r, result, committed) := s.raft.proposeConfChangeTo server target
  { node := { s with raft := r }.addTasks (syncTask committed), started := [result] }

/-- The applier pushes a batch; the history keeps the log entries behind the messages. -/
def applyLoop (s : Server σ) (now : Int) : Effect σ :=
  let (r, batch) := s.raft.applyLoop now
  { node := { s with raft := r, applyCh := s.applyCh ++ batch }
    dispatched := (batch.filter ApplyMsg.commandValid).map fun m => s.raft.logAt m.commandIndex
    installed := batch.filter ApplyMsg.snapshotValid }

/-- The upper layer takes one message. -/
def consume (svc : Service σ) (s : Server σ) : Server σ :=
  match s.applyCh with
  | [] => s
  | m :: rest =>
    let state := (s.states.getLast?.map Prod.snd).getD svc.init
    let next := if m.commandValid then (m.commandIndex, svc.apply state m)
      else (m.snapshotIndex, svc.load m.snapshot)
    { s with applyCh := rest, states := s.states ++ [next] }

/-- The upper layer passes a snapshot of a state it went through to `Raft::Snapshot`. -/
def takeSnapshot [DecidableEq σ] (svc : Service σ) (s : Server σ) (index : Int) (data : Bytes) :
    Server σ :=
  if (index, svc.load data) ∈ s.states then
    match s.raft.snapshotCheck index with
    | none => s
    | some term => s.addTasks [.snapshotBlob index term data]
  else s

/-- The disk is copied and `killed_` set. -/
def kill (s : Server σ) : Server σ :=
  if s.raft.killed then s
  else { s with
    saved :=
      { persister := s.raft.persister
        segFile := match s.raft.logStore with
          | .segment seg => seg.file
          | .memory => [] }
    raft := { s.raft with killed := true } }

/-- A new object comes up from the copy, and the upper layer from the snapshot it finds. -/
def restart (svc : Service σ) (n i : Nat) (s : Server σ) (now : Int) : Server σ :=
  if ¬ s.raft.killed then s
  else
    let r := Raft.make n i s.saved now
    { raft := r
      inc := s.inc + 1
      saved := s.saved
      states := [(r.snapshotIndex, if 0 < r.snapshotIndex then svc.load r.snapshotData else svc.init)] }

end Server

inductive Event where
  | electionTimeout (i : Nat) (now : Int)
  | leaderTick (i : Nat) (now : Int)
  | runTask (i k : Nat) (now : Int)
  | deliver (k : Nat) (now : Int)
  | answer (k : Nat) (now : Int)
  | fail (k : Nat) (now : Int)
  | replicate (i s : Nat) (now : Int)
  | start (i : Nat) (command : Command)
  | proposeConf (i : Nat) (server : Int) (target : MemberRole)
  | applyLoop (i : Nat) (now : Int)
  | consume (i : Nat)
  | takeSnapshot (i : Nat) (index : Int) (data : Bytes)
  | kill (i : Nat)
  | restart (i : Nat) (now : Int)
  | read (i : Nat) (now : Int)
  | setLimits (i : Nat) (maxUncommitted : Int) (maxStateBytes : Nat)
  deriving DecidableEq, Repr

namespace Cluster

variable {σ : Type}

def setResult (calls : List ReadCall) (f : Nat × Int) : List ReadCall :=
  calls.modify f.1 fun c => { c with result := some f.2 }

/-- Node `i` leaves `e` behind. What the handlers of a deleted server return is not passed on. -/
def put (c : Cluster σ) (i : Nat) (e : Effect σ) : Cluster σ where
  nodes := update c.nodes i e.node
  packets := c.packets ++ e.packets
  answers := c.answers ++ if e.node.raft.killed then [] else e.answers
  dispatched := c.dispatched ++ e.dispatched.map (Prod.mk i)
  installed := c.installed ++ e.installed.map (Prod.mk i)
  started := c.started ++ e.started.map (Prod.mk i)
  calls := e.finished.foldl setResult c.calls
  maxCommit := max c.maxCommit e.node.raft.commitIndex

/-- One stretch of node `i`, if there is such a node. -/
def on (c : Cluster σ) (n i : Nat) (f : Server σ → Effect σ) : Cluster σ :=
  if i < n then c.put i (f (c.nodes i)) else c

variable [DecidableEq σ]

def step (n : Nat) (svc : Service σ) (c : Cluster σ) : Event → Cluster σ
  | .electionTimeout i now => c.on n i (·.electionTimeout now)
  | .leaderTick i now => c.on n i (·.leaderTick now)
  | .runTask i k now => c.on n i fun s =>
    match s.tasks[k]? with
    | none => { node := s }
    | some t => { s with tasks := s.tasks.eraseIdx k }.runTask c.packets.length now t
  | .deliver k now =>
    match c.packets[k]? with
    | none => c
    | some p => c.on n p.dst (·.deliver p now)
  | .answer k now =>
    match c.answers[k]? with
    | none => c
    | some a => c.on n a.packet.src (·.answer a.packet a.reply now)
  | .fail k now =>
    match c.packets[k]? with
    | none => c
    | some p => c.on n p.src (·.fail p now)
  | .replicate i s now => if s = i ∨ n ≤ s then c else c.on n i (·.replicate s now)
  | .start i command => c.on n i (·.start command)
  | .proposeConf i server target => c.on n i (·.proposeConf server target)
  | .applyLoop i now => c.on n i (·.applyLoop now)
  | .consume i => c.on n i fun s => { node := s.consume svc }
  | .takeSnapshot i index data => c.on n i fun s => { node := s.takeSnapshot svc index data }
  | .kill i => c.on n i fun s => { node := s.kill }
  | .restart i now => c.on n i fun s => { node := s.restart svc n i now }
  | .read i now =>
    let d : Cluster σ := { c with calls := c.calls ++ [{ node := i, floor := c.maxCommit }] }
    d.on n i (·.openRead (.client c.calls.length) c.packets.length now)
  | .setLimits i m b => c.on n i fun s =>
    let r := { s.raft with maxUncommittedEntries := m, maxRaftStateBytes := b }
    { node := { s with raft := r } }

/-- All nodes come up with empty disks. -/
def init (n : Nat) (svc : Service σ) : Cluster σ where
  nodes i := { raft := Raft.make n i {} 0, states := [(0, svc.init)] }

def run (n : Nat) (svc : Service σ) (evs : List Event) : Cluster σ :=
  evs.foldl (step n svc) (init n svc)

theorem run_append (n : Nat) (svc : Service σ) (evs evs' : List Event) :
    run n svc (evs ++ evs') = evs'.foldl (step n svc) (run n svc evs) := by
  simp [run]

end Cluster

/-- Events of a run with a static membership. -/
def Event.isStatic : Event → Bool
  | .proposeConf .. => false
  | _ => true

end ChonKV
