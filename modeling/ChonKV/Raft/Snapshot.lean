import ChonKV.Raft.Replication

/-!
Snapshots: `SaveSnapshotBlob`, `Raft::Snapshot`, `InstallSnapshot` in its three phases, the callback
of a chunk, and the restart from a persister.
-/

set_option autoImplicit false

namespace ChonKV

/-- A buffer grows with zeros to hold `data` at `off`, and `data` is written there. -/
def writeAt (buf : Bytes) (off : Nat) (data : Bytes) : Bytes :=
  let buf := if buf.length < off + data.length then
    buf ++ List.replicate (off + data.length - buf.length) 0 else buf
  buf.take off ++ data ++ buf.drop (off + data.length)

/-- The log with `(term, index)` as its new sentinel. -/
def cutLogs (logs : List LogEntry) (pos : Nat) (term index : Int) : List LogEntry :=
  sentinel term index :: logs.drop (pos+1)

namespace Raft

/-- The blob is written outside `mu_`, never over a later one. -/
def saveSnapshotBlob (r : Raft) (index term : Int) (raw : Bytes) : Raft :=
  if index ≤ r.savedBlobIndex then r
  else { r with
    persister := r.persister.saveSnapshotOnly { index := index, term := term, raw := raw }
    savedBlobIndex := index }

/-- Phase 0 of `Raft::Snapshot`: the term of the entry at `index`, if the snapshot is worth taking. -/
def snapshotCheck (r : Raft) (index : Int) : Option Int :=
  if r.commitIndex < index ∨ index ≤ r.snapshotIndex ∨ ¬ r.inLogs index then none
  else some (r.logAt index).term

/-- Phase 2 of `Raft::Snapshot` up to the end of its `PersistLocked`; the flag says that it cut. -/
def snapshotCommit (r : Raft) (index snapTerm : Int) (data : Bytes) : Raft × Bool :=
  if (r.snapshotCheck index).isNone then (r, false)
  else
    (persistLocked { r with
      logs := cutLogs r.logs (index - r.snapshotIndex).toNat snapTerm index
      snapshotIndex := index
      snapshotTerm := snapTerm
      snapshotData := data
      snapCrc := 0
      snapCrcIndex := -1
      logStore := r.logStore.dropPrefix index }, true)

/-- The segment file is rewritten after the state is saved. -/
def truncateStore (r : Raft) (index : Int) : Raft :=
  { r with logStore := r.logStore.truncatePrefix index }

def resetRecv (r : Raft) : Raft :=
  { r with recvSnapBuf := [], recvSnapIndex := -1, recvSnapLastTerm := -1, recvSnapEpoch := -1 }

/-- The reassembly buffer as it stands for this chunk; `none` for a chunk that is ignored. -/
def openBuffer (r : Raft) (args : InstallSnapshotArgs) : Option Raft :=
  if r.recvSnapIndex ≠ args.lastIncludedIndex ∨ r.recvSnapLastTerm ≠ args.lastIncludedTerm then
    if r.recvSnapIndex < 0 ∨ r.recvSnapIndex < args.lastIncludedIndex ∨
        (args.lastIncludedIndex = r.recvSnapIndex ∧ r.recvSnapLastTerm < args.lastIncludedTerm) then
      some { r with
        recvSnapBuf := []
        recvSnapIndex := args.lastIncludedIndex
        recvSnapLastTerm := args.lastIncludedTerm
        recvSnapEpoch := args.epoch }
    else none
  else if args.offset = 0 then some { r with recvSnapBuf := [], recvSnapEpoch := args.epoch }
  else if args.epoch = r.recvSnapEpoch then some r
  else if r.recvSnapEpoch < args.epoch then
    some { r with recvSnapBuf := [], recvSnapEpoch := args.epoch }
  else none

/-- The chunk is written to the buffer; the last one yields the blob if length and checksum fit. -/
def addChunk (r : Raft) (args : InstallSnapshotArgs) : Raft × Option Bytes :=
  let off := args.offset.toNat
  if args.offset < 0 ∨ kSnapshotChunkSize < args.data.length ∨
      kMaxRecvSnapBuf < off + args.data.length then (r.resetRecv, none)
  else
    let buf := writeAt r.recvSnapBuf off args.data
    if ¬ args.done then ({ r with recvSnapBuf := buf }, none)
    else if buf.length = off + args.data.length ∧ crc32 buf = args.crc then (r.resetRecv, some buf)
    else (r.resetRecv, none)

/-- `InstallSnapshot` from `last_heartbeat_` to the end of phase 0. -/
def installReceive (r : Raft) (args : InstallSnapshotArgs) (reply : InstallSnapshotReply)
    (now : Int) : Raft × InstallSnapshotReply × Option Bytes :=
  let r := { r with lastHeartbeat := now, leaderId := args.leaderId }
  if args.lastIncludedIndex ≤ r.lastApplied then (r, { reply with okInstall := true }, none)
  else match r.openBuffer args with
    | none => (r, { reply with okInstall := false }, none)
    | some r =>
      let (r, blob) := r.addChunk args
      (r, { reply with okInstall := false }, blob)

/-- Phase 0 of `InstallSnapshot`. -/
def installSnapshot (r : Raft) (args : InstallSnapshotArgs) (now : Int) :
    Raft × InstallSnapshotReply × Option Bytes :=
  let reply : InstallSnapshotReply := { term := r.currentTerm }
  if args.term < r.currentTerm then (r, reply, none)
  else if r.currentTerm < args.term then
    let r := r.convertToFollowerLocked args.term
    r.installReceive args { reply with term := r.currentTerm } now
  else r.installReceive args reply now

/-- Phase 2 refuses a stale leader and a snapshot that is applied already. -/
def installStale (r : Raft) (args : InstallSnapshotArgs) : Bool :=
  decide (args.term < r.currentTerm) || decide (args.lastIncludedIndex ≤ r.lastApplied)

/-- Phase 2 up to the members: the gate closes, the snapshot takes its place. -/
def installBegin (r : Raft) (args : InstallSnapshotArgs) (blob : Bytes) : Raft :=
  { r with
    installGateDepth := r.installGateDepth + 1
    snapshotIndex := args.lastIncludedIndex
    snapshotTerm := args.lastIncludedTerm
    snapshotData := blob
    snapCrc := 0
    snapCrcIndex := -1
    isMember := if args.members.length = r.peers then args.members.map MemberRole.ofInt
      else r.isMember }

/-- A leader that the shipped members do not list as a voter steps down. -/
def installDeposed (r : Raft) (args : InstallSnapshotArgs) : Bool :=
  decide (args.members.length = r.peers) && !r.voter r.me && decide (r.state = .kLeader)

/-- `last_included_index - old_snap_index`, as a `size_t`: a negative one is past the log. -/
def installPos (r : Raft) (args : InstallSnapshotArgs) (oldSnapIndex : Int) : Nat :=
  if args.lastIncludedIndex < oldSnapIndex then r.logs.length
  else (args.lastIncludedIndex - oldSnapIndex).toNat

theorem installPos_of_le {r : Raft} {args : InstallSnapshotArgs} {old : Int}
    (h : old ≤ args.lastIncludedIndex) :
    r.installPos args old = (args.lastIncludedIndex - old).toNat :=
  if_neg (not_lt.mpr h)

/-- Phase 2 from the logs to the end of its `PersistLocked`. -/
def installLogs (r : Raft) (args : InstallSnapshotArgs) (oldSnapIndex : Int) : Raft :=
  let pos := r.installPos args oldSnapIndex
  persistLocked { r with
    logs := cutLogs r.logs pos args.lastIncludedTerm args.lastIncludedIndex
    commitIndex := max r.commitIndex args.lastIncludedIndex
    lastApplied := max r.lastApplied args.lastIncludedIndex
    logStore := r.logStore.dropPrefix
      (if pos < r.logs.length then args.lastIncludedIndex - 1 else args.lastIncludedIndex) }

def snapshotMsg (args : InstallSnapshotArgs) (blob : Bytes) : ApplyMsg :=
  { snapshotValid := true, snapshot := blob, snapshotTerm := args.lastIncludedTerm
    snapshotIndex := args.lastIncludedIndex }

/-- The end of phase 2: the message is left for the applier, the gate opens. -/
def installFinish (r : Raft) (msg : ApplyMsg) (keep : Bool) : Raft :=
  { r with
    logStore := r.logStore.truncatePrefix (if keep then msg.snapshotIndex - 1 else msg.snapshotIndex)
    pendingSnapshot :=
      if (r.pendingSnapshot.map fun p => decide (p.snapshotIndex < msg.snapshotIndex)).getD true then
        some msg else r.pendingSnapshot
    installGateDepth := r.installGateDepth - 1 }

/-- Phase 2 of `InstallSnapshot`, where no wait releases the lock. -/
def installCommit (r : Raft) (args : InstallSnapshotArgs) (blob : Bytes) :
    Raft × InstallSnapshotReply :=
  if r.installStale args then (r, { term := r.currentTerm })
  else
    let reply : InstallSnapshotReply := { term := r.currentTerm, okInstall := true }
    let old := r.snapshotIndex
    let r := r.installBegin args blob
    let r := if r.installDeposed args then r.convertToFollowerLocked r.currentTerm else r
    let keep := decide (r.installPos args old < r.logs.length)
    let r := r.installLogs args old
    (r.installFinish (snapshotMsg args blob) keep, reply)

/-- The callback of one chunk. -/
def snapshotReply (r : Raft) (args : InstallSnapshotArgs) (s : Nat) (ok : Bool)
    (reply : InstallSnapshotReply) (now : Int) : Raft :=
  if r.killed then r
  else
    let r := r.noteReached s ok
    let replyTerm := if ok then reply.term else 0
    if r.currentTerm < replyTerm then
      let r := r.stepDownTo replyTerm now
      { r with snapInFlight := r.snapInFlight.set s false }
    else if args.term ≠ r.currentTerm ∨ r.state ≠ .kLeader then
      if args.epoch = r.snapEpoch.getD s 0 then
        { r with snapInFlight := r.snapInFlight.set s false } else r
    else if ¬ args.done then r
    else
      let r := if ok ∧ reply.okInstall then
        { r with
          matchIndex := r.matchIndex.set s (max (r.matchIndex.getD s 0) args.lastIncludedIndex)
          nextIndex := r.nextIndex.set s (args.lastIncludedIndex + 1) } else r
      { r with snapInFlight := r.snapInFlight.set s false }

/-- The members that the constructor sets before `ReadPersist`. -/
def blank (peers me : Nat) (d : Disk) (now : Int) : Raft where
  peers := peers
  me := me
  persister := d.persister
  logs := [sentinel 0 0]
  logStore := if d.persister.fileBacked then .segment (.rebuild d.segFile) else .memory
  lastHeartbeat := now
  lastQuorumCheck := now
  matchIndex := List.replicate peers 0
  lastHeartbeatSeq := List.replicate peers 0
  lastAckTime := List.replicate peers 0
  cqConsecFail := List.replicate peers 0
  isMember := List.replicate peers .kVoter
  removedAtIndex := List.replicate peers (-1)
  inflightLogTime := List.replicate peers 0
  persistAsync := d.persister.fileBacked

/-- A blob later than the state takes the place of the log below it. -/
def adoptBlob (r : Raft) (b : SnapshotBlob) : Raft :=
  let r := if r.snapshotIndex < b.index then
    { r with
      logs := cutLogs r.logs (b.index - r.snapshotIndex).toNat b.term b.index
      snapshotIndex := b.index
      snapshotTerm := b.term
      commitIndex := max r.commitIndex b.index
      lastApplied := max r.lastApplied b.index } else r
  if b.index = r.snapshotIndex then
    { r with snapCrc := crc32 b.raw, snapCrcIndex := r.snapshotIndex, snapshotData := b.raw }
  else r

/-- The state blob and the log that goes with it. -/
def restoreState (r : Raft) (st : RaftState) : Raft :=
  { r with
    currentTerm := st.currentTerm
    votedFor := st.votedFor
    logs := if r.logStore.keepsLogExternally then r.logStore.replay st.snapshotTerm st.snapshotIndex
      else st.logs
    snapshotIndex := st.snapshotIndex
    snapshotTerm := st.snapshotTerm
    commitIndex := st.snapshotIndex
    lastApplied := st.snapshotIndex }

/-- What `ReadPersist` does after the blobs: the store mirrors the log, the members are taken over. -/
def restoreRest (r : Raft) (st : RaftState) : Raft :=
  let r := { r with
    savedBlobIndex := r.snapshotIndex
    logStore := r.logStore.resetFromLogs r.logs
    isMember := if st.isMember.length = r.peers then st.isMember
      else List.replicate r.peers .kVoter
    pendingConfIndex := st.pendingConfIndex }
  { r with raftStateBytes := r.encodeRaftStateLocked.encode.length }

def readPersist (r : Raft) (st : RaftState) : Raft :=
  let r := r.restoreState st
  let r := match r.persister.snapshot with
    | some b => r.adoptBlob b
    | none => r
  r.restoreRest st

/-- The constructor: a node comes up from what is on its disk. -/
def make (peers me : Nat) (d : Disk) (now : Int) : Raft :=
  let r := blank peers me d now
  let r := match d.persister.raftState with
    | some st => r.readPersist st
    | none => r
  { r with
    nextIndex := List.replicate peers (r.lastLogIndexLocked + 1)
    snapInFlight := List.replicate peers false
    snapEpoch := List.replicate peers 0 }

end Raft
end ChonKV
