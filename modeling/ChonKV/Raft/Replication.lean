import ChonKV.Raft.Election
import ChonKV.Raft.ReadIndex
import Mathlib.Data.List.Sort

/-!
Appending, replicating and committing log entries.
-/

set_option autoImplicit false

namespace ChonKV

/-- The logs, their mirror and `log_changed`, in the loop of `AppendEntries`. -/
structure MergeState where
  logs : List LogEntry
  logStore : LogStorage
  changed : Bool := false

/-- One turn of the loop of `AppendEntries` over the entries of the request. -/
def mergeEntry (snapshotIndex : Int) (st : MergeState) (e : LogEntry) : MergeState :=
  if e.index ≤ 0 ∨ e.index ≤ snapshotIndex then st
  else if e.index ≤ lastIndexOf st.logs then
    if (entryAt snapshotIndex st.logs e.index).term ≠ e.term then
      { logs := st.logs.take (e.index - snapshotIndex).toNat ++ [e]
        logStore := (st.logStore.truncateSuffix (e.index - 1)).append e
        changed := true }
    else st
  else
    { logs := st.logs ++ [e]
      logStore := st.logStore.append e
      changed := true }

namespace Raft

/-- The first entry of the conflicting term, as far back as the log reaches. -/
def backOff (r : Raft) (conflictTerm : Int) : Nat → Int → Int
  | 0, f => f
  | k+1, f =>
    if r.snapshotIndex + 1 < f ∧ (r.logAt (f-1)).term = conflictTerm then
      r.backOff conflictTerm k (f-1)
    else f

/-- The entries of the request go into the log, which is persisted when it changed. -/
def mergeLocked (r : Raft) (args : AppendEntriesArgs) : Raft :=
  let st := args.entries.foldl (mergeEntry r.snapshotIndex) { logs := r.logs, logStore := r.logStore }
  let r := { r with logs := st.logs, logStore := st.logStore }
  if st.changed ∧ ¬ r.logStore.keepsLogExternally then r.persistLocked else r

/-- The commit index follows that of the leader, up to the entries of the request. -/
def followCommit (r : Raft) (args : AppendEntriesArgs) : Raft :=
  let newCommit := min args.leaderCommit (args.prevLogIndex + args.entries.length)
  if r.commitIndex < args.leaderCommit ∧ r.commitIndex < newCommit then
    { r with commitIndex := newCommit } else r

/-- `AppendEntries` from the consistency check on. -/
def appendEntriesLocked (r : Raft) (args : AppendEntriesArgs) (reply : AppendEntriesReply) :
    Raft × AppendEntriesReply :=
  if r.lastLogIndexLocked < args.prevLogIndex then
    (r, { reply with nextIndex := r.lastLogIndexLocked + 1 })
  else if r.snapshotIndex ≤ args.prevLogIndex ∧
      (r.logAt args.prevLogIndex).term ≠ args.prevLogTerm then
    let f := r.backOff (r.logAt args.prevLogIndex).term
      (args.prevLogIndex - r.snapshotIndex).toNat args.prevLogIndex
    (r, { reply with nextIndex := max f (r.snapshotIndex + 1) })
  else ((r.mergeLocked args).followCommit args, { reply with success := true })

/-- `AppendEntries` up to `ConvertToFollowerLocked`: the leader is noted, the timer reset. -/
def heardLeader (r : Raft) (args : AppendEntriesArgs) (now : Int) : Raft :=
  { r with leaderId := args.leaderId, lastHeartbeat := now }

def appendEntries (r : Raft) (args : AppendEntriesArgs) (now : Int) : Raft × AppendEntriesReply :=
  let reply : AppendEntriesReply := { term := r.currentTerm, readCtx := args.readCtx }
  if r.killed ∨ args.term < r.currentTerm then (r, reply)
  else
    let r := r.heardLeader args now
    if r.currentTerm < args.term ∨ r.state ≠ .kFollower then
      let r := r.convertToFollowerLocked args.term
      r.appendEntriesLocked args { reply with term := r.currentTerm }
    else r.appendEntriesLocked args reply

/-- The match positions of the voters, this node counting its own last index. -/
def matchedLocked (r : Raft) : List Int :=
  ((List.range r.peers).filter r.voter).map fun i =>
    if i = r.me then r.lastLogIndexLocked else r.matchIndex.getD i 0

/-- `AdvanceCommitIndexLocked` up to the forced `Sync`; the flag says that it committed. -/
def advanceCommitIndexLocked (r : Raft) : Raft × Bool :=
  if r.state ≠ .kLeader then (r, false)
  else
    let matched := r.matchedLocked.insertionSort (· ≤ ·)
    if matched = [] ∨ matched.length < r.quorumSizeLocked then (r, false)
    else
      let n := matched.getD (matched.length - r.quorumSizeLocked) 0
      if r.commitIndex < n ∧ 0 ≤ n ∧ r.inLogs n ∧ (r.logAt n).term = r.currentTerm then
        ({ r with commitIndex := n }, true)
      else (r, false)

/-- The rest of `AdvanceCommitIndexLocked`, after the lock is taken again. -/
def commitSynced (r : Raft) : Raft := { r with heartbeatSeq := r.heartbeatSeq + 1 }

/-- `PersistLocked` where the log lives in the state blob, `Sync(false)` where it does not. -/
def persistLog (r : Raft) : Raft := if r.logStore.keepsLogExternally then r else r.persistLocked

/-- `Start(command)`; the flag is that of `AdvanceCommitIndexLocked`. -/
def start (r : Raft) (command : Command) : Raft × StartResult × Bool :=
  let result : StartResult := { term := r.currentTerm }
  if r.killed ∨ r.state ≠ .kLeader ∨ r.pendingStepdown ∨ r.isRemovedSelfLocked then
    (r, result, false)
  else if 0 < r.maxUncommittedEntries ∧
      r.maxUncommittedEntries ≤ r.lastLogIndexLocked - r.commitIndex then
    (r, { result with backpressure := true }, false)
  else if 0 < r.maxRaftStateBytes ∧ r.maxRaftStateBytes ≤ r.raftStateSizeLocked then
    (r, { result with diskFull := true }, false)
  else
    let index := r.lastLogIndexLocked + 1
    let entry : LogEntry := { term := r.currentTerm, index := index, command := command }
    let r := { r with logs := r.logs ++ [entry], logStore := r.logStore.append entry }.persistLog
    let result := { result with isLeader := true, index := index, term := r.currentTerm }
    let (r, committed) := r.advanceCommitIndexLocked
    (r, result, committed)

def proposeConfChangeTo (r : Raft) (server : Int) (target : MemberRole) :
    Raft × StartResult × Bool :=
  let res : StartResult := { term := r.currentTerm, isLeader := decide (r.state = .kLeader) }
  if ¬ res.isLeader then (r, res, false)
  else if r.pendingStepdown then (r, { res with isLeader := false }, false)
  else if r.pendingConfIndex ≠ 0 ∨ server < 0 ∨ (r.isMember.length : Int) ≤ server then
    (r, res, false)
  else if target ≠ .kRemoved ∧ target ≠ .kLearner ∧ target ≠ .kVoter then (r, res, false)
  else if r.voter server.toNat ∧ ¬ isVoter target ∧ r.memberCountLocked ≤ 1 then (r, res, false)
  else if 0 < r.maxRaftStateBytes ∧ r.maxRaftStateBytes ≤ r.raftStateSizeLocked then
    (r, { res with diskFull := true, isLeader := false }, false)
  else
    let e : LogEntry :=
      { term := r.currentTerm, index := r.lastLogIndexLocked + 1, type := .kConfChange
        confServer := server, confRole := target.toInt }
    let r := persistLocked { r with
      removedAtIndex := r.removedAtIndex.set server.toNat
        (if target = .kRemoved then e.index else -1)
      logStore := r.logStore.append e
      logs := r.logs ++ [e]
      pendingConfIndex := e.index }
    let (r, committed) := r.advanceCommitIndexLocked
    (r, { res with index := e.index }, committed)

/-- The entries of one batch: from `i` on, at most `k` of them, cut at `kMaxBytesPerRpc`. The flag
says that the byte limit cut the batch. -/
def batchEntries (r : Raft) (first : Int) : Nat → Int → Nat → List LogEntry × Nat × Bool
  | 0, _, bytes => ([], bytes, false)
  | k+1, i, bytes =>
    if i ≤ r.snapshotIndex then r.batchEntries first k (i+1) bytes
    else
      let e := r.logAt i
      if first < i ∧ kMaxBytesPerRpc < bytes + e.command.length then ([], bytes, true)
      else
        let (rest, total, cut) := r.batchEntries first k (i+1) (bytes + e.command.length)
        (e :: rest, total, cut)

/-- What one turn of `ReplicateLoop` sends after it releases the lock. -/
inductive Send where
  | none
  | append (args : AppendEntriesArgs)
  | snapshot (chunks : List InstallSnapshotArgs)
  deriving DecidableEq, Repr

/-- The chunks of a blob, cut at `kSnapshotChunkSize`. -/
def snapshotChunks (base : InstallSnapshotArgs) : Nat → Nat → Bytes → List InstallSnapshotArgs
  | 0, _, _ => []
  | k+1, off, rest =>
    let chunk := { base with
      offset := off
      chunkSize := (rest.take kSnapshotChunkSize).length
      done := decide (rest.length ≤ kSnapshotChunkSize)
      data := rest.take kSnapshotChunkSize }
    if rest.length ≤ kSnapshotChunkSize then [chunk]
    else chunk :: snapshotChunks base k (off + kSnapshotChunkSize) (rest.drop kSnapshotChunkSize)

/-- `ReplicateLoop` opens a snapshot transfer to `s`. -/
def sendSnapshot (r : Raft) (s : Nat) (now : Int) : Raft × Send :=
  let epoch := r.snapEpoch.getD s 0 + 1
  let r := { r with
    inflightLogTime := r.inflightLogTime.set s now
    snapInFlight := r.snapInFlight.set s true
    snapEpoch := r.snapEpoch.set s epoch }
  let r := if r.snapCrcIndex ≠ r.snapshotIndex then
    { r with snapCrc := crc32 r.snapshotData, snapCrcIndex := r.snapshotIndex } else r
  let args : InstallSnapshotArgs :=
    { term := r.currentTerm, leaderId := r.me, lastIncludedIndex := r.snapshotIndex
      lastIncludedTerm := r.snapshotTerm, crc := r.snapCrc, epoch := epoch
      members := r.isMember.map MemberRole.toInt }
  (r, .snapshot (snapshotChunks args (r.snapshotData.length / kSnapshotChunkSize + 1) 0
    r.snapshotData))

/-- `ReplicateLoop` sends entries or a heartbeat to `s`, starting at `next`. -/
def sendAppend (r : Raft) (s : Nat) (next : Int) (maySendLog removed : Bool) (removedCap now : Int) :
    Raft × Send :=
  let args : AppendEntriesArgs :=
    { term := r.currentTerm
      leaderId := r.me
      leaderCommit := r.commitIndex
      prevLogIndex := next - 1
      prevLogTerm := if r.inLogs (next-1) then (r.logAt (next-1)).term else r.snapshotTerm
      readCtx := (r.joinableRound).getD 0 }
  if maySendLog then
    let last := r.lastLogIndexLocked
    let last := if removed ∧ 0 ≤ removedCap ∧ removedCap < last then removedCap else last
    let last := if kMaxEntriesPerRpc < last - next + 1 then next + kMaxEntriesPerRpc - 1 else last
    let (entries, bytes, cut) := r.batchEntries next (last - next + 1).toNat next 0
    ({ r with
      aeByteTruncatedCount := if cut then r.aeByteTruncatedCount + 1 else r.aeByteTruncatedCount
      maxAePayloadBytes := max r.maxAePayloadBytes bytes
      nextIndex := r.nextIndex.set s (next + entries.length)
      inflightLogTime := r.inflightLogTime.set s now }, .append { args with entries := entries })
  else (r, .append args)

/-- What `ReplicateLoop` finds out about `s` before it decides to send. -/
structure Progress where
  removed : Bool
  removedCap : Int
  timedOut : Bool
  maySendLog : Bool

def progress (r : Raft) (s : Nat) (now : Int) : Progress :=
  let inflight := r.nextIndex.getD s 0 - 1 - r.matchIndex.getD s 0
  let timedOut := decide (0 < inflight) && decide (kLogRetryMs < now - r.inflightLogTime.getD s 0)
  { removed := isRemovedFrozen r.isMember r.removedAtIndex s
    removedCap := r.removedAtIndex.getD s (-1)
    timedOut := timedOut
    maySendLog := (decide (r.nextIndex.getD s 0 ≤ r.lastLogIndexLocked) &&
      decide (inflight < kPipelineMaxInFlight)) || timedOut }

/-- Nothing beyond the freezing point goes to a removed node. -/
def freezeRemoved (r : Raft) (s : Nat) (p : Progress) : Raft × Progress :=
  if ¬ p.removed then (r, p)
  else
    let next := r.nextIndex.getD s 0
    let may := p.maySendLog && !decide (p.removedCap < 0 ∨ p.removedCap < next)
    if next ≤ r.snapshotIndex then
      ({ r with nextIndex := r.nextIndex.set s (r.snapshotIndex + 1) },
        { p with maySendLog := may && !decide (p.removedCap < r.snapshotIndex + 1) })
    else (r, { p with maySendLog := may })

/-- The index that a batch for `s` starts with. -/
def sendFrom (r : Raft) (s : Nat) (p : Progress) : Int :=
  let from_ : Int := if p.timedOut then r.matchIndex.getD s 0 + 1 else r.nextIndex.getD s 0
  let next : Int := if from_ ≤ 0 then 1 else from_
  if p.removed ∧ next ≤ r.snapshotIndex ∧ p.maySendLog then r.snapshotIndex + 1 else next

/-- `ReplicateLoop` once it has decided to send. -/
def sendTo (r : Raft) (s : Nat) (p : Progress) (now : Int) : Raft × Send :=
  let r := { r with lastHeartbeatSeq := r.lastHeartbeatSeq.set s r.heartbeatSeq }
  let next := r.sendFrom s p
  let lagging := decide (next ≤ r.snapshotIndex) && !p.removed
  if lagging ∧ ¬ r.snapInFlight.getD s false then r.sendSnapshot s now
  else r.sendAppend s next (p.maySendLog && !lagging) p.removed p.removedCap now

/-- One turn of `ReplicateLoop(s)`. -/
def replicate (r : Raft) (s : Nat) (now : Int) : Raft × Send :=
  if r.killed ∨ r.state ≠ .kLeader then (r, .none)
  else if r.pendingStepdown ∧ r.stepdownAfter ≤ now then
    if ¬ r.voter r.me then (r.convertToFollowerLocked r.currentTerm, .none)
    else ({ r with pendingStepdown := false }, .none)
  else
    let (r, p) := r.freezeRemoved s (r.progress s now)
    if ¬ p.maySendLog ∧ r.heartbeatSeq = r.lastHeartbeatSeq.getD s 0 then (r, .none)
    else r.sendTo s p now

/-- `CountRecentAcksLocked`. -/
def countRecentAcksLocked (r : Raft) (windowMs now : Int) : Nat :=
  (List.range r.lastAckTime.length).countP fun i =>
    r.voter i && (decide (i = r.me) || decide (now - windowMs < r.lastAckTime.getD i 0))

def noteReached (r : Raft) (s : Nat) (ok : Bool) : Raft :=
  let fails := r.cqConsecFail.getD s 0
  let fails := if ok then 0 else if fails < kCQMaxConsecFail then fails + 1 else fails
  { r with cqConsecFail := r.cqConsecFail.set s fails }

/-- The success branch of the callback of `Raft.AppendEntries`. -/
def appendAccepted (r : Raft) (args : AppendEntriesArgs) (s : Nat) (now : Int) : Raft × Bool :=
  let newMatch := args.prevLogIndex + args.entries.length
  let r := if r.matchIndex.getD s 0 < newMatch then
    { r with matchIndex := r.matchIndex.set s newMatch } else r
  let r := if r.memberCountLocked / 2 < r.countRecentAcksLocked kElectionTimeoutMin now then
    { r with leaseExpire := now + kLeaderLeaseMs } else r
  r.advanceCommitIndexLocked

/-- The failure branch: the next index goes back. -/
def appendRejected (r : Raft) (s : Nat) (hint : Int) : Raft :=
  let next := if 0 < hint then max hint (r.matchIndex.getD s 0 + 1)
    else max 1 (r.nextIndex.getD s 0 - 1)
  { r with nextIndex := r.nextIndex.set s next }

/-- An answer in the leader's term also acknowledges the read round it names. -/
def noteAck (r : Raft) (s ctx : Nat) (now : Int) : Raft :=
  let r := { r with lastAckTime := r.lastAckTime.set s now }
  if ctx ≠ 0 then r.recordReadAckLocked ctx s else r

/-- The callback of `Raft.AppendEntries`; the flag is that of `AdvanceCommitIndexLocked`. -/
def appendReply (r : Raft) (args : AppendEntriesArgs) (s : Nat) (ok : Bool)
    (reply : AppendEntriesReply) (now : Int) : Raft × Bool :=
  if r.killed then (r, false)
  else
    let r := r.noteReached s ok
    if ¬ ok then (r, false)
    else if r.currentTerm < reply.term then (r.stepDownTo reply.term now, false)
    else if args.term ≠ r.currentTerm ∨ r.state ≠ .kLeader then (r, false)
    else
      let r := r.noteAck s reply.readCtx now
      if reply.success then r.appendAccepted args s now
      else (r.appendRejected s reply.nextIndex, false)

end Raft
end ChonKV
