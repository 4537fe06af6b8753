import ChonKV.Raft.LogStore
import Mathlib.Logic.Function.Basic

/-!
The state of one `Raft` object, in the groups of members of `raft.h`, and the functions that every
handler calls: the last log entry, the counts of voters, `PersistLocked` and
`ConvertToFollowerLocked`. Times are milliseconds; `0` is `TimePoint{}`.
-/

set_option autoImplicit false

namespace ChonKV

open Function (update)

def kElectionTimeoutMin : Int := 150
def kCheckQuorumIntervalMs : Int := kElectionTimeoutMin
def kClockDriftBoundMs : Int := 25
def kLeaderLeaseMs : Int := kElectionTimeoutMin - kClockDriftBoundMs
def kCQMaxConsecFail : Int := 5
def kCQStaleWindowMs : Int := 150
def kEnableLeaseRead : Bool := false
def kLogRetryMs : Int := 300
def kMaxEntriesPerRpc : Int := 1024
def kPipelineMaxInFlight : Int := 8 * kMaxEntriesPerRpc
def kMaxBytesPerRpc : Nat := 1 * 1024 * 1024
def kSnapshotChunkSize : Nat := 512 * 1024
def kMaxRecvSnapBuf : Nat := 2 * 1024 * 1024 * 1024
def kMaxUncommittedEntriesDefault : Int := 10000
def kStepdownGraceMs : Int := 200
def kMaxApplyBatch : Int := 128

inductive ServerState where
  | kFollower
  | kCandidate
  | kLeader
  deriving DecidableEq, Repr

structure ElectionState where
  state : ServerState := .kFollower
  currentTerm : Int := 0
  pendingStepdown : Bool := false
  stepdownAfter : Int := 0
  votedFor : Int := -1
  numVotes : Int := 0
  numPrevotes : Int := 0
  voteGranted : List Int := []
  prevoteGranted : List Int := []
  lastHeartbeat : Int := 0
  leaderId : Int := -1

structure LogState where
  logs : List LogEntry := []
  logStore : LogStorage := .memory
  commitIndex : Int := 0
  lastApplied : Int := 0

structure SnapshotState where
  snapshotIndex : Int := 0
  snapshotTerm : Int := 0
  snapshotData : Bytes := []
  snapCrc : UInt32 := 0
  snapCrcIndex : Int := -1
  recvSnapBuf : Bytes := []
  recvSnapLastTerm : Int := -1
  recvSnapIndex : Int := -1
  recvSnapEpoch : Int := -1
  snapEpoch : List Int := []
  snapInFlight : List Bool := []
  savedBlobIndex : Int := 0
  pendingSnapshot : Option ApplyMsg := none
  installGateDepth : Int := 0

structure ReplicationState where
  nextIndex : List Int := []
  matchIndex : List Int := []
  heartbeatSeq : Nat := 0
  lastHeartbeatSeq : List Nat := []
  inflightLogTime : List Int := []

structure QuorumState where
  lastAckTime : List Int := []
  lastQuorumCheck : Int := 0
  cqConsecFail : List Int := []
  leaseExpire : Int := 0

/-- `activeRead` names the round that `active_read_` points to; `readRounds` holds the rounds. -/
structure ReadState where
  nextReadCtx : Nat := 1
  activeRead : Option Nat := none
  readRounds : Nat → ReadIndexCtx := fun _ => {}
  readSafeCommit : Int := 0

structure MemberState where
  isMember : List MemberRole := []
  pendingConfIndex : Int := 0
  removedAtIndex : List Int := []

structure LimitState where
  maxUncommittedEntries : Int := kMaxUncommittedEntriesDefault
  maxRaftStateBytes : Nat := 0
  raftStateBytes : Nat := 0

structure PersistState where
  persistAsync : Bool := false
  persistDirty : Bool := false
  persistVersion : Nat := 0
  persistSynced : Nat := 0
  pendingStateBlob : Option RaftState := none

structure CounterState where
  electionSuppressed : Nat := 0
  aeByteTruncatedCount : Nat := 0
  maxAePayloadBytes : Nat := 0

/-- A `Raft` object. `peers` is `peers_.size()`. -/
structure Raft extends ElectionState, LogState, SnapshotState, ReplicationState, QuorumState,
    ReadState, MemberState, LimitState, PersistState, CounterState where
  peers : Nat
  me : Nat
  killed : Bool := false
  persister : Persister := {}

def lastIndexOf (logs : List LogEntry) : Int := (logs.getLast?.map LogEntry.index).getD 0

def lastTermOf (logs : List LogEntry) : Int := (logs.getLast?.map LogEntry.term).getD 0

/-- `logs[index - snapshotIndex]`, where `logs[0]` stands for `snapshotIndex`. -/
def entryAt (snapshotIndex : Int) (logs : List LogEntry) (index : Int) : LogEntry :=
  logs.getD (index - snapshotIndex).toNat {}

namespace Raft

def lastLogIndexLocked (r : Raft) : Int := lastIndexOf r.logs

def lastLogTermLocked (r : Raft) : Int := lastTermOf r.logs

/-- `logs_[index - snapshot_index_]`. -/
def logAt (r : Raft) (index : Int) : LogEntry := entryAt r.snapshotIndex r.logs index

/-- `index - snapshot_index_`, as a `size_t`, is a position of `logs_`. -/
def inLogs (r : Raft) (index : Int) : Prop :=
  r.snapshotIndex ≤ index ∧ index - r.snapshotIndex < r.logs.length

instance (r : Raft) (index : Int) : Decidable (r.inLogs index) := by
  unfold inLogs
  infer_instance

def memberCountLocked (r : Raft) : Nat := r.isMember.countP isVoter

def quorumSizeLocked (r : Raft) : Nat := r.memberCountLocked / 2 + 1

/-- `i < is_member_.size() && IsVoter(is_member_[i])`. -/
def voter (r : Raft) (i : Nat) : Bool := isVoter (r.isMember.getD i .kRemoved)

def isRemovedSelfLocked (r : Raft) : Bool := r.isMember.getD r.me .kVoter == .kRemoved

def countGrantedVotesLocked (r : Raft) : Nat := countGrantedVotes r.isMember r.voteGranted

def countGrantedPrevotesLocked (r : Raft) : Nat := countGrantedVotes r.isMember r.prevoteGranted

/-- The voters other than this node, in order. -/
def voterPeers (r : Raft) : List Nat :=
  (List.range r.peers).filter fun i => decide (i ≠ r.me) && r.voter i

def encodeRaftStateLocked (r : Raft) : RaftState where
  currentTerm := r.currentTerm
  votedFor := r.votedFor
  snapshotIndex := r.snapshotIndex
  snapshotTerm := r.snapshotTerm
  logs := if r.logStore.keepsLogExternally then [] else r.logs
  isMember := r.isMember
  pendingConfIndex := r.pendingConfIndex

/-- Registers the state for the flusher, or saves it at once. The wait for the flusher, which
releases `mu_`, is the caller's. -/
def persistLocked (r : Raft) : Raft :=
  let blob := r.encodeRaftStateLocked
  if r.persistAsync then
    { r with
      raftStateBytes := blob.encode.length
      pendingStateBlob := some blob
      persistVersion := r.persistVersion + 1
      persistDirty := true }
  else
    { r with
      raftStateBytes := blob.encode.length
      persister := r.persister.saveRaftState blob }

def raftStateSizeLocked (r : Raft) : Nat := r.raftStateBytes + r.logStore.fileSize

def convertToFollowerLocked (r : Raft) (newTerm : Int) : Raft :=
  persistLocked { r with
    state := .kFollower
    currentTerm := newTerm
    votedFor := -1
    numPrevotes := 0
    pendingStepdown := false
    leaseExpire := 0 }

/-- The follow-up of every reply callback that sees a higher term. -/
def stepDownTo (r : Raft) (term now : Int) : Raft :=
  { r.convertToFollowerLocked term with lastHeartbeat := now }

end Raft
end ChonKV
