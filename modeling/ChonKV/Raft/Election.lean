import ChonKV.Raft.Node

/-!
Pre-vote, vote and taking office. A function is one stretch of the source that holds `mu_`; where
`PersistLocked` may release the lock in the middle, the stretch is cut there and the parts are
named.
-/

set_option autoImplicit false

namespace ChonKV
namespace Raft

/-- What `StartElection` does after it releases the lock. -/
inductive ElectionStart where
  | none
  | selfOnly
  | prevote (args : RequestPreVoteArgs) (targets : List Nat)
  deriving DecidableEq, Repr

/-- `StartElection` from the recent-heartbeat guard on. -/
def beginPrevote (r : Raft) (now : Int) : Raft × ElectionStart :=
  if now - r.lastHeartbeat < kElectionTimeoutMin then (r, .none)
  else
    let args : RequestPreVoteArgs :=
      { term := r.currentTerm, candidateId := r.me, lastLogIndex := r.lastLogIndexLocked
        lastLogTerm := r.lastLogTermLocked }
    let self : Int := if r.voter r.me then 1 else 0
    let r := { r with
      numPrevotes := self
      prevoteGranted := (List.replicate r.peers 0).set r.me self }
    if r.state = .kFollower ∧ r.quorumSizeLocked ≤ r.countGrantedPrevotesLocked then (r, .selfOnly)
    else (r, .prevote args r.voterPeers)

def startElection (r : Raft) (now : Int) : Raft × ElectionStart :=
  if r.killed ∨ r.state = .kLeader ∨ ¬ r.voter r.me then (r, .none)
  else
    let r := if r.state = .kCandidate then r.convertToFollowerLocked r.currentTerm else r
    r.beginPrevote now

/-- The timer of a node that is not leader runs out. -/
def electionTimeout (r : Raft) (now : Int) : Raft × ElectionStart :=
  if r.killed ∨ r.state = .kLeader then (r, .none)
  else if r.isRemovedSelfLocked then
    ({ r with electionSuppressed := r.electionSuppressed + 1 }, .none)
  else r.startElection now

/-- The callback of `Raft.RequestPreVote`; the flag asks for `StartRealElection`. -/
def prevoteReply (r : Raft) (pargs : RequestPreVoteArgs) (i : Nat) (reply : RequestPreVoteReply)
    (now : Int) : Raft × Bool :=
  if r.killed then (r, false)
  else if r.currentTerm < reply.term then (r.stepDownTo reply.term now, false)
  else if pargs.term = r.currentTerm ∧ r.state = .kFollower ∧ reply.voteGranted then
    let r := { r with
      numPrevotes := r.numPrevotes + 1
      prevoteGranted := r.prevoteGranted.set i 1 }
    (r, decide (r.quorumSizeLocked ≤ r.countGrantedPrevotesLocked))
  else (r, false)

/-- The last uncommitted conf entry of the log, or `0`. -/
def scanPendingConf (r : Raft) : Int :=
  (List.range (r.lastLogIndexLocked - r.commitIndex).toNat).foldl (fun acc k =>
    let ci := r.commitIndex + 1 + (k : Int)
    if r.inLogs ci ∧ (r.logAt ci).type = .kConfChange then ci else acc) 0

/-- The freezing points that the conf entries of the log determine. -/
def scanRemovedAt (peers : Nat) (logs : List LogEntry) : List Int :=
  logs.foldl (fun acc ce =>
    if ce.type ≠ .kConfChange then acc
    else if ce.confServer < 0 ∨ (acc.length : Int) ≤ ce.confServer then acc
    else acc.set ce.confServer.toNat
      (if MemberRole.ofInt ce.confRole = .kRemoved then ce.index else -1))
    (List.replicate peers (-1))

/-- The no-op of a new leader, when its log goes beyond what it knows committed. -/
def appendNoop (r : Raft) : Raft :=
  if r.commitIndex < r.lastLogIndexLocked then
    let noop : LogEntry :=
      { term := r.currentTerm, index := r.lastLogIndexLocked + 1, command := [], type := .kNoOp }
    let r := { r with logs := r.logs ++ [noop], logStore := r.logStore.append noop }
    let r := if r.logStore.keepsLogExternally then r else r.persistLocked
    { r with readSafeCommit := r.lastLogIndexLocked }
  else { r with readSafeCommit := r.commitIndex }

def becomeLeaderIfQuorumLocked (r : Raft) (now : Int) : Raft :=
  if r.state ≠ .kCandidate ∨ ¬ r.voter r.me ∨ r.countGrantedVotesLocked < r.quorumSizeLocked then r
  else
    let r := { r with lastQuorumCheck := now }.appendNoop
    { r with
      nextIndex := List.replicate r.peers (r.lastLogIndexLocked + 1)
      matchIndex := List.replicate r.peers 0
      heartbeatSeq := r.heartbeatSeq + 1
      lastHeartbeat := now
      state := .kLeader
      leaderId := r.me
      pendingStepdown := false
      cqConsecFail := List.replicate r.peers 0
      pendingConfIndex := r.scanPendingConf
      removedAtIndex := scanRemovedAt r.peers r.logs }

/-- `StartRealElection` up to the end of its `PersistLocked`; the flag says that it went on. -/
def standForTerm (r : Raft) (now : Int) : Raft × Bool :=
  let r := { r with numPrevotes := 0 }
  if r.killed ∨ r.state ≠ .kFollower ∨ ¬ r.voter r.me ∨
      now - r.lastHeartbeat < kElectionTimeoutMin then (r, false)
  else
    let self : Int := if r.voter r.me then 1 else 0
    (persistLocked { r with
      state := .kCandidate
      currentTerm := r.currentTerm + 1
      votedFor := r.me
      numVotes := self
      voteGranted := (List.replicate r.peers 0).set r.me self
      lastHeartbeat := now }, true)

/-- The flag asks for `SendRequestVoteRPCs`. -/
def startRealElection (r : Raft) (now : Int) : Raft × Bool :=
  let (r, stood) := r.standForTerm now
  if stood then
    (if r.quorumSizeLocked ≤ r.countGrantedVotesLocked then r.becomeLeaderIfQuorumLocked now else r,
      true)
  else (r, false)

def sendRequestVoteRPCs (r : Raft) : Option (RequestVoteArgs × List Nat) :=
  if r.killed ∨ r.state ≠ .kCandidate ∨
      (r.isMember ≠ [] ∧ r.me < r.isMember.length ∧ ¬ r.voter r.me) then none
  else
    some ({ term := r.currentTerm, candidateId := r.me, lastLogIndex := r.lastLogIndexLocked
            lastLogTerm := r.lastLogTermLocked }, r.voterPeers)

/-- The callback of `Raft.RequestVote`. -/
def voteReply (r : Raft) (args : RequestVoteArgs) (i : Nat) (reply : RequestVoteReply) (now : Int) :
    Raft :=
  if r.killed then r
  else if r.currentTerm < reply.term then r.stepDownTo reply.term now
  else if r.state = .kCandidate ∧ args.term = r.currentTerm ∧ reply.voteGranted ∧ r.voter r.me then
    { r with numVotes := r.numVotes + 1, voteGranted := r.voteGranted.set i 1 }
      |>.becomeLeaderIfQuorumLocked now
  else r

/-- Rules 2.5 and 2.6: the candidate is a voter, and this node is not removed. -/
def mayVoteFor (r : Raft) (candidateId : Int) : Bool :=
  decide (0 ≤ candidateId) && r.voter candidateId.toNat &&
    decide (r.me < r.isMember.length) && !(r.isMember.getD r.me .kRemoved == .kRemoved)

/-- Rule 4: a log that ends in `(lastLogTerm, lastLogIndex)` is at least as new as this one. -/
def logUpToDate (r : Raft) (lastLogTerm lastLogIndex : Int) : Bool :=
  decide (r.lastLogTermLocked < lastLogTerm) ||
    (decide (lastLogTerm = r.lastLogTermLocked) && decide (r.lastLogIndexLocked ≤ lastLogIndex))

/-- `RequestVote` from rule 2.5 on, in the term of the request. -/
def decideVote (r : Raft) (args : RequestVoteArgs) (reply : RequestVoteReply) (now : Int) :
    Raft × RequestVoteReply :=
  if ¬ r.mayVoteFor args.candidateId then (r, reply)
  else if r.votedFor ≠ -1 ∧ r.votedFor ≠ args.candidateId then (r, reply)
  else if ¬ r.logUpToDate args.lastLogTerm args.lastLogIndex then (r, reply)
  else
    (persistLocked { r with votedFor := args.candidateId, lastHeartbeat := now },
      { reply with voteGranted := true })

def requestVote (r : Raft) (args : RequestVoteArgs) (now : Int) : Raft × RequestVoteReply :=
  let reply : RequestVoteReply := { term := r.currentTerm, voteGranted := false }
  if r.killed ∨ args.term < r.currentTerm then (r, reply)
  else if r.currentTerm < args.term then
    let r := r.convertToFollowerLocked args.term
    r.decideVote args { reply with term := r.currentTerm } now
  else r.decideVote args reply now

def requestPreVote (r : Raft) (args : RequestPreVoteArgs) : RequestPreVoteReply :=
  { term := r.currentTerm
    voteGranted := !r.killed && r.mayVoteFor args.candidateId &&
      r.logUpToDate args.lastLogTerm args.lastLogIndex }

/-- How many voters the leader reached lately, itself included. -/
def countLive (r : Raft) (now : Int) : Nat :=
  (if r.voter r.me then 1 else 0) +
    (List.range r.cqConsecFail.length).countP fun i =>
      r.voter i && decide (i ≠ r.me) &&
        (decide (r.cqConsecFail.getD i 0 < kCQMaxConsecFail) ||
          (decide (r.lastAckTime.getD i 0 ≠ 0) &&
            decide (now - r.lastAckTime.getD i 0 < kCQStaleWindowMs)))

/-- One turn of `ElectionTimerLoop` as leader: CheckQuorum when it is due, then the heartbeat. -/
def leaderTick (r : Raft) (now : Int) : Raft :=
  if r.killed ∨ r.state ≠ .kLeader then r
  else if kCheckQuorumIntervalMs ≤ now - r.lastQuorumCheck then
    let r := { r with lastQuorumCheck := now }
    if r.countLive now < r.memberCountLocked / 2 + 1 then r.convertToFollowerLocked r.currentTerm
    else { r with heartbeatSeq := r.heartbeatSeq + 1 }
  else { r with heartbeatSeq := r.heartbeatSeq + 1 }

end Raft
end ChonKV
