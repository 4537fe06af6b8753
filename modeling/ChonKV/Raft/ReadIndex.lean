import ChonKV.Raft.Node

/-!
Read rounds. `ReadIndex` is three stretches under the lock: it opens or joins a round, polls the
round until it is done or pointless, and leaves it. A round object is named by its `ctx`.
-/

set_option autoImplicit false

namespace ChonKV

open Function (update)

namespace Raft

/-- The voters that have acknowledged a round. -/
def countReadAcks (r : Raft) (acked : List Bool) : Nat :=
  (List.range acked.length).countP fun i => acked.getD i false && r.voter i

def recordReadAckLocked (r : Raft) (ctx : Nat) (server : Nat) : Raft :=
  if ctx = 0 ∨ r.activeRead ≠ some ctx then r
  else
    let rd := r.readRounds ctx
    if rd.term ≠ r.currentTerm ∨ rd.acked.length ≤ server ∨ rd.acked.getD server false then r
    else
      let acked := rd.acked.set server true
      let granted := r.countReadAcks acked
      let rd := { rd with
        acked := acked
        done := rd.done || decide (r.memberCountLocked / 2 + 1 ≤ granted) }
      { r with readRounds := update r.readRounds ctx rd }

/-- One turn of the loop of `BroadcastReadHeartbeat`: the heartbeat for `s`, nothing for a node that
is no voter, or the end of the loop. -/
inductive ReadHeartbeat where
  | stop
  | skip
  | send (args : AppendEntriesArgs)
  deriving DecidableEq, Repr

def readHeartbeat (r : Raft) (ctx s : Nat) : ReadHeartbeat :=
  if s = r.me then .skip
  else if r.state ≠ .kLeader then .stop
  else if ¬ r.voter s then .skip
  else .send
    { term := r.currentTerm
      leaderId := r.me
      leaderCommit := r.commitIndex
      prevLogIndex := r.lastLogIndexLocked
      prevLogTerm := if r.inLogs r.lastLogIndexLocked then (r.logAt r.lastLogIndexLocked).term
        else r.snapshotTerm
      entries := []
      readCtx := ctx }

/-- The callback of a heartbeat that `BroadcastReadHeartbeat` sent. -/
def readHeartbeatReply (r : Raft) (args : AppendEntriesArgs) (server : Nat)
    (reply : AppendEntriesReply) (now : Int) : Raft :=
  if r.killed then r
  else if r.currentTerm < reply.term then r.stepDownTo reply.term now
  else if args.term ≠ r.currentTerm ∨ r.state ≠ .kLeader then r
  else
    let r := { r with lastAckTime := r.lastAckTime.set server now }
    if ¬ r.voter server then r else r.recordReadAckLocked reply.readCtx server

/-- How a call of `ReadIndex` goes on after its first stretch. -/
inductive ReadOpen where
  | forward (leader : Nat) (args : ReadIndexArgs)
  | ret (result : Int)
  | wait (ctx : Nat) (term readIndex : Int) (starter : Bool)
  deriving DecidableEq, Repr

/-- The round that `active_read_` points to, when a reader may still join it. -/
def joinableRound (r : Raft) : Option Nat :=
  r.activeRead.filter fun ctx =>
    !(r.readRounds ctx).done && decide ((r.readRounds ctx).term = r.currentTerm) &&
      decide (r.state = .kLeader)

def readIndexOpen (r : Raft) (now : Int) : Raft × ReadOpen :=
  if r.state ≠ .kLeader then
    if 0 ≤ r.leaderId ∧ r.leaderId ≠ r.me then
      (r, .forward r.leaderId.toNat { term := r.currentTerm })
    else (r, .ret (-1))
  else if r.pendingStepdown ∨ ¬ r.voter r.me then (r, .ret (-1))
  else if r.commitIndex < r.readSafeCommit then (r, .ret (-1))
  else if kEnableLeaseRead ∧ now < r.leaseExpire then (r, .ret r.commitIndex)
  else match r.joinableRound with
    | some ctx =>
      let rd := r.readRounds ctx
      ({ r with readRounds := update r.readRounds ctx { rd with waiters := rd.waiters + 1 } },
        .wait ctx rd.term r.commitIndex false)
    | none =>
      let ctx := r.nextReadCtx
      let rd : ReadIndexCtx :=
        { ctx := ctx
          term := r.currentTerm
          readIndex := r.commitIndex
          acked := (List.replicate r.peers false).set r.me true
          done := false
          waiters := 1 }
      ({ r with
        nextReadCtx := ctx + 1
        readRounds := update r.readRounds ctx rd
        activeRead := some ctx }, .wait ctx r.currentTerm r.commitIndex true)

/-- The last lines of `ReadIndex`: the result is checked once more and the reader leaves. -/
def readIndexLeave (r : Raft) (ctx : Nat) (result : Int) : Raft × Int :=
  let rd := r.readRounds ctx
  let result := if 0 ≤ result ∧ (¬ rd.done ∨ rd.term ≠ r.currentTerm ∨ r.state ≠ .kLeader ∨
    r.pendingStepdown ∨ ¬ r.voter r.me) then -1 else result
  let waiters := rd.waiters - 1
  ({ r with
    readRounds := update r.readRounds ctx { rd with waiters := waiters }
    activeRead := if waiters ≤ 0 ∧ r.activeRead = some ctx then none else r.activeRead }, result)

/-- One turn of the wait of `ReadIndex`; no result means that it goes on waiting. -/
def readIndexPoll (r : Raft) (ctx : Nat) (term readIndex deadline now : Int) :
    Raft × Option Int :=
  let leave := fun result => let (r, result) := r.readIndexLeave ctx result; (r, some result)
  if r.killed then leave (-1)
  else if (r.readRounds ctx).done then leave readIndex
  else if term ≠ r.currentTerm ∨ r.state ≠ .kLeader ∨ r.pendingStepdown ∨ ¬ r.voter r.me ∨
      deadline ≤ now then leave (-1)
  else (r, none)

/-- The end of a forwarded `ReadIndex`. -/
def readIndexForwarded (r : Raft) (ok : Bool) (reply : ReadIndexReply) : Int :=
  if ok ∧ 0 ≤ reply.readIndex ∧ r.currentTerm ≤ reply.term then reply.readIndex else -1

/-- The guards of `ReadIndexRPC`; the flag says that it calls `ReadIndex`. -/
def readIndexRPC (r : Raft) (args : ReadIndexArgs) : ReadIndexReply × Bool :=
  ({ term := r.currentTerm, readIndex := -1 },
    decide (args.term = r.currentTerm) && decide (r.state = .kLeader) && !r.pendingStepdown &&
      r.voter r.me)

end Raft
end ChonKV
