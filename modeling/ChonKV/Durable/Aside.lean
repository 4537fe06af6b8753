import ChonKV.Durable.Process

/-!
The transfer of a snapshot: every handler but `InstallSnapshot` leaves the reassembly buffer alone, and
no handler breaks the checksum that a leader has kept of its snapshot.
-/

set_option autoImplicit false

namespace ChonKV
namespace Raft

/-- `snap_crc_` is the checksum of the snapshot that `snap_crc_index_` names. -/
def CrcCached (r : Raft) : Prop :=
  0 ≤ r.snapCrcIndex → r.snapCrcIndex = r.snapshotIndex → r.snapCrc = crc32 r.snapshotData

/-- The members that the chunks of a transfer are gathered in. -/
def recvPart (r : Raft) : Bytes × Int × Int × Int :=
  (r.recvSnapBuf, r.recvSnapIndex, r.recvSnapLastTerm, r.recvSnapEpoch)

/-- `r` becomes `r'` without a word of a transfer. -/
structure Aside (r r' : Raft) : Prop where
  crc : r.CrcCached → r'.CrcCached
  recv : r'.recvPart = r.recvPart

variable {r r' r'' : Raft}

theorem Aside.refl (r : Raft) : Aside r r := ⟨id, rfl⟩

theorem Aside.trans (h : Aside r r') (h' : Aside r' r'') : Aside r r'' :=
  ⟨fun hc => h'.crc (h.crc hc), h'.recv.trans h.recv⟩

/-- What comes before it changes members that have no part in a transfer. -/
theorem Aside.after (h' : Aside r' r'') (h : Aside r r') : Aside r r'' := h.trans h'

/-- The log, and how far it is applied. -/
def flightPart (r : Raft) : List LogEntry × Int × Int × Int :=
  (r.logs, r.snapshotIndex, r.lastApplied, r.pendingConfIndex)

/-- Besides, the log stays, as well as what is applied of it, and `r'` is no new leader. -/
structure Calm (r r' : Raft) : Prop extends Aside r r' where
  flight : r'.flightPart = r.flightPart
  leader : r'.state = .kLeader → r.state = .kLeader

theorem Calm.refl (r : Raft) : Calm r r := ⟨.refl r, rfl, id⟩

theorem Calm.trans (h : Calm r r') (h' : Calm r' r'') : Calm r r'' :=
  ⟨h.toAside.trans h'.toAside, h'.flight.trans h.flight, fun hl => h.leader (h'.leader hl)⟩

theorem Calm.after (h' : Calm r' r'') (h : Calm r r') : Calm r r'' := h.trans h'

theorem calm_persistLocked (r : Raft) : Calm r r.persistLocked := by
  rw [persistLocked]
  split_ifs <;> exact ⟨⟨id, rfl⟩, rfl, id⟩

/-- A node leaves its office, or goes on without one. -/
theorem calm_leaves (r : Raft) {state : ServerState} (h : state ≠ .kLeader) :
    Calm r { r with state := state } := ⟨⟨id, rfl⟩, rfl, fun hl => absurd hl h⟩

theorem calm_convertToFollowerLocked (r : Raft) (term : Int) :
    Calm r (r.convertToFollowerLocked term) := by
  have h : Calm r { r with state := .kFollower } := calm_leaves r (by decide)
  exact (calm_persistLocked _).after (h.trans ⟨⟨id, rfl⟩, rfl, id⟩)

theorem calm_stepDownTo (r : Raft) (term now : Int) : Calm r (r.stepDownTo term now) :=
  (calm_convertToFollowerLocked r term).trans ⟨⟨id, rfl⟩, rfl, id⟩

theorem calm_beginPrevote (r : Raft) (now : Int) : Calm r (r.beginPrevote now).1 := by
  rw [beginPrevote]
  dsimp only
  split_ifs <;> exact ⟨⟨id, rfl⟩, rfl, id⟩

theorem calm_startElection (r : Raft) (now : Int) : Calm r (r.startElection now).1 := by
  rw [startElection]
  split_ifs
  · exact .refl r
  · exact (calm_convertToFollowerLocked r _).trans (calm_beginPrevote _ now)
  · exact calm_beginPrevote r now

theorem calm_electionTimeout (r : Raft) (now : Int) : Calm r (r.electionTimeout now).1 := by
  rw [electionTimeout]
  split_ifs
  · exact .refl r
  · exact ⟨⟨id, rfl⟩, rfl, id⟩
  · exact calm_startElection r now

theorem calm_leaderTick (r : Raft) (now : Int) : Calm r (r.leaderTick now) := by
  rw [leaderTick]
  dsimp only
  split_ifs
  · exact .refl r
  · exact (calm_convertToFollowerLocked _ _).after ⟨⟨id, rfl⟩, rfl, id⟩
  · exact ⟨⟨id, rfl⟩, rfl, id⟩
  · exact ⟨⟨id, rfl⟩, rfl, id⟩

theorem calm_prevoteReply (r : Raft) (args : RequestPreVoteArgs) (i : Nat)
    (reply : RequestPreVoteReply) (now : Int) : Calm r (r.prevoteReply args i reply now).1 := by
  rw [prevoteReply]
  split_ifs
  · exact .refl r
  · exact calm_stepDownTo r _ now
  · exact ⟨⟨id, rfl⟩, rfl, id⟩
  · exact .refl r

theorem calm_standForTerm (r : Raft) (now : Int) : Calm r (r.standForTerm now).1 := by
  have h : Calm r { r with state := .kCandidate } := calm_leaves r (by decide)
  rw [standForTerm]
  dsimp only
  split_ifs
  · exact ⟨⟨id, rfl⟩, rfl, id⟩
  · exact (calm_persistLocked _).after (h.trans ⟨⟨id, rfl⟩, rfl, id⟩)
  · exact (calm_persistLocked _).after (h.trans ⟨⟨id, rfl⟩, rfl, id⟩)

theorem calm_decideVote (r : Raft) (args : RequestVoteArgs) (reply : RequestVoteReply) (now : Int) :
    Calm r (r.decideVote args reply now).1 := by
  rw [decideVote]
  split_ifs
  · exact .refl r
  · exact (calm_persistLocked _).after ⟨⟨id, rfl⟩, rfl, id⟩
  · exact .refl r
  · exact .refl r

theorem calm_requestVote (r : Raft) (args : RequestVoteArgs) (now : Int) :
    Calm r (r.requestVote args now).1 := by
  rw [requestVote]
  dsimp only
  split_ifs
  · exact .refl r
  · exact (calm_convertToFollowerLocked r _).trans (calm_decideVote _ args _ now)
  · exact calm_decideVote r args _ now

theorem calm_recordReadAckLocked (r : Raft) (ctx s : Nat) :
    Calm r (r.recordReadAckLocked ctx s) := by
  rw [recordReadAckLocked]
  dsimp only
  split_ifs
  · exact .refl r
  · exact .refl r
  · exact ⟨⟨id, rfl⟩, rfl, id⟩

theorem calm_noteAck (r : Raft) (s ctx : Nat) (now : Int) : Calm r (r.noteAck s ctx now) := by
  have h : Calm r { r with lastAckTime := r.lastAckTime.set s now } := ⟨⟨id, rfl⟩, rfl, id⟩
  rw [noteAck]
  split_ifs
  · exact h.trans (calm_recordReadAckLocked _ ctx s)
  · exact h

theorem calm_readHeartbeatReply (r : Raft) (args : AppendEntriesArgs) (s : Nat)
    (reply : AppendEntriesReply) (now : Int) : Calm r (r.readHeartbeatReply args s reply now) := by
  rw [readHeartbeatReply]
  dsimp only
  split_ifs
  · exact .refl r
  · exact calm_stepDownTo r _ now
  · exact .refl r
  · exact (calm_recordReadAckLocked _ _ s).after ⟨⟨id, rfl⟩, rfl, id⟩
  · exact ⟨⟨id, rfl⟩, rfl, id⟩

theorem calm_advanceCommitIndexLocked (r : Raft) : Calm r r.advanceCommitIndexLocked.1 := by
  rw [advanceCommitIndexLocked]
  dsimp only
  split_ifs <;> exact ⟨⟨id, rfl⟩, rfl, id⟩

theorem calm_appendAccepted (r : Raft) (args : AppendEntriesArgs) (s : Nat) (now : Int) :
    Calm r (r.appendAccepted args s now).1 := by
  rw [appendAccepted]
  refine Calm.trans ?_ (calm_advanceCommitIndexLocked _)
  split_ifs <;> exact ⟨⟨id, rfl⟩, rfl, id⟩

theorem calm_noteReached (r : Raft) (s : Nat) (ok : Bool) : Calm r (r.noteReached s ok) := ⟨⟨id, rfl⟩, rfl, id⟩

theorem calm_appendReply (r : Raft) (args : AppendEntriesArgs) (s : Nat) (ok : Bool)
    (reply : AppendEntriesReply) (now : Int) : Calm r (r.appendReply args s ok reply now).1 := by
  have hack := (calm_noteReached r s ok).trans (calm_noteAck _ s reply.readCtx now)
  rw [appendReply]
  dsimp only
  split_ifs
  · exact .refl r
  · exact (calm_noteReached r s ok).trans (calm_stepDownTo _ _ now)
  · exact calm_noteReached r s ok
  · exact hack.trans (calm_appendAccepted _ args s now)
  · exact hack.trans ⟨⟨id, rfl⟩, rfl, id⟩
  · exact calm_noteReached r s ok

theorem calm_snapshotReply (r : Raft) (args : InstallSnapshotArgs) (s : Nat) (ok : Bool)
    (reply : InstallSnapshotReply) (now : Int) : Calm r (r.snapshotReply args s ok reply now) := by
  have hdown : ∀ term, Calm r { (r.noteReached s ok).stepDownTo term now with
      snapInFlight := ((r.noteReached s ok).stepDownTo term now).snapInFlight.set s false } :=
    fun term => ((calm_noteReached r s ok).trans (calm_stepDownTo _ term now)).trans ⟨⟨id, rfl⟩, rfl, id⟩
  rw [snapshotReply]
  dsimp only
  split_ifs
  all_goals first | exact hdown _ | exact ⟨⟨id, rfl⟩, rfl, id⟩

theorem calm_freezeRemoved (r : Raft) (s : Nat) (p : Progress) : Calm r (r.freezeRemoved s p).1 := by
  rw [freezeRemoved]
  dsimp only
  split_ifs <;> exact ⟨⟨id, rfl⟩, rfl, id⟩

/-- Where the checksum is not that of the snapshot, it is taken before the chunks are cut. -/
theorem calm_sendSnapshot (r : Raft) (s : Nat) (now : Int) : Calm r (r.sendSnapshot s now).1 := by
  rw [sendSnapshot]
  dsimp only
  split_ifs
  · exact ⟨⟨fun _ _ _ => rfl, rfl⟩, rfl, id⟩
  · exact ⟨⟨id, rfl⟩, rfl, id⟩

theorem calm_sendTo (r : Raft) (s : Nat) (p : Progress) (now : Int) : Calm r (r.sendTo s p now).1 := by
  rw [sendTo]
  dsimp only
  split_ifs
  · exact (calm_sendSnapshot _ s now).after ⟨⟨id, rfl⟩, rfl, id⟩
  · rw [sendAppend]
    split_ifs <;> exact ⟨⟨id, rfl⟩, rfl, id⟩

theorem calm_replicate (r : Raft) (s : Nat) (now : Int) : Calm r (r.replicate s now).1 := by
  rw [replicate]
  dsimp only
  split_ifs
  · exact .refl r
  · exact ⟨⟨id, rfl⟩, rfl, id⟩
  · exact calm_convertToFollowerLocked r _
  · exact calm_freezeRemoved r s _
  · exact (calm_freezeRemoved r s _).trans (calm_sendTo _ s _ now)

theorem calm_applyConfAfter (r : Raft) (now : Int) : Calm r (r.applyConfAfter now) := by
  rw [applyConfAfter]
  split_ifs <;> exact ⟨⟨id, rfl⟩, rfl, id⟩

theorem calm_readIndexOpen (r : Raft) (now : Int) : Calm r (r.readIndexOpen now).1 := by
  rw [readIndexOpen]
  split_ifs
  · exact .refl r
  · exact .refl r
  · exact .refl r
  · exact .refl r
  · exact .refl r
  · split <;> exact ⟨⟨id, rfl⟩, rfl, id⟩

theorem calm_readIndexPoll (r : Raft) (ctx : Nat) (term readIndex deadline now : Int) :
    Calm r (r.readIndexPoll ctx term readIndex deadline now).1 := by
  rw [readIndexPoll]
  dsimp only [readIndexLeave]
  split_ifs <;> exact ⟨⟨id, rfl⟩, rfl, id⟩

end Raft

open Raft

/-- What neither changes the log nor what is applied of it, and makes no leader. -/
def Stretch.Calm : Stretch → Prop
  | .takeOffice | .append _ | .snapshotCommit _ _ _ | .installReceive _ | .installCommit _ _
  | .installLogs _ _ _ => False
  | _ => True

def ProcessEvent.Calm : ProcessEvent → Prop
  | .voteReply _ _ _ _ | .appendEntries _ _ | .installSnapshot _ _ | .start _ | .proposeConf _ _
  | .applyLoop _ | .applyResume _ | .resume _ _ | .restart _ => False
  | _ => True

namespace Process

variable {p : Process} {r : Raft}

theorem calm_synced {res : Raft × Bool} (h : Raft.Calm p.raft res.1) :
    Raft.Calm p.raft (p.synced res).raft := by
  rw [synced]
  split_ifs <;> exact h

theorem calm_finishStart {st : Raft × ElectionStart} (h : Raft.Calm p.raft st.1) :
    Raft.Calm p.raft (p.finishStart st).raft := by
  rw [finishStart]
  split_ifs <;> exact h

theorem calm_callback {r' : Raft} {term : Int} {st : Stretch} (h : Raft.Calm p.raft r)
    (h' : Raft.Calm p.raft r') : Raft.Calm p.raft (p.callback r term st r').raft := by
  rw [callback]
  split_ifs
  · exact h.trans (calm_convertToFollowerLocked r term)
  · exact h'

theorem calm_electionTimeout (p : Process) (now : Int) :
    Raft.Calm p.raft (p.electionTimeout now).raft := by
  rw [Process.electionTimeout]
  split_ifs
  · exact calm_convertToFollowerLocked _ _
  · exact calm_finishStart (Raft.calm_electionTimeout _ now)

theorem calm_prevoteReply (p : Process) (args : RequestPreVoteArgs) (i : Nat)
    (reply : RequestPreVoteReply) (now : Int) :
    Raft.Calm p.raft (p.prevoteReply args i reply now).raft := by
  have h : Raft.Calm p.raft (p.callback p.raft reply.term .heard
      (p.raft.prevoteReply args i reply now).1).raft :=
    calm_callback (.refl _) (Raft.calm_prevoteReply _ args i reply now)
  rw [Process.prevoteReply]
  split_ifs <;> exact h

theorem calm_appendReply (p : Process) (args : AppendEntriesArgs) (s : Nat) (ok : Bool)
    (reply : AppendEntriesReply) (now : Int) :
    Raft.Calm p.raft (p.appendReply args s ok reply now).raft := by
  rw [Process.appendReply]
  split_ifs
  · exact (calm_noteReached _ s ok).trans (calm_convertToFollowerLocked _ _)
  · exact calm_synced (Raft.calm_appendReply _ args s ok reply now)

theorem calm_requestVote (p : Process) (args : RequestVoteArgs) (now : Int) :
    Raft.Calm p.raft (p.requestVote args now).raft := by
  rw [Process.requestVote]
  split_ifs
  · exact calm_convertToFollowerLocked _ _
  · exact Raft.calm_requestVote _ args now

theorem calm_snapshot (p : Process) (index : Int) (data : Bytes) :
    Raft.Calm p.raft (p.snapshot index data).raft := by
  rw [snapshot]
  split <;> exact .refl _

theorem calm_saveBlob (p : Process) (u : BlobUser) : Raft.Calm p.raft (p.saveBlob u).raft := by
  rw [Process.saveBlob]
  split_ifs <;> exact .refl _

theorem calm_writeBlob (p : Process) : Raft.Calm p.raft p.writeBlob.raft := by
  rw [Process.writeBlob]
  split <;> exact ⟨⟨id, rfl⟩, rfl, id⟩

theorem calm_flush (p : Process) : Raft.Calm p.raft p.flush.raft := by
  rw [Process.flush]
  split
  · split
    · split_ifs <;> exact ⟨⟨id, rfl⟩, rfl, id⟩
    · exact .refl _
  · exact ⟨⟨id, rfl⟩, rfl, id⟩
  · exact ⟨⟨id, rfl⟩, rfl, id⟩

theorem calm_runStretch (p : Process) (now : Int) {st : Stretch} (h : st.Calm) :
    Raft.Calm p.raft (p.runStretch now st).raft := by
  cases st with
  | prevote => exact calm_finishStart (calm_beginPrevote _ now)
  | startRealElection =>
    rw [runStretch]
    split_ifs <;> exact calm_standForTerm _ now
  | vote args => exact calm_decideVote _ args {} now
  | advanceCommit => exact calm_synced (calm_advanceCommitIndexLocked _)
  | saveBlob u => exact calm_saveBlob p u
  | takeOffice => cases h
  | append _ => cases h
  | snapshotCommit _ _ _ => cases h
  | installReceive _ => cases h
  | installCommit _ _ => cases h
  | installLogs _ _ _ => cases h
  | _ => exact ⟨⟨id, rfl⟩, rfl, id⟩

theorem calm_step (p : Process) {e : ProcessEvent} (he : e.Calm) : Raft.Calm p.raft (p.step e).raft := by
  cases e with
  | electionTimeout now => exact calm_electionTimeout p now
  | leaderTick now => exact calm_leaderTick _ now
  | prevoteReply args i reply now => exact calm_prevoteReply p args i reply now
  | readHeartbeatReply args s reply now =>
    exact calm_callback (.refl _) (calm_readHeartbeatReply _ args s reply now)
  | appendReply args s ok reply now => exact calm_appendReply p args s ok reply now
  | snapshotReply args s ok reply now =>
    exact calm_callback (calm_noteReached _ s ok) (calm_snapshotReply _ args s ok reply now)
  | requestVote args now => exact calm_requestVote p args now
  | replicate s now => exact calm_replicate _ s now
  | snapshot index data => exact calm_snapshot p index data
  | readIndexOpen now => exact calm_readIndexOpen _ now
  | readIndexPoll ctx term readIndex deadline now =>
    exact calm_readIndexPoll _ ctx term readIndex deadline now
  | writeBlob => exact calm_writeBlob p
  | flush => exact calm_flush p
  | voteReply _ _ _ _ => cases he
  | appendEntries _ _ => cases he
  | installSnapshot _ _ => cases he
  | start _ => cases he
  | proposeConf _ _ => cases he
  | applyLoop _ => cases he
  | applyResume _ => cases he
  | resume _ _ => cases he
  | restart _ => cases he
  | _ => exact ⟨⟨id, rfl⟩, rfl, id⟩

/-- Neither a chunk that arrives or is taken up again, nor a restart. -/
def Elsewhere (p : Process) : ProcessEvent → Prop
  | .installSnapshot _ _ => False
  | .resume k _ => ∀ t args, p.threads[k]? = some t → t.stretch ≠ .installReceive args
  | .restart _ => False
  | _ => True

end Process
end ChonKV
