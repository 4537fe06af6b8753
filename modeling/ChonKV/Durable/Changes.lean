import ChonKV.Durable.Via

/-!
Every stretch of a handler as a sequence of small changes of the `Raft` object: what the stretches
between two windows can do at all, apart from entries that arrive or are applied and from snapshots.
-/

set_option autoImplicit false

namespace ChonKV

/-- The members that the changes are about. -/
structure Scope where
  peers : Nat
  me : Nat
  killed : Bool
  state : ServerState
  currentTerm : Int
  log : LogState
  snapshotIndex : Int
  installGateDepth : Int
  nextReadCtx : Nat
  activeRead : Option Nat
  readRounds : Nat → ReadIndexCtx
  isMember : List MemberRole
  persist : PersistState
  persister : Persister

namespace Raft

def scope (r : Raft) : Scope where
  peers := r.peers
  me := r.me
  killed := r.killed
  state := r.state
  currentTerm := r.currentTerm
  log := r.toLogState
  snapshotIndex := r.snapshotIndex
  installGateDepth := r.installGateDepth
  nextReadCtx := r.nextReadCtx
  activeRead := r.activeRead
  readRounds := r.readRounds
  isMember := r.isMember
  persist := r.toPersistState
  persister := r.persister

/-- What an event does to read rounds. -/
inductive ReadUse where
  | none
  | ack
  | opens
  | polls
  deriving DecidableEq

/-- A change at a time; read rounds change only by what `k` names. -/
inductive Change (k : ReadUse) : Raft → Raft → Prop
  /-- Only other members change. -/
  | same {r r' : Raft} (h : r'.scope = r.scope) : Change k r r'
  | persist (r : Raft) : Change k r r.persistLocked
  /-- A follower or a candidate, the latter in a new term. -/
  | turn {r : Raft} {state : ServerState} {term : Int} (hstate : state ≠ .kLeader)
      (hterm : r.currentTerm ≤ term) (hcand : state = .kCandidate → r.currentTerm < term) :
      Change k r { r with state := state, currentTerm := term }
  | elect {r : Raft} (h : r.state = .kCandidate) : Change k r { r with state := .kLeader }
  | commit {r : Raft} {n : Int} (hlt : r.commitIndex < n) (hin : r.inLogs n) :
      Change k r { r with commitIndex := n }
  | push {r : Raft} (e : LogEntry) (hindex : e.index = r.lastLogIndexLocked + 1) :
      Change k r (r.push e)
  | ack {r : Raft} (ctx s : Nat) (hk : k = .ack) (h : r.state = .kLeader) :
      Change k r (r.recordReadAckLocked ctx s)
  | openRead (r : Raft) (now : Int) (hk : k = .opens) : Change k r (r.readIndexOpen now).1
  | pollRead (r : Raft) (ctx : Nat) (term readIndex deadline now : Int) (hk : k = .polls) :
      Change k r (r.readIndexPoll ctx term readIndex deadline now).1
  | kill (r : Raft) : Change k r { r with killed := true }

abbrev Changes (k : ReadUse) : Raft → Raft → Prop := Relation.ReflTransGen (Change k)

variable {k : ReadUse} {r r' r'' : Raft}

theorem Changes.then (h : Changes k r r') (h' : Changes k r' r'') : Changes k r r'' := h.trans h'

theorem Changes.same (h : Changes k r r') (hs : r''.scope = r'.scope) : Changes k r r'' := h.tail (.same hs)

theorem Changes.persist (h : Changes k r r') : Changes k r r'.persistLocked := h.tail (.persist r')

theorem changes_same (h : r'.scope = r.scope) : Changes k r r' := .single (.same h)

theorem changes_convertToFollowerLocked {term : Int} (h : r.currentTerm ≤ term) :
    Changes k r (r.convertToFollowerLocked term) := by
  have hturn : Changes k r { r with state := .kFollower, currentTerm := term } :=
    .single (.turn (by decide) h fun hc => by cases hc)
  exact Changes.persist (hturn.same rfl)

theorem changes_stepDownTo {term : Int} (h : r.currentTerm ≤ term) (now : Int) :
    Changes k r (r.stepDownTo term now) := (changes_convertToFollowerLocked h).same rfl

theorem changes_beginPrevote (r : Raft) (now : Int) : Changes k r (r.beginPrevote now).1 := by
  rw [beginPrevote]
  dsimp only
  split_ifs
  all_goals exact changes_same rfl

theorem changes_startElection (r : Raft) (now : Int) : Changes k r (r.startElection now).1 := by
  rw [startElection]
  split_ifs
  · exact .refl
  · exact (changes_convertToFollowerLocked le_rfl).trans (changes_beginPrevote _ now)
  · exact changes_beginPrevote r now

theorem changes_electionTimeout (r : Raft) (now : Int) : Changes k r (r.electionTimeout now).1 := by
  rw [electionTimeout]
  split_ifs
  · exact .refl
  · exact changes_same rfl
  · exact changes_startElection r now

theorem changes_leaderTick (r : Raft) (now : Int) : Changes k r (r.leaderTick now) := by
  rw [leaderTick]
  split_ifs
  · exact .refl
  · dsimp only
    split_ifs
    · refine (changes_same ?_).trans (changes_convertToFollowerLocked le_rfl)
      rfl
    · exact changes_same rfl
  · exact changes_same rfl

theorem changes_prevoteReply (r : Raft) (args : RequestPreVoteArgs) (i : Nat)
    (reply : RequestPreVoteReply) (now : Int) : Changes k r (r.prevoteReply args i reply now).1 := by
  rw [prevoteReply]
  split_ifs with _ hterm
  · exact .refl
  · exact changes_stepDownTo hterm.le now
  · exact changes_same rfl
  · exact .refl

theorem changes_standForTerm (r : Raft) (now : Int) : Changes k r (r.standForTerm now).1 := by
  rw [standForTerm]
  dsimp only
  have hturn : Changes k r { r with state := .kCandidate, currentTerm := r.currentTerm + 1 } :=
    .single (.turn (by decide) (by omega) fun _ => by omega)
  split_ifs
  · exact changes_same rfl
  · exact Changes.persist (hturn.same rfl)
  · exact Changes.persist (hturn.same rfl)

theorem changes_decideVote (r : Raft) (args : RequestVoteArgs) (reply : RequestVoteReply)
    (now : Int) : Changes k r (r.decideVote args reply now).1 := by
  rw [decideVote]
  split_ifs
  · exact .refl
  · refine Changes.persist (changes_same ?_)
    rfl
  · exact .refl
  · exact .refl

theorem changes_requestVote (r : Raft) (args : RequestVoteArgs) (now : Int) :
    Changes k r (r.requestVote args now).1 := by
  rw [requestVote]
  dsimp only
  split_ifs with _ hterm
  · exact .refl
  · exact (changes_convertToFollowerLocked hterm.le).trans (changes_decideVote _ args _ now)
  · exact changes_decideVote r args _ now

theorem changes_noteReached (r : Raft) (s : Nat) (ok : Bool) : Changes k r (r.noteReached s ok) :=
  changes_same rfl

theorem changes_noteAck (s ctx : Nat) (now : Int) (h : r.state = .kLeader) :
    Changes .ack r (r.noteAck s ctx now) := by
  rw [noteAck]
  have hack : Changes .ack r { r with lastAckTime := r.lastAckTime.set s now } := changes_same rfl
  split_ifs
  · refine hack.tail (.ack ctx s rfl ?_)
    exact h
  · exact hack

theorem changes_readHeartbeatReply (r : Raft) (args : AppendEntriesArgs) (s : Nat)
    (reply : AppendEntriesReply) (now : Int) :
    Changes .ack r (r.readHeartbeatReply args s reply now) := by
  rw [readHeartbeatReply]
  split_ifs with _ hterm hoff
  · exact .refl
  · exact changes_stepDownTo hterm.le now
  · exact .refl
  · rw [not_or, not_not, not_not] at hoff
    have hack : Changes .ack r { r with lastAckTime := r.lastAckTime.set s now } := changes_same rfl
    dsimp only
    split_ifs
    · refine hack.tail (.ack _ s rfl ?_)
      exact hoff.2
    · exact hack

theorem changes_advanceCommitIndexLocked (r : Raft) : Changes k r r.advanceCommitIndexLocked.1 := by
  rw [advanceCommitIndexLocked]
  dsimp only
  split_ifs with _ _ hn
  · exact .refl
  · exact .refl
  · exact .single (.commit hn.1 hn.2.2.1)
  · exact .refl

theorem changes_appendAccepted (r : Raft) (args : AppendEntriesArgs) (s : Nat) (now : Int) :
    Changes k r (r.appendAccepted args s now).1 := by
  rw [appendAccepted]
  refine Relation.ReflTransGen.trans ?_ (changes_advanceCommitIndexLocked _)
  split_ifs <;> exact changes_same rfl

theorem changes_appendReply (r : Raft) (args : AppendEntriesArgs) (s : Nat) (ok : Bool)
    (reply : AppendEntriesReply) (now : Int) : Changes .ack r (r.appendReply args s ok reply now).1 := by
  have hreached : Changes .ack r (r.noteReached s ok) := changes_noteReached r s ok
  rw [appendReply]
  dsimp only
  split_ifs with _ _ hterm hoff
  · exact .refl
  · exact hreached.trans (changes_stepDownTo hterm.le now)
  · exact hreached
  · rw [not_or, not_not, not_not] at hoff
    exact (hreached.trans (changes_noteAck s _ now hoff.2)).trans (changes_appendAccepted _ args s now)
  · rw [not_or, not_not, not_not] at hoff
    have hack : Changes .ack r _ := hreached.trans (changes_noteAck s reply.readCtx now hoff.2)
    exact hack.same rfl
  · exact hreached

theorem changes_snapshotReply (r : Raft) (args : InstallSnapshotArgs) (s : Nat) (ok : Bool)
    (reply : InstallSnapshotReply) (now : Int) :
    Changes k r (r.snapshotReply args s ok reply now) := by
  have hdown : ∀ term, (r.noteReached s ok).currentTerm < term →
      Changes k r { (r.noteReached s ok).stepDownTo term now with
        snapInFlight := ((r.noteReached s ok).stepDownTo term now).snapInFlight.set s false } := by
    intro term hterm
    have hstep : Changes k r _ := (changes_noteReached r s ok).trans (changes_stepDownTo hterm.le now)
    exact hstep.same rfl
  rw [snapshotReply]
  dsimp only
  split_ifs
  all_goals first | exact hdown _ (by assumption) | exact changes_same rfl

theorem changes_freezeRemoved (r : Raft) (s : Nat) (p : Progress) :
    Changes k r (r.freezeRemoved s p).1 := by
  rw [freezeRemoved]
  dsimp only
  split_ifs <;> exact changes_same rfl

theorem changes_sendTo (r : Raft) (s : Nat) (p : Progress) (now : Int) :
    Changes k r (r.sendTo s p now).1 := by
  rw [sendTo]
  dsimp only
  split_ifs
  · rw [sendSnapshot]
    dsimp only
    split_ifs <;> exact changes_same rfl
  · rw [sendAppend]
    split_ifs <;> exact changes_same rfl

theorem changes_replicate (r : Raft) (s : Nat) (now : Int) : Changes k r (r.replicate s now).1 := by
  rw [replicate]
  split_ifs
  · exact .refl
  · exact changes_same rfl
  · exact changes_convertToFollowerLocked le_rfl
  · dsimp only
    split_ifs
    · exact changes_freezeRemoved r s _
    · exact (changes_freezeRemoved r s _).trans (changes_sendTo _ s _ now)

theorem changes_applyConfAfter (r : Raft) (now : Int) : Changes k r (r.applyConfAfter now) := by
  rw [applyConfAfter]
  split_ifs
  · exact changes_same rfl
  · exact .refl

theorem changes_openBuffer {args : InstallSnapshotArgs} (h : r.openBuffer args = some r') :
    Changes k r r' := by
  rw [openBuffer] at h
  split_ifs at h
  all_goals cases h; exact changes_same rfl

theorem changes_addChunk (r : Raft) (args : InstallSnapshotArgs) :
    Changes k r (r.addChunk args).1 := by
  rw [addChunk]
  dsimp only
  split_ifs <;> exact changes_same rfl

theorem changes_installReceive (r : Raft) (args : InstallSnapshotArgs) (reply : InstallSnapshotReply)
    (now : Int) : Changes k r (r.installReceive args reply now).1 := by
  rw [installReceive]
  have h : Changes k r { r with lastHeartbeat := now, leaderId := args.leaderId } :=
    changes_same rfl
  refine h.then ?_
  dsimp only
  split_ifs
  · exact .refl
  · split
    · exact .refl
    · next r' hopen => exact (changes_openBuffer hopen).trans (changes_addChunk r' args)

/-- A leader's entry goes into the log and is persisted where the log lives in the state blob. -/
theorem changes_appendNoop (r : Raft) : Changes k r r.appendNoop := by
  let noop : LogEntry :=
    { term := r.currentTerm, index := r.lastLogIndexLocked + 1, command := [], type := .kNoOp }
  have hpush : Changes k r (r.push noop) := .single (.push noop rfl)
  rw [appendNoop]
  dsimp only
  split_ifs
  · exact hpush.same rfl
  · exact hpush.persist.same rfl
  · exact changes_same rfl

theorem appendNoop_state (r : Raft) : r.appendNoop.state = r.state := by
  rw [appendNoop]
  dsimp only
  split_ifs
  · rfl
  · rw [persistLocked]
    split_ifs <;> rfl
  · rfl

theorem changes_becomeLeaderIfQuorumLocked (r : Raft) (now : Int) :
    Changes k r (r.becomeLeaderIfQuorumLocked now) := by
  rw [becomeLeaderIfQuorumLocked]
  split_ifs with h
  · exact .refl
  · rw [not_or, not_not] at h
    have hcheck : Changes k r { r with lastQuorumCheck := now } := changes_same rfl
    have hnoop : Changes k r _ := hcheck.then (changes_appendNoop _)
    have helect : Changes k r _ := hnoop.tail (.elect ((appendNoop_state _).trans h.1))
    exact helect.same rfl

theorem changes_voteReply (r : Raft) (args : RequestVoteArgs) (i : Nat) (reply : RequestVoteReply)
    (now : Int) : Changes k r (r.voteReply args i reply now) := by
  rw [voteReply]
  split_ifs with _ hterm
  · exact .refl
  · exact changes_stepDownTo hterm.le now
  · refine Changes.then (changes_same ?_) (changes_becomeLeaderIfQuorumLocked _ now)
    rfl
  · exact .refl

theorem changes_start (r : Raft) (command : Command) : Changes k r (r.start command).1 := by
  rw [start]
  split_ifs
  · exact .refl
  · exact .refl
  · exact .refl
  · refine Changes.then ?_ (changes_advanceCommitIndexLocked _)
    let entry : LogEntry :=
      { term := r.currentTerm, index := r.lastLogIndexLocked + 1, command := command }
    have hpush : Changes k r (r.push entry) := .single (.push entry rfl)
    rw [persistLog]
    split_ifs
    · exact hpush
    · exact hpush.persist

theorem changes_confProposed {server : Int} {target : MemberRole}
    (h : r.confProposed server target = some r') : Changes k r r' := by
  rw [confProposed] at h
  simp only [Option.ite_none_left_eq_some] at h
  obtain ⟨-, -, -, -, -, -, h⟩ := h
  cases h
  have hpush : Changes k r (r.push (r.confEntry server target)) := .single (.push _ rfl)
  refine Changes.persist (hpush.same ?_)
  rfl

end Raft

def ProcessEvent.reads : ProcessEvent → Raft.ReadUse
  | .readHeartbeatReply _ _ _ _ | .appendReply _ _ _ _ _ => .ack
  | .readIndexOpen _ => .opens
  | .readIndexPoll _ _ _ _ _ => .polls
  | _ => .none

namespace Process

open Raft

variable {k : ReadUse} {p : Process} {r : Raft}

theorem changes_synced {res : Raft × Bool} (h : Changes k p.raft res.1) :
    Changes k p.raft (p.synced res).raft := by
  rw [synced]
  split_ifs <;> exact h

theorem changes_finishStart {st : Raft × ElectionStart} (h : Changes k p.raft st.1) :
    Changes k p.raft (p.finishStart st).raft := by
  rw [finishStart]
  split_ifs <;> exact h

theorem changes_callback {r' : Raft} {term : Int} {st : Stretch} (h : Changes k p.raft r)
    (h' : Changes k p.raft r') : Changes k p.raft (p.callback r term st r').raft := by
  rw [callback]
  split_ifs with hterm
  · exact h.then (changes_convertToFollowerLocked hterm.2.le)
  · exact h'

theorem changes_received (p : Process) (args : InstallSnapshotArgs) (now : Int) :
    Changes k p.raft (p.received args now).raft := by
  rw [received]
  split
  · exact changes_installReceive _ args {} now
  · exact changes_installReceive _ args {} now

/-- The events that are neither on the way of a snapshot nor of entries. -/
theorem changes_step (p : Process) {e : ProcessEvent} (he : e.Plain) :
    Changes e.reads p.raft (p.step e).raft := by
  cases e with
  | electionTimeout now =>
    rw [step, electionTimeout]
    split_ifs
    · exact changes_convertToFollowerLocked le_rfl
    · exact changes_finishStart (changes_electionTimeout _ now)
  | leaderTick now => exact changes_leaderTick _ now
  | prevoteReply args i reply now =>
    have h : Changes .none p.raft (p.callback p.raft reply.term .heard
        (p.raft.prevoteReply args i reply now).1).raft :=
      changes_callback .refl (changes_prevoteReply _ args i reply now)
    rw [step, prevoteReply]
    split_ifs <;> exact h
  | voteReply args i reply now => exact changes_callback .refl (changes_voteReply _ args i reply now)
  | readHeartbeatReply args s reply now =>
    exact changes_callback .refl (changes_readHeartbeatReply _ args s reply now)
  | appendReply args s ok reply now =>
    rw [step, appendReply]
    split_ifs with hterm
    · exact (changes_noteReached _ s ok).trans (changes_convertToFollowerLocked hterm.2.2.le)
    · exact changes_synced (changes_appendReply _ args s ok reply now)
  | snapshotReply args s ok reply now =>
    exact changes_callback (changes_noteReached _ s ok) (changes_snapshotReply _ args s ok reply now)
  | requestVote args now =>
    rw [step, requestVote]
    split_ifs with hterm
    · exact changes_convertToFollowerLocked hterm.2.le
    · exact changes_requestVote _ args now
  | installSnapshot args now =>
    rw [step, installSnapshot]
    split_ifs with _ hterm
    · exact .refl
    · exact changes_convertToFollowerLocked hterm.le
    · exact changes_received p args now
  | replicate s now => exact changes_replicate _ s now
  | start command => exact changes_synced (changes_start _ command)
  | proposeConf server target =>
    rw [step, proposeConf]
    split
    · exact .refl
    · next r h => exact changes_confProposed h
  | snapshot index data =>
    rw [step, snapshot]
    split <;> exact .refl
  | readIndexOpen now => exact .single (.openRead _ now rfl)
  | readIndexPoll ctx term readIndex deadline now =>
    exact .single (.pollRead _ ctx term readIndex deadline now rfl)
  | setLimits m b => exact changes_same rfl
  | kill => exact .single (.kill _)
  | appendEntries _ _ => cases he
  | applyLoop _ => cases he
  | applyResume _ => cases he
  | resume _ _ => cases he
  | writeBlob => cases he
  | flush => cases he
  | restart _ => cases he

theorem changes_runStretch (p : Process) (now : Int) {st : Stretch} (hst : st.Plain)
    (hblob : ∀ u, st ≠ .saveBlob u) : Changes k p.raft (p.runStretch now st).raft := by
  cases st with
  | prevote => exact changes_finishStart (changes_beginPrevote _ now)
  | startRealElection =>
    rw [runStretch]
    split_ifs <;> exact changes_standForTerm _ now
  | takeOffice =>
    rw [runStretch]
    dsimp only
    split_ifs
    · exact changes_becomeLeaderIfQuorumLocked _ now
    · exact .refl
  | heard => exact changes_same rfl
  | snapshotHeard s => exact changes_same rfl
  | vote args => exact changes_decideVote _ args {} now
  | commitSynced => exact changes_same rfl
  | advanceCommit => exact changes_synced (changes_advanceCommitIndexLocked _)
  | saveBlob u => exact absurd rfl (hblob u)
  | installReceive args => exact changes_received p args now
  | append _ => cases hst
  | snapshotCommit _ _ _ => cases hst
  | truncateStore _ => cases hst
  | installCommit _ _ => cases hst
  | installLogs _ _ _ => cases hst
  | installFinish _ _ => cases hst

/-- `AppendEntries` up to its first wait, or as a whole. -/
theorem changes_appendEntries (p : Process) (args : AppendEntriesArgs) (now : Int) :
    Changes k p.raft (p.appendEntries args now).raft ∨
      ∃ r, Changes k p.raft r ∧ (p.appendEntries args now).raft = (r.appendEntriesLocked args {}).1 := by
  have hheard : Changes k p.raft (p.raft.heardLeader args now) := changes_same rfl
  rw [appendEntries]
  dsimp only
  split_ifs with hno
  · exact Or.inl .refl
  · rw [not_or, not_lt] at hno
    exact Or.inl (hheard.then (changes_convertToFollowerLocked hno.2))
  · exact Or.inr ⟨_, hheard, rfl⟩

end Process
end ChonKV
