import ChonKV.Durable.Process

/-!
What the handlers that neither take nor install a snapshot leave alone: the snapshot and its blob,
and, unless they append entries, the log.
-/

set_option autoImplicit false

namespace ChonKV
namespace Raft

/-- `r` becomes `r'` with the same snapshot. A state that is saved or registered on the way names it,
and what is applied does not fall back behind it. -/
structure KeepsSnapshot (r r' : Raft) : Prop where
  index : r'.snapshotIndex = r.snapshotIndex
  saved : r'.savedBlobIndex = r.savedBlobIndex
  blob : r'.persister.snapshot = r.persister.snapshot
  backed : r'.persister.fileBacked = r.persister.fileBacked
  state : r'.persister.raftState = r.persister.raftState ∨
    ∃ st, r'.persister.raftState = some st ∧ st.snapshotIndex = r.snapshotIndex
  pending : r'.pendingStateBlob = r.pendingStateBlob ∨
    ∃ st, r'.pendingStateBlob = some st ∧ st.snapshotIndex = r.snapshotIndex
  applied : min r.snapshotIndex r.lastApplied ≤ r'.lastApplied

/-- `r` becomes `r'` with the same snapshot and the same log. -/
structure SameLog (r r' : Raft) : Prop extends KeepsSnapshot r r' where
  logs : r'.logs = r.logs
  logStore : r'.logStore = r.logStore
  peers : r'.peers = r.peers
  members : r'.isMember.length = r.isMember.length

/-- Besides, `r'` is no new leader and has the same freezing points. -/
structure Still (r r' : Raft) : Prop extends SameLog r r' where
  leader : r'.state = .kLeader → r.state = .kLeader
  removedAt : r'.removedAtIndex = r.removedAtIndex

variable {r r' r'' : Raft}

theorem KeepsSnapshot.refl (r : Raft) : KeepsSnapshot r r :=
  ⟨rfl, rfl, rfl, rfl, .inl rfl, .inl rfl, min_le_right _ _⟩

theorem KeepsSnapshot.trans (h : KeepsSnapshot r r') (h' : KeepsSnapshot r' r'') :
    KeepsSnapshot r r'' := by
  refine ⟨h'.index.trans h.index, h'.saved.trans h.saved, h'.blob.trans h.blob,
    h'.backed.trans h.backed, ?_, ?_, ?_⟩
  · cases h'.state with
    | inl heq => rw [heq]; exact h.state
    | inr hst =>
      obtain ⟨st, hst, hi⟩ := hst
      exact .inr ⟨st, hst, hi.trans h.index⟩
  · cases h'.pending with
    | inl heq => rw [heq]; exact h.pending
    | inr hst =>
      obtain ⟨st, hst, hi⟩ := hst
      exact .inr ⟨st, hst, hi.trans h.index⟩
  · have h₁ := h.applied
    have h₂ := h'.applied
    rw [h.index] at h₂
    omega

theorem SameLog.refl (r : Raft) : SameLog r r := ⟨.refl r, rfl, rfl, rfl, rfl⟩

theorem SameLog.trans (h : SameLog r r') (h' : SameLog r' r'') : SameLog r r'' :=
  ⟨h.toKeepsSnapshot.trans h'.toKeepsSnapshot, h'.logs.trans h.logs, h'.logStore.trans h.logStore,
    h'.peers.trans h.peers, h'.members.trans h.members⟩

theorem Still.refl (r : Raft) : Still r r := ⟨.refl r, id, rfl⟩

theorem Still.trans (h : Still r r') (h' : Still r' r'') : Still r r'' :=
  ⟨h.toSameLog.trans h'.toSameLog, fun hl => h.leader (h'.leader hl), h'.removedAt.trans h.removedAt⟩

/-- The members that a snapshot concerns, besides the log. -/
def snapshotPart (r : Raft) : Int × Int × Persister × Option RaftState × Int :=
  (r.snapshotIndex, r.savedBlobIndex, r.persister, r.pendingStateBlob, r.lastApplied)

def logPart (r : Raft) : List LogEntry × LogStorage := (r.logs, r.logStore)

def memberPart (r : Raft) : Nat × List MemberRole × List Int × ServerState :=
  (r.peers, r.isMember, r.removedAtIndex, r.state)

theorem KeepsSnapshot.of_part (h : r'.snapshotPart = r.snapshotPart) : KeepsSnapshot r r' := by
  simp only [snapshotPart, Prod.mk.injEq] at h
  obtain ⟨hi, hs, hp, hb, ha⟩ := h
  refine ⟨hi, hs, by rw [hp], by rw [hp], .inl (by rw [hp]), .inl hb, ?_⟩
  rw [ha]
  exact min_le_right _ _

theorem Still.of_parts (h : r'.snapshotPart = r.snapshotPart) (hl : r'.logPart = r.logPart)
    (hm : r'.memberPart = r.memberPart) : Still r r' := by
  simp only [logPart, memberPart, Prod.mk.injEq] at hl hm
  obtain ⟨hp, hi, hr, hs⟩ := hm
  exact ⟨⟨.of_part h, hl.1, hl.2, hp, congrArg List.length hi⟩, fun hl => hs ▸ hl, hr⟩

theorem still_persistLocked (r : Raft) : Still r r.persistLocked := by
  rw [persistLocked]
  cases r.persistAsync with
  | false =>
    exact ⟨⟨⟨rfl, rfl, rfl, rfl, .inr ⟨_, rfl, rfl⟩, .inl rfl, min_le_right _ _⟩, rfl, rfl, rfl, rfl⟩,
      id, rfl⟩
  | true =>
    exact ⟨⟨⟨rfl, rfl, rfl, rfl, .inl rfl, .inr ⟨_, rfl, rfl⟩, min_le_right _ _⟩, rfl, rfl, rfl, rfl⟩,
      id, rfl⟩

/-- A node leaves its office, or goes on without one. -/
theorem still_leaves (r : Raft) {state : ServerState} (h : state ≠ .kLeader) :
    Still r { r with state := state } :=
  ⟨⟨.of_part rfl, rfl, rfl, rfl, rfl⟩, fun hl => absurd hl h, rfl⟩

/-- A change of other members, and then `PersistLocked`. -/
theorem Still.persist (h : Still r r') : Still r r'.persistLocked := h.trans (still_persistLocked r')

theorem still_convertToFollowerLocked (r : Raft) (term : Int) :
    Still r (r.convertToFollowerLocked term) := by
  have h : Still r { r with state := .kFollower } := still_leaves r (by decide)
  refine Still.persist (h.trans ?_)
  exact .of_parts rfl rfl rfl

theorem still_stepDownTo (r : Raft) (term now : Int) : Still r (r.stepDownTo term now) :=
  (still_convertToFollowerLocked r term).trans (.of_parts rfl rfl rfl)

theorem still_beginPrevote (r : Raft) (now : Int) : Still r (r.beginPrevote now).1 := by
  rw [beginPrevote]
  dsimp only
  split_ifs
  all_goals exact .of_parts rfl rfl rfl

theorem still_startElection (r : Raft) (now : Int) : Still r (r.startElection now).1 := by
  rw [startElection]
  split_ifs
  · exact .refl r
  · exact (still_convertToFollowerLocked r _).trans (still_beginPrevote _ now)
  · exact still_beginPrevote r now

theorem still_electionTimeout (r : Raft) (now : Int) : Still r (r.electionTimeout now).1 := by
  rw [electionTimeout]
  split_ifs
  · exact .refl r
  · exact .of_parts rfl rfl rfl
  · exact still_startElection r now

theorem still_leaderTick (r : Raft) (now : Int) : Still r (r.leaderTick now) := by
  rw [leaderTick]
  split_ifs
  · exact .refl r
  · dsimp only
    split_ifs
    · refine Still.trans ?_ (still_convertToFollowerLocked _ _)
      exact .of_parts rfl rfl rfl
    · exact .of_parts rfl rfl rfl
  · exact .of_parts rfl rfl rfl

theorem still_prevoteReply (r : Raft) (args : RequestPreVoteArgs) (i : Nat)
    (reply : RequestPreVoteReply) (now : Int) : Still r (r.prevoteReply args i reply now).1 := by
  rw [prevoteReply]
  split_ifs
  · exact .refl r
  · exact still_stepDownTo r _ now
  · exact .of_parts rfl rfl rfl
  · exact .refl r

theorem still_standForTerm (r : Raft) (now : Int) : Still r (r.standForTerm now).1 := by
  rw [standForTerm]
  dsimp only
  have h : Still r { r with state := .kCandidate } := still_leaves r (by decide)
  split_ifs
  · exact .of_parts rfl rfl rfl
  · refine Still.persist (h.trans ?_)
    exact .of_parts rfl rfl rfl
  · refine Still.persist (h.trans ?_)
    exact .of_parts rfl rfl rfl

theorem still_decideVote (r : Raft) (args : RequestVoteArgs) (reply : RequestVoteReply) (now : Int) :
    Still r (r.decideVote args reply now).1 := by
  rw [decideVote]
  split_ifs
  · exact .refl r
  · refine Still.persist ?_
    exact .of_parts rfl rfl rfl
  · exact .refl r
  · exact .refl r

theorem still_requestVote (r : Raft) (args : RequestVoteArgs) (now : Int) :
    Still r (r.requestVote args now).1 := by
  rw [requestVote]
  dsimp only
  split_ifs
  · exact .refl r
  · exact (still_convertToFollowerLocked r _).trans (still_decideVote _ args _ now)
  · exact still_decideVote r args _ now

theorem still_noteReached (r : Raft) (s : Nat) (ok : Bool) : Still r (r.noteReached s ok) :=
  .of_parts rfl rfl rfl

theorem still_recordReadAckLocked (r : Raft) (ctx s : Nat) :
    Still r (r.recordReadAckLocked ctx s) := by
  rw [recordReadAckLocked]
  split_ifs
  · exact .refl r
  · dsimp only
    split_ifs
    · exact .refl r
    · exact .of_parts rfl rfl rfl

theorem still_noteAck (r : Raft) (s ctx : Nat) (now : Int) : Still r (r.noteAck s ctx now) := by
  rw [noteAck]
  split_ifs
  · refine Still.trans ?_ (still_recordReadAckLocked _ ctx s)
    exact .of_parts rfl rfl rfl
  · exact .of_parts rfl rfl rfl

theorem still_readHeartbeatReply (r : Raft) (args : AppendEntriesArgs) (s : Nat)
    (reply : AppendEntriesReply) (now : Int) : Still r (r.readHeartbeatReply args s reply now) := by
  rw [readHeartbeatReply]
  split_ifs
  · exact .refl r
  · exact still_stepDownTo r _ now
  · exact .refl r
  · dsimp only
    split_ifs
    · refine Still.trans ?_ (still_recordReadAckLocked _ _ s)
      exact .of_parts rfl rfl rfl
    · exact .of_parts rfl rfl rfl

theorem still_advanceCommitIndexLocked (r : Raft) : Still r r.advanceCommitIndexLocked.1 := by
  rw [advanceCommitIndexLocked]
  dsimp only
  split_ifs
  · exact .refl r
  · exact .refl r
  · exact .of_parts rfl rfl rfl
  · exact .refl r

theorem still_appendAccepted (r : Raft) (args : AppendEntriesArgs) (s : Nat) (now : Int) :
    Still r (r.appendAccepted args s now).1 := by
  rw [appendAccepted]
  refine Still.trans ?_ (still_advanceCommitIndexLocked _)
  split_ifs <;> exact .of_parts rfl rfl rfl

theorem still_appendReply (r : Raft) (args : AppendEntriesArgs) (s : Nat) (ok : Bool)
    (reply : AppendEntriesReply) (now : Int) : Still r (r.appendReply args s ok reply now).1 := by
  rw [appendReply]
  dsimp only
  split_ifs
  · exact .refl r
  · exact (still_noteReached r s ok).trans (still_stepDownTo _ _ now)
  · exact still_noteReached r s ok
  · exact ((still_noteReached r s ok).trans (still_noteAck _ s _ now)).trans
      (still_appendAccepted _ args s now)
  · exact ((still_noteReached r s ok).trans (still_noteAck _ s _ now)).trans (.of_parts rfl rfl rfl)
  · exact still_noteReached r s ok

theorem still_snapshotReply (r : Raft) (args : InstallSnapshotArgs) (s : Nat) (ok : Bool)
    (reply : InstallSnapshotReply) (now : Int) : Still r (r.snapshotReply args s ok reply now) := by
  have hdown : ∀ term, Still r { (r.noteReached s ok).stepDownTo term now with
      snapInFlight := ((r.noteReached s ok).stepDownTo term now).snapInFlight.set s false } := by
    intro term
    refine ((still_noteReached r s ok).trans (still_stepDownTo _ term now)).trans ?_
    exact .of_parts rfl rfl rfl
  rw [snapshotReply]
  dsimp only
  split_ifs
  all_goals first | exact hdown _ | exact .of_parts rfl rfl rfl

theorem still_freezeRemoved (r : Raft) (s : Nat) (p : Progress) : Still r (r.freezeRemoved s p).1 := by
  rw [freezeRemoved]
  dsimp only
  split_ifs <;> exact .of_parts rfl rfl rfl

theorem still_sendTo (r : Raft) (s : Nat) (p : Progress) (now : Int) : Still r (r.sendTo s p now).1 := by
  rw [sendTo]
  dsimp only
  split_ifs
  · rw [sendSnapshot]
    dsimp only
    split_ifs <;> exact .of_parts rfl rfl rfl
  · rw [sendAppend]
    split_ifs <;> exact .of_parts rfl rfl rfl

theorem still_replicate (r : Raft) (s : Nat) (now : Int) : Still r (r.replicate s now).1 := by
  rw [replicate]
  split_ifs
  · exact .refl r
  · exact .of_parts rfl rfl rfl
  · exact still_convertToFollowerLocked r _
  · dsimp only
    split_ifs
    · exact still_freezeRemoved r s _
    · exact (still_freezeRemoved r s _).trans (still_sendTo _ s _ now)

theorem still_applyConfAfter (r : Raft) (now : Int) : Still r (r.applyConfAfter now) := by
  rw [applyConfAfter]
  split_ifs
  · exact .of_parts rfl rfl rfl
  · exact .refl r

theorem still_openBuffer {r r' : Raft} {args : InstallSnapshotArgs} (h : r.openBuffer args = some r') :
    Still r r' := by
  rw [openBuffer] at h
  split_ifs at h
  all_goals cases h; exact .of_parts rfl rfl rfl

theorem still_addChunk (r : Raft) (args : InstallSnapshotArgs) : Still r (r.addChunk args).1 := by
  rw [addChunk]
  dsimp only
  split_ifs <;> exact .of_parts rfl rfl rfl

theorem still_installReceive (r : Raft) (args : InstallSnapshotArgs) (reply : InstallSnapshotReply)
    (now : Int) : Still r (r.installReceive args reply now).1 := by
  rw [installReceive]
  have h : Still r { r with lastHeartbeat := now, leaderId := args.leaderId } := .of_parts rfl rfl rfl
  refine h.trans ?_
  dsimp only
  split_ifs
  · exact .refl _
  · split
    · exact .refl _
    · next r' h => exact (still_openBuffer h).trans (still_addChunk r' args)

theorem still_readIndexOpen (r : Raft) (now : Int) : Still r (r.readIndexOpen now).1 := by
  rw [readIndexOpen]
  split_ifs
  · exact .refl r
  · exact .refl r
  · exact .refl r
  · exact .refl r
  · exact .refl r
  · split <;> exact .of_parts rfl rfl rfl

theorem still_readIndexPoll (r : Raft) (ctx : Nat) (term readIndex deadline now : Int) :
    Still r (r.readIndexPoll ctx term readIndex deadline now).1 := by
  rw [readIndexPoll]
  dsimp only [readIndexLeave]
  split_ifs <;> exact .of_parts rfl rfl rfl

/-- A change of the log, and then `PersistLocked`. -/
theorem KeepsSnapshot.persist (h : KeepsSnapshot r r') : KeepsSnapshot r r'.persistLocked :=
  h.trans (still_persistLocked r').toKeepsSnapshot

/-- An entry goes into the log and into its mirror. -/
def push (r : Raft) (e : LogEntry) : Raft :=
  { r with logs := r.logs ++ [e], logStore := r.logStore.append e }

/-- The freezing point that a conf entry of the log sets. -/
def freezeAt (e : LogEntry) : Int := if MemberRole.ofInt e.confRole = .kRemoved then e.index else -1

/-- What a leader does to its log and to its freezing points. -/
inductive Edit : Raft → Raft → Prop
  | push {r : Raft} (e : LogEntry) (hindex : e.index = r.lastLogIndexLocked + 1)
      (htype : e.type ≠ .kConfChange) : Edit r (r.push e)
  | propose {r : Raft} (e : LogEntry) (hindex : e.index = r.lastLogIndexLocked + 1)
      (htype : e.type = .kConfChange) (hserver : 0 ≤ e.confServer) : Edit r { r.push e with
        removedAtIndex := r.removedAtIndex.set e.confServer.toNat (freezeAt e) }
  | elect {r : Raft} : Edit r { r with
      state := .kLeader, removedAtIndex := scanRemovedAt r.peers r.logs }

theorem Edit.keeps (h : Edit r r') : KeepsSnapshot r r' := by
  cases h with
  | push e _ _ => exact .of_part rfl
  | propose e _ _ _ => exact .of_part rfl
  | elect => exact .of_part rfl

/-- `r` becomes `r'` with the same snapshot, where the log with its mirror changes by edits only. -/
inductive Edited : Raft → Raft → Prop
  | still {r r' : Raft} : Still r r' → Edited r r'
  | edit {r₀ r₁ r₂ r₃ : Raft} : Edited r₀ r₁ → Edit r₁ r₂ → Still r₂ r₃ → Edited r₀ r₃

theorem Edited.then (h : Edited r r') (h' : Still r' r'') : Edited r r'' := by
  cases h with
  | still h => exact .still (h.trans h')
  | edit h he hs => exact .edit h he (hs.trans h')

theorem Edited.trans (h : Edited r r') (h' : Edited r' r'') : Edited r r'' := by
  induction h' with
  | still hs => exact h.then hs
  | edit _ he hs ih => exact .edit ih he hs

theorem Edited.keeps (h : Edited r r') : KeepsSnapshot r r' := by
  induction h with
  | still hs => exact hs.toKeepsSnapshot
  | edit _ he hs ih => exact (ih.trans he.keeps).trans hs.toKeepsSnapshot

/-- One edit, and what follows it. -/
theorem Edit.edited (h : Edit r r') (hs : Still r' r'') : Edited r r'' := .edit (.still (.refl r)) h hs

theorem edited_appendNoop (r : Raft) : Edited r r.appendNoop := by
  rw [appendNoop]
  dsimp only
  split_ifs
  · exact (Edit.push _ rfl (by simp)).edited (.of_parts rfl rfl rfl)
  · exact (Edit.push _ rfl (by simp)).edited ((still_persistLocked _).trans (.of_parts rfl rfl rfl))
  · exact .still (.of_parts rfl rfl rfl)

theorem edited_becomeLeaderIfQuorumLocked (r : Raft) (now : Int) :
    Edited r (r.becomeLeaderIfQuorumLocked now) := by
  rw [becomeLeaderIfQuorumLocked]
  split_ifs
  · exact .still (.refl r)
  · have h : Still r { r with lastQuorumCheck := now } := .of_parts rfl rfl rfl
    exact .edit ((Edited.still h).trans (edited_appendNoop _)) .elect (.of_parts rfl rfl rfl)

theorem edited_voteReply (r : Raft) (args : RequestVoteArgs) (i : Nat) (reply : RequestVoteReply)
    (now : Int) : Edited r (r.voteReply args i reply now) := by
  rw [voteReply]
  split_ifs
  · exact .still (.refl r)
  · exact .still (still_stepDownTo r _ now)
  · refine Edited.trans (.still ?_) (edited_becomeLeaderIfQuorumLocked _ now)
    exact .of_parts rfl rfl rfl
  · exact .still (.refl r)

theorem edited_start (r : Raft) (command : Command) : Edited r (r.start command).1 := by
  rw [start]
  split_ifs
  · exact .still (.refl r)
  · exact .still (.refl r)
  · exact .still (.refl r)
  · refine Edited.then ?_ (still_advanceCommitIndexLocked _)
    rw [persistLog]
    split_ifs
    · exact (Edit.push _ rfl (by simp)).edited (.refl _)
    · exact (Edit.push _ rfl (by simp)).edited (still_persistLocked _)

/-- What `ProposeConfChangeTo` writes. -/
def confEntry (r : Raft) (server : Int) (target : MemberRole) : LogEntry :=
  { term := r.currentTerm, index := r.lastLogIndexLocked + 1, type := .kConfChange
    confServer := server, confRole := target.toInt }

theorem freezeAt_confEntry (r : Raft) (server : Int) {target : MemberRole}
    (h : ¬ (target ≠ .kRemoved ∧ target ≠ .kLearner ∧ target ≠ .kVoter)) :
    freezeAt (r.confEntry server target) =
      if target = .kRemoved then (r.confEntry server target).index else -1 := by
  cases target with
  | kRemoved => rfl
  | kLearner => rfl
  | kVoter => rfl
  | other v => simp at h

theorem edited_confProposed {server : Int} {target : MemberRole}
    (h : r.confProposed server target = some r') : Edited r r' := by
  rw [confProposed] at h
  simp only [Option.ite_none_left_eq_some] at h
  obtain ⟨-, -, hserver, htarget, -, -, h⟩ := h
  rw [not_or, not_or, not_lt] at hserver
  cases h
  refine (Edit.propose (r.confEntry server target) rfl rfl hserver.2.1).edited (Still.persist ?_)
  rw [freezeAt_confEntry r server htarget]
  exact .of_parts rfl rfl rfl

theorem keeps_mergeLocked (r : Raft) (args : AppendEntriesArgs) : KeepsSnapshot r (r.mergeLocked args) := by
  rw [mergeLocked]
  dsimp only
  split_ifs
  · refine KeepsSnapshot.persist ?_
    exact .of_part rfl
  · exact .of_part rfl

theorem still_followCommit (r : Raft) (args : AppendEntriesArgs) : Still r (r.followCommit args) := by
  rw [followCommit]
  split_ifs <;> exact .of_parts rfl rfl rfl

theorem keeps_appendEntriesLocked (r : Raft) (args : AppendEntriesArgs) (reply : AppendEntriesReply) :
    KeepsSnapshot r (r.appendEntriesLocked args reply).1 := by
  rw [appendEntriesLocked]
  split_ifs
  · exact .refl r
  · exact .refl r
  · exact (keeps_mergeLocked r args).trans (still_followCommit _ args).toKeepsSnapshot

theorem appendEntriesLocked_memberPart (r : Raft) (args : AppendEntriesArgs)
    (reply : AppendEntriesReply) : (r.appendEntriesLocked args reply).1.memberPart = r.memberPart := by
  have hpersist : ∀ r : Raft, r.persistLocked.memberPart = r.memberPart := by
    intro r
    rw [persistLocked]
    split_ifs <;> rfl
  have hmerge : (r.mergeLocked args).memberPart = r.memberPart := by
    rw [mergeLocked]
    split_ifs
    · exact hpersist _
    · rfl
  rw [appendEntriesLocked]
  split_ifs
  · rfl
  · rfl
  · refine Eq.trans ?_ hmerge
    rw [followCommit]
    split_ifs <;> rfl

theorem sameLog_applyConf (r : Raft) (idx : Int) (e : LogEntry) : SameLog r (r.applyConf idx e) := by
  rw [applyConf]
  refine SameLog.trans ?_ (still_persistLocked _).toSameLog
  by_cases h : 0 ≤ e.confServer ∧ e.confServer < r.isMember.length
  · rw [if_pos h]
    exact ⟨.of_part rfl, rfl, rfl, rfl, List.length_set⟩
  · rw [if_neg h]
    exact ⟨.of_part rfl, rfl, rfl, rfl, rfl⟩

/-- The applier goes on at `idx`. -/
theorem still_appliedAt {idx : Int} (h : min r.snapshotIndex r.lastApplied ≤ idx) :
    Still r { r with lastApplied := idx } :=
  ⟨⟨⟨rfl, rfl, rfl, rfl, .inl rfl, .inl rfl, h⟩, rfl, rfl, rfl, rfl⟩, id, rfl⟩

theorem sameLog_applyTurn (r : Raft) (idx : Int) : SameLog r ((r.applyTurn idx).raft r) := by
  rw [applyTurn]
  dsimp only
  split_ifs with hgate hsnap
  · exact .refl r
  · exact (still_appliedAt ((min_le_right _ _).trans (le_max_left _ _))).toSameLog
  · exact (still_appliedAt ((min_le_left _ _).trans (not_le.mp hsnap).le)).toSameLog.trans
      (sameLog_applyConf _ idx _)
  · exact (still_appliedAt ((min_le_left _ _).trans (not_le.mp hsnap).le)).toSameLog
  · exact .refl r

theorem sameLog_applyRun (r : Raft) (now : Int) (k : Nat) (idx : Int) (batch : List ApplyMsg) :
    SameLog r (r.applyRun now k idx batch).1 :=
  applyRun_induction .refl (fun h h' => h.trans h') sameLog_applyTurn
    (fun r now => (still_applyConfAfter r now).toSameLog) r now k idx batch

/-- `Raft::Snapshot` in the middle of its phase 2, before it persists. -/
def snapshotCut (r : Raft) (index term : Int) (data : Bytes) : Raft :=
  { r with
    logs := cutLogs r.logs (index - r.snapshotIndex).toNat term index
    snapshotIndex := index
    snapshotTerm := term
    snapshotData := data
    snapCrc := 0
    snapCrcIndex := -1
    logStore := r.logStore.dropPrefix index }

theorem snapshotCommit_eq (r : Raft) (index term : Int) (data : Bytes) :
    r.snapshotCommit index term data =
      if (r.snapshotCheck index).isNone then (r, false)
      else ((r.snapshotCut index term data).persistLocked, true) := rfl

theorem snapshotCheck_eq_some {index t : Int} (h : r.snapshotCheck index = some t) :
    index ≤ r.commitIndex ∧ r.snapshotIndex < index ∧ r.inLogs index := by
  rw [snapshotCheck] at h
  split_ifs at h with hno
  rw [not_or, not_or, not_lt, not_le, not_not] at hno
  exact hno

end Raft
end ChonKV
