import ChonKV.Durable.Via
import Mathlib.Logic.Relation

/-!
What an election depends on in a node, and how a step changes it that neither decides over a vote nor
counts one.
-/

set_option autoImplicit false

namespace ChonKV

/-- The members of `Raft` that an election depends on. -/
structure Stance where
  me : Nat
  state : ServerState
  currentTerm : Int
  votedFor : Int
  voteGranted : List Int

def Raft.stance (r : Raft) : Stance := ⟨r.me, r.state, r.currentTerm, r.votedFor, r.voteGranted⟩

/-- A follower after `ConvertToFollowerLocked`: a later term, or a term in which the node was more than
that. A candidate in the next term, with no vote but its own. -/
inductive Sway : Stance → Stance → Prop
  | down {s : Stance} {term : Int} (hle : s.currentTerm ≤ term)
      (hback : s.currentTerm < term ∨ s.state ≠ .kFollower) :
      Sway s { s with state := .kFollower, currentTerm := term, votedFor := -1 }
  | stand {s : Stance} (votes : List Int) (hvotes : ∀ k, votes.getD k 0 = 1 → k = s.me) :
      Sway s { s with
        state := .kCandidate, currentTerm := s.currentTerm + 1, votedFor := s.me, voteGranted := votes }

theorem getD_own_vote {n me k : Nat} {v : Int}
    (h : ((List.replicate n (0 : Int)).set me v).getD k 0 = 1) : k = me := by
  by_contra hne
  rw [List.getD_eq_getElem?_getD, List.getElem?_set_ne (Ne.symm hne), List.getElem?_replicate] at h
  split_ifs at h <;> simp at h

namespace Raft

abbrev Sways (r r' : Raft) : Prop := Relation.ReflTransGen Sway r.stance r'.stance

variable {r r' r'' : Raft}

theorem sways_same (h : r'.stance = r.stance) : Sways r r' := by
  rw [Sways, h]

theorem Sways.same (h : Sways r r') (hs : r''.stance = r'.stance) : Sways r r'' := by
  rwa [Sways, hs]

/-- Terms do not go back. -/
theorem Sways.term (h : Sways r r') : r.currentTerm ≤ r'.currentTerm := by
  have hmono : ∀ s, Relation.ReflTransGen Sway r.stance s → r.stance.currentTerm ≤ s.currentTerm := by
    intro s hs
    induction hs with
    | refl => exact le_rfl
    | tail _ hsway ih =>
      cases hsway with
      | down hle _ => exact ih.trans hle
      | stand votes _ => exact ih.trans (by dsimp only; omega)
  exact hmono _ h

@[simp] theorem persistLocked_stance (r : Raft) : r.persistLocked.stance = r.stance := by
  rw [persistLocked]
  split_ifs <;> rfl

theorem convertToFollowerLocked_stance (r : Raft) (term : Int) :
    (r.convertToFollowerLocked term).stance =
      { r.stance with state := .kFollower, currentTerm := term, votedFor := -1 } := persistLocked_stance _

theorem sways_convertToFollowerLocked {term : Int} (hle : r.currentTerm ≤ term)
    (hback : r.currentTerm < term ∨ r.state ≠ .kFollower) :
    Sways r (r.convertToFollowerLocked term) := by
  rw [Sways, convertToFollowerLocked_stance]
  exact .single (.down hle hback)

theorem sways_stepDownTo {term : Int} (h : r.currentTerm < term) (now : Int) :
    Sways r (r.stepDownTo term now) := (sways_convertToFollowerLocked h.le (.inl h)).same rfl

theorem beginPrevote_stance (r : Raft) (now : Int) : (r.beginPrevote now).1.stance = r.stance := by
  rw [beginPrevote]
  dsimp only
  split_ifs <;> rfl

theorem sways_startElection (r : Raft) (now : Int) : Sways r (r.startElection now).1 := by
  rw [startElection]
  split_ifs with _ hcandidate
  · exact .refl
  · refine (sways_convertToFollowerLocked le_rfl (.inr ?_)).same (beginPrevote_stance _ now)
    simp [hcandidate]
  · exact sways_same (beginPrevote_stance r now)

theorem sways_electionTimeout (r : Raft) (now : Int) : Sways r (r.electionTimeout now).1 := by
  rw [electionTimeout]
  split_ifs
  · exact .refl
  · exact sways_same rfl
  · exact sways_startElection r now

/-- CheckQuorum makes a follower of a leader, in its term. -/
theorem sways_leaderTick (r : Raft) (now : Int) : Sways r (r.leaderTick now) := by
  rw [leaderTick]
  dsimp only
  split_ifs with hleader
  · exact .refl
  · rw [not_or, not_not] at hleader
    exact sways_convertToFollowerLocked (r := { r with lastQuorumCheck := now }) le_rfl
      (.inr (by simp [hleader.2]))
  · exact sways_same rfl
  · exact sways_same rfl

theorem sways_prevoteReply (r : Raft) (args : RequestPreVoteArgs) (i : Nat)
    (reply : RequestPreVoteReply) (now : Int) : Sways r (r.prevoteReply args i reply now).1 := by
  rw [prevoteReply]
  split_ifs with _ hterm
  · exact .refl
  · exact sways_stepDownTo hterm now
  · exact sways_same rfl
  · exact .refl

theorem sways_standForTerm (r : Raft) (now : Int) : Sways r (r.standForTerm now).1 := by
  have hstands : ∀ self : Int, Sway r.stance
      ⟨r.me, .kCandidate, r.currentTerm + 1, r.me, (List.replicate r.peers 0).set r.me self⟩ :=
    fun _ => .stand _ fun _ => getD_own_vote
  rw [standForTerm]
  dsimp only
  split_ifs
  · exact sways_same rfl
  · rw [Sways, persistLocked_stance]
    exact .single (hstands 1)
  · rw [Sways, persistLocked_stance]
    exact .single (hstands 0)

theorem recordReadAckLocked_stance (r : Raft) (ctx s : Nat) :
    (r.recordReadAckLocked ctx s).stance = r.stance := by
  rw [recordReadAckLocked]
  dsimp only
  split_ifs <;> rfl

theorem noteAck_stance (r : Raft) (s ctx : Nat) (now : Int) : (r.noteAck s ctx now).stance = r.stance := by
  rw [noteAck]
  split_ifs
  · exact recordReadAckLocked_stance _ ctx s
  · rfl

theorem sways_readHeartbeatReply (r : Raft) (args : AppendEntriesArgs) (s : Nat)
    (reply : AppendEntriesReply) (now : Int) : Sways r (r.readHeartbeatReply args s reply now) := by
  rw [readHeartbeatReply]
  dsimp only
  split_ifs with _ hterm
  · exact .refl
  · exact sways_stepDownTo hterm now
  · exact .refl
  · exact sways_same (recordReadAckLocked_stance _ _ s)
  · exact sways_same rfl

theorem advanceCommitIndexLocked_stance (r : Raft) :
    r.advanceCommitIndexLocked.1.stance = r.stance := by
  rw [advanceCommitIndexLocked]
  dsimp only
  split_ifs <;> rfl

theorem appendAccepted_stance (r : Raft) (args : AppendEntriesArgs) (s : Nat) (now : Int) :
    (r.appendAccepted args s now).1.stance = r.stance := by
  rw [appendAccepted]
  refine (advanceCommitIndexLocked_stance _).trans ?_
  split_ifs <;> rfl

theorem sways_appendReply (r : Raft) (args : AppendEntriesArgs) (s : Nat) (ok : Bool)
    (reply : AppendEntriesReply) (now : Int) : Sways r (r.appendReply args s ok reply now).1 := by
  rw [appendReply]
  dsimp only
  split_ifs with _ _ hterm
  · exact .refl
  · exact sways_stepDownTo (r := r.noteReached s ok) hterm now
  · exact sways_same rfl
  · exact sways_same ((appendAccepted_stance _ args s now).trans (noteAck_stance _ s _ now))
  · exact sways_same (noteAck_stance (r.noteReached s ok) s _ now)
  · exact sways_same rfl

theorem sways_snapshotReply (r : Raft) (args : InstallSnapshotArgs) (s : Nat) (ok : Bool)
    (reply : InstallSnapshotReply) (now : Int) : Sways r (r.snapshotReply args s ok reply now) := by
  have hdown : ∀ term, (r.noteReached s ok).currentTerm < term →
      Sways r { (r.noteReached s ok).stepDownTo term now with
        snapInFlight := ((r.noteReached s ok).stepDownTo term now).snapInFlight.set s false } :=
    fun term hterm => (sways_stepDownTo (r := r.noteReached s ok) hterm now).same rfl
  rw [snapshotReply]
  dsimp only
  split_ifs
  all_goals first | exact hdown _ (by assumption) | exact sways_same rfl

theorem freezeRemoved_stance (r : Raft) (s : Nat) (p : Progress) :
    (r.freezeRemoved s p).1.stance = r.stance := by
  rw [freezeRemoved]
  dsimp only
  split_ifs <;> rfl

theorem sendTo_stance (r : Raft) (s : Nat) (p : Progress) (now : Int) :
    (r.sendTo s p now).1.stance = r.stance := by
  rw [sendTo]
  dsimp only
  split_ifs
  · rw [sendSnapshot]
    dsimp only
    split_ifs <;> rfl
  · rw [sendAppend]
    split_ifs <;> rfl

/-- A leader that is removed steps down once its grace period is over. -/
theorem sways_replicate (r : Raft) (s : Nat) (now : Int) : Sways r (r.replicate s now).1 := by
  rw [replicate]
  split_ifs with hleader
  · exact .refl
  · exact sways_same rfl
  · rw [not_or, not_not] at hleader
    exact sways_convertToFollowerLocked le_rfl (.inr (by simp [hleader.2]))
  · dsimp only
    split_ifs
    · exact sways_same (freezeRemoved_stance r s _)
    · exact sways_same ((sendTo_stance _ s _ now).trans (freezeRemoved_stance r s _))

theorem persistLog_stance (r : Raft) : r.persistLog.stance = r.stance := by
  rw [persistLog]
  split_ifs
  · rfl
  · exact persistLocked_stance r

theorem start_stance (r : Raft) (command : Command) : (r.start command).1.stance = r.stance := by
  rw [start]
  split_ifs
  · rfl
  · rfl
  · rfl
  · exact (advanceCommitIndexLocked_stance _).trans (persistLog_stance _)

theorem confProposed_stance {server : Int} {target : MemberRole}
    (h : r.confProposed server target = some r') : r'.stance = r.stance := by
  rw [confProposed] at h
  simp only [Option.ite_none_left_eq_some] at h
  obtain ⟨-, -, -, -, -, -, h⟩ := h
  cases h
  exact persistLocked_stance _

theorem appendEntriesLocked_stance (r : Raft) (args : AppendEntriesArgs) (reply : AppendEntriesReply) :
    (r.appendEntriesLocked args reply).1.stance = r.stance := by
  have hmerge : (r.mergeLocked args).stance = r.stance := by
    rw [mergeLocked]
    dsimp only
    split_ifs
    · exact persistLocked_stance _
    · rfl
  rw [appendEntriesLocked]
  split_ifs
  · rfl
  · rfl
  · refine Eq.trans ?_ hmerge
    rw [followCommit]
    split_ifs <;> rfl

theorem applyConfAfter_stance (r : Raft) (now : Int) : (r.applyConfAfter now).stance = r.stance := by
  rw [applyConfAfter]
  split_ifs <;> rfl

theorem applyConf_stance (r : Raft) (idx : Int) (e : LogEntry) : (r.applyConf idx e).stance = r.stance := by
  rw [applyConf]
  refine (persistLocked_stance _).trans ?_
  split_ifs <;> rfl

theorem applyTurn_stance (r : Raft) (idx : Int) : ((r.applyTurn idx).raft r).stance = r.stance := by
  rw [applyTurn]
  dsimp only
  split_ifs
  · rfl
  · rfl
  · exact applyConf_stance { r with lastApplied := idx } idx _
  · rfl
  · rfl

theorem applyRun_stance (r : Raft) (now : Int) (k : Nat) (idx : Int) (batch : List ApplyMsg) :
    (r.applyRun now k idx batch).1.stance = r.stance :=
  applyRun_induction (R := fun r r' => r'.stance = r.stance) (fun _ => rfl) (fun h h' => h'.trans h)
    applyTurn_stance applyConfAfter_stance r now k idx batch

theorem installReceive_stance (r : Raft) (args : InstallSnapshotArgs) (reply : InstallSnapshotReply)
    (now : Int) : (r.installReceive args reply now).1.stance = r.stance := by
  have hopen : ∀ r r' : Raft, r.openBuffer args = some r' → r'.stance = r.stance := by
    intro r r' h
    rw [openBuffer] at h
    split_ifs at h
    all_goals cases h; rfl
  have hadd : ∀ r : Raft, (r.addChunk args).1.stance = r.stance := by
    intro r
    rw [addChunk]
    dsimp only
    split_ifs <;> rfl
  rw [installReceive]
  dsimp only
  split_ifs
  · rfl
  · split
    · rfl
    · next r' h =>
      have hr := hopen _ r' h
      exact (hadd r').trans hr

theorem readIndexOpen_stance (r : Raft) (now : Int) : (r.readIndexOpen now).1.stance = r.stance := by
  rw [readIndexOpen]
  split_ifs
  · rfl
  · rfl
  · rfl
  · rfl
  · rfl
  · split <;> rfl

theorem readIndexPoll_stance (r : Raft) (ctx : Nat) (term readIndex deadline now : Int) :
    (r.readIndexPoll ctx term readIndex deadline now).1.stance = r.stance := by
  rw [readIndexPoll]
  dsimp only [readIndexLeave]
  split_ifs <;> rfl

theorem snapshotCommit_stance (r : Raft) (index term : Int) (data : Bytes) :
    (r.snapshotCommit index term data).1.stance = r.stance := by
  rw [snapshotCommit]
  split_ifs
  · rfl
  · exact persistLocked_stance _

theorem installLogs_stance (r : Raft) (args : InstallSnapshotArgs) (old : Int) :
    (r.installLogs args old).stance = r.stance := persistLocked_stance _

theorem appendNoop_stance (r : Raft) : r.appendNoop.stance = r.stance := by
  rw [appendNoop]
  dsimp only
  split_ifs
  · rfl
  · exact (persistLocked_stance _).trans rfl
  · rfl

/-- A candidate with a quorum takes office; nothing else does anything to the stance. -/
theorem becomeLeaderIfQuorumLocked_stance (r : Raft) (now : Int) :
    (r.becomeLeaderIfQuorumLocked now).stance = r.stance ∨
      (r.state = .kCandidate ∧ r.quorumSizeLocked ≤ r.countGrantedVotesLocked ∧
        (r.becomeLeaderIfQuorumLocked now).stance = { r.stance with state := .kLeader }) := by
  rw [becomeLeaderIfQuorumLocked]
  split_ifs with h
  · exact .inl rfl
  · rw [not_or, not_or, not_not, not_lt] at h
    refine .inr ⟨h.1, h.2.2, ?_⟩
    have hnoop : ({ r with lastQuorumCheck := now } : Raft).appendNoop.stance = r.stance :=
      appendNoop_stance _
    exact congrArg (fun s : Stance => { s with state := .kLeader }) hnoop

/-- The quorum is looked for once more. -/
theorem takeOffice_eq (r : Raft) (now : Int) :
    (if r.quorumSizeLocked ≤ r.countGrantedVotesLocked then r.becomeLeaderIfQuorumLocked now else r) =
      r.becomeLeaderIfQuorumLocked now := by
  split_ifs with h
  · rfl
  · rw [becomeLeaderIfQuorumLocked, if_pos (.inr (.inr (not_le.mp h)))]

/-- The callback of `Raft.RequestVote` counts this answer. -/
def Counts (r : Raft) (args : RequestVoteArgs) (reply : RequestVoteReply) : Prop :=
  reply.term ≤ r.currentTerm ∧ r.state = .kCandidate ∧ args.term = r.currentTerm ∧
    reply.voteGranted = true

def counted (r : Raft) (i : Nat) : Raft :=
  { r with numVotes := r.numVotes + 1, voteGranted := r.voteGranted.set i 1 }

theorem voteReply_cases (r : Raft) (args : RequestVoteArgs) (i : Nat) (reply : RequestVoteReply)
    (now : Int) : Sways r (r.voteReply args i reply now) ∨
      (r.Counts args reply ∧
        r.voteReply args i reply now = (r.counted i).becomeLeaderIfQuorumLocked now) := by
  rw [voteReply]
  split_ifs with _ hterm hcounts
  · exact .inl .refl
  · exact .inl (sways_stepDownTo hterm now)
  · exact .inr ⟨⟨not_lt.mp hterm, hcounts.1, hcounts.2.1, hcounts.2.2.1⟩, rfl⟩
  · exact .inl .refl

/-- Rules 2.5 to 4 of `RequestVote` let the candidate have the vote. -/
def MayGrant (r : Raft) (args : RequestVoteArgs) : Prop :=
  r.mayVoteFor args.candidateId ∧ (r.votedFor = -1 ∨ r.votedFor = args.candidateId) ∧
    r.logUpToDate args.lastLogTerm args.lastLogIndex

instance (r : Raft) (args : RequestVoteArgs) : Decidable (r.MayGrant args) := by
  unfold MayGrant
  infer_instance

theorem MayGrant.candidate_nonneg {args : RequestVoteArgs} (h : r.MayGrant args) :
    0 ≤ args.candidateId := by
  have hmay := h.1
  simp only [mayVoteFor, Bool.and_eq_true, decide_eq_true_eq] at hmay
  exact hmay.1.1.1

/-- What the node does depends on no field of the reply. -/
theorem decideVote_fst (r : Raft) (args : RequestVoteArgs) (reply reply' : RequestVoteReply) (now : Int) :
    (r.decideVote args reply now).1 = (r.decideVote args reply' now).1 := by
  rw [decideVote, decideVote]
  split_ifs <;> rfl

theorem decideVote_cases (r : Raft) (args : RequestVoteArgs) (reply : RequestVoteReply) (now : Int) :
    r.decideVote args reply now = (r, reply) ∨
      (r.MayGrant args ∧ (r.decideVote args reply now).2 = { reply with voteGranted := true } ∧
        (r.decideVote args reply now).1.stance = { r.stance with votedFor := args.candidateId }) := by
  rw [decideVote]
  split_ifs with hmay hfree hlog
  · exact .inl rfl
  · refine .inr ⟨⟨hmay, ?_, hlog⟩, rfl, persistLocked_stance _⟩
    tauto
  · exact .inl rfl
  · exact .inl rfl

/-- A request for an earlier term, or any at all on a killed node, is refused as it comes. -/
theorem requestVote_cases {args : RequestVoteArgs} (h : ¬ (¬ r.killed ∧ r.currentTerm < args.term))
    (now : Int) : r.requestVote args now = (r, { term := r.currentTerm }) ∨
      (args.term = r.currentTerm ∧
        r.requestVote args now = r.decideVote args { term := r.currentTerm } now) := by
  rw [requestVote]
  dsimp only
  split_ifs with hno hterm
  · exact .inl rfl
  · rw [not_or] at hno
    exact absurd ⟨by simpa using hno.1, hterm⟩ h
  · rw [not_or] at hno
    exact .inr ⟨by omega, rfl⟩

theorem make_stance (peers me : Nat) (d : Disk) (now : Int) : (make peers me d now).me = me ∧
    (make peers me d now).state = .kFollower := by
  have hadopt : ∀ (r : Raft) (b : SnapshotBlob), (r.adoptBlob b).stance = r.stance := by
    intro r b
    rw [adoptBlob]
    split_ifs <;> rfl
  have hread : ∀ (r : Raft) (st : RaftState), (r.readPersist st).me = r.me ∧
      (r.readPersist st).state = r.state := by
    intro r st
    rw [readPersist]
    cases hb : (r.restoreState st).persister.snapshot with
    | none => exact ⟨rfl, rfl⟩
    | some b =>
      have hs := hadopt (r.restoreState st) b
      exact ⟨congrArg Stance.me hs, congrArg Stance.state hs⟩
  rw [make]
  cases d.persister.raftState with
  | none => exact ⟨rfl, rfl⟩
  | some st => exact hread (blank peers me d now) st

end Raft

/-- The term of the request that a handler goes on with once it has entered that term. -/
def Stretch.requestTerm : Stretch → Option Int
  | .vote args => some args.term
  | .append args => some args.term
  | .installReceive args => some args.term
  | _ => none

/-- The stretch goes on with no request of a term after `T`. -/
def Stretch.Within (T : Int) (st : Stretch) : Prop := ∀ U, st.requestTerm = some U → U ≤ T

theorem Stretch.within_of_none {st : Stretch} (h : st.requestTerm = none) (T : Int) : st.Within T :=
  fun U hU => by rw [h] at hU; cases hU

theorem Stretch.Within.mono {st : Stretch} {T U : Int} (h : st.Within T) (hle : T ≤ U) : st.Within U :=
  fun V hV => (h V hV).trans hle

theorem BlobUser.requestTerm_next (u : BlobUser) : u.next.requestTerm = none := by
  cases u <;> rfl

namespace Process

open Raft

/-- `p` becomes `p'` without a decision over a vote. -/
structure Rests (p p' : Process) : Prop where
  raft : Sways p.raft p'.raft
  threads : ∀ t ∈ p'.threads, t ∈ p.threads ∨ t.stretch.Within p'.raft.currentTerm

variable {p p' p'' : Process} {r : Raft}

theorem Moves.rests (h : Moves (fun st => st.requestTerm = none) Sways p p') : Rests p p' :=
  ⟨h.raft, fun t ht => (h.threads t ht).imp_right fun hst => Stretch.within_of_none hst _⟩

theorem rests_raft (h : Sways p.raft r) : Rests p { p with raft := r } := (moves_raft h).rests

theorem rests_same (h : r.stance = p.raft.stance) : Rests p { p with raft := r } :=
  rests_raft (sways_same h)

theorem rests_refl (p : Process) : Rests p p := rests_raft .refl

theorem rests_wait (h : Sways p.raft r) {st : Stretch} (hst : st.requestTerm = none) : Rests p (p.wait r st) :=
  (moves_wait h hst).rests

/-- A handler enters the term of its request and waits. -/
theorem rests_enter {term : Int} (hr : r.stance = p.raft.stance) (hle : r.currentTerm ≤ term)
    (hback : r.currentTerm < term ∨ r.state ≠ .kFollower) {st : Stretch} (hst : st.Within term) :
    Rests p (p.wait (r.convertToFollowerLocked term) st) := by
  have hsways : Sways r (r.convertToFollowerLocked term) := sways_convertToFollowerLocked hle hback
  rw [Sways, hr] at hsways
  refine ⟨hsways, fun t ht => ?_⟩
  cases List.mem_append.mp ht with
  | inl ht => exact .inl ht
  | inr ht =>
    have hterm : (r.convertToFollowerLocked term).currentTerm = term :=
      congrArg Stance.currentTerm (convertToFollowerLocked_stance r term)
    rw [List.mem_singleton.mp ht]
    exact .inr (hst.mono hterm.ge)

theorem Rests.spawn (h : Rests p p') {st : Stretch} (hst : st.requestTerm = none) :
    Rests p (p'.spawn p'.raft st) := by
  refine ⟨h.raft, fun t ht => ?_⟩
  cases List.mem_append.mp ht with
  | inl ht => exact h.threads t ht
  | inr ht =>
    rw [List.mem_singleton.mp ht]
    exact .inr (Stretch.within_of_none hst _)

theorem rests_spawn (h : Sways p.raft r) {st : Stretch} (hst : st.requestTerm = none) : Rests p (p.spawn r st) :=
  (rests_raft h).spawn hst

/-- A thread that goes on has given up its place. -/
theorem Rests.of_erase {k : Nat} (h : Rests { p with threads := p.threads.eraseIdx k } p') : Rests p p' :=
  ⟨h.raft, fun t ht => (h.threads t ht).imp_left List.mem_of_mem_eraseIdx⟩

theorem rests_synced {res : Raft × Bool} (h : Sways p.raft res.1) : Rests p (p.synced res) := by
  rw [synced]
  split_ifs
  · exact rests_spawn h rfl
  · exact rests_raft h

theorem rests_finishStart {st : Raft × ElectionStart} (h : Sways p.raft st.1) :
    Rests p (p.finishStart st) := by
  rw [finishStart]
  split_ifs
  · exact rests_spawn h rfl
  · exact rests_raft h

theorem rests_electionTimeout (p : Process) (now : Int) : Rests p (p.electionTimeout now) := by
  rw [electionTimeout]
  split_ifs with hcandidate
  · refine rests_wait (sways_convertToFollowerLocked le_rfl (.inr ?_)) rfl
    simp [hcandidate.1]
  · exact rests_finishStart (sways_electionTimeout _ now)

theorem rests_callback {r' : Raft} {term : Int} {st : Stretch} (hr : r.stance = p.raft.stance)
    (hst : st.requestTerm = none) (h : Sways p.raft r') : Rests p (p.callback r term st r') := by
  rw [callback]
  split_ifs with hdown
  · refine rests_wait ?_ hst
    have hconvert : Sways r (r.convertToFollowerLocked term) :=
      sways_convertToFollowerLocked hdown.2.le (.inl hdown.2)
    rwa [Sways, hr] at hconvert
  · exact rests_raft h

theorem rests_prevoteReply (p : Process) (args : RequestPreVoteArgs) (i : Nat)
    (reply : RequestPreVoteReply) (now : Int) : Rests p (p.prevoteReply args i reply now) := by
  have h : Rests p (p.callback p.raft reply.term .heard (p.raft.prevoteReply args i reply now).1) :=
    rests_callback rfl rfl (sways_prevoteReply _ args i reply now)
  rw [prevoteReply]
  split_ifs
  · exact h.spawn rfl
  · exact h

theorem rests_appendReply (p : Process) (args : AppendEntriesArgs) (s : Nat) (ok : Bool)
    (reply : AppendEntriesReply) (now : Int) : Rests p (p.appendReply args s ok reply now) := by
  rw [appendReply]
  split_ifs with hdown
  · refine rests_wait ?_ rfl
    exact sways_convertToFollowerLocked (r := p.raft.noteReached s ok) hdown.2.2.le (.inl hdown.2.2)
  · exact rests_synced (sways_appendReply _ args s ok reply now)

theorem rests_appendEntries (p : Process) (args : AppendEntriesArgs) (now : Int) :
    Rests p (p.appendEntries args now) := by
  rw [appendEntries]
  dsimp only
  split_ifs with hno hwait
  · exact rests_refl p
  · rw [not_or, not_lt] at hno
    refine rests_enter (r := p.raft.heardLeader args now) rfl hno.2 hwait fun T hT => ?_
    cases hT
    exact le_rfl
  · exact rests_same (appendEntriesLocked_stance (p.raft.heardLeader args now) args {})

theorem rests_received (p : Process) (args : InstallSnapshotArgs) (now : Int) :
    Rests p (p.received args now) := by
  have h := sways_same (installReceive_stance p.raft args {} now)
  rw [received]
  split
  · exact rests_raft h
  · exact rests_spawn h rfl

theorem rests_installSnapshot (p : Process) (args : InstallSnapshotArgs) (now : Int) :
    Rests p (p.installSnapshot args now) := by
  rw [installSnapshot]
  split_ifs with _ hterm
  · exact rests_refl p
  · refine rests_enter rfl hterm.le (.inl hterm) fun T hT => ?_
    cases hT
    exact le_rfl
  · exact rests_received p args now

theorem rests_proposeConf (p : Process) (server : Int) (target : MemberRole) :
    Rests p (p.proposeConf server target) := by
  rw [proposeConf]
  split
  · exact rests_refl p
  · next r h => exact rests_wait (sways_same (confProposed_stance h)) rfl

theorem rests_snapshot (p : Process) (index : Int) (data : Bytes) : Rests p (p.snapshot index data) := by
  rw [snapshot]
  split
  · exact rests_refl p
  · exact rests_spawn .refl rfl

theorem rests_settleApply {res : Raft × List ApplyMsg × Option (Nat × Int)}
    (h : res.1.stance = p.raft.stance) : Rests p (p.settleApply res) :=
  (moves_settleApply (sways_same h)).rests

theorem rests_applyLoop (p : Process) (now : Int) : Rests p (p.applyLoop now) := by
  rw [applyLoop]
  split_ifs
  · exact rests_refl p
  · split
    · exact ⟨sways_same rfl, fun _ ht => .inl ht⟩
    · exact rests_settleApply (applyRun_stance _ _ _ _ _)
  · split
    · exact ⟨sways_same rfl, fun _ ht => .inl ht⟩
    · exact rests_refl p

theorem rests_applyResume (p : Process) (now : Int) : Rests p (p.applyResume now) := by
  rw [applyResume]
  split
  · exact rests_refl p
  · split_ifs
    · exact rests_settleApply ((applyRun_stance _ _ _ _ _).trans (applyConfAfter_stance _ now))
    · exact rests_refl p

theorem rests_saveBlob (p : Process) (u : BlobUser) : Rests p (p.saveBlob u) := by
  rw [saveBlob]
  split_ifs
  · exact rests_spawn .refl rfl
  · exact rests_spawn .refl u.requestTerm_next
  · exact ⟨.refl, fun _ ht => .inl ht⟩

theorem rests_writeBlob (p : Process) : Rests p p.writeBlob := by
  rw [writeBlob]
  split
  · exact rests_refl p
  · exact ⟨sways_same rfl, fun _ ht => .inl ht⟩
  · next u _ =>
    have hdone : Rests p { p with
        raft := { p.raft with savedBlobIndex := max p.raft.savedBlobIndex u.blob.index }
        io := none } := ⟨sways_same rfl, fun _ ht => .inl ht⟩
    exact hdone.spawn u.requestTerm_next

theorem rests_flush (p : Process) : Rests p p.flush := by
  rw [flush]
  split
  · split
    · split_ifs
      · exact ⟨sways_same rfl, fun _ ht => .inl ht⟩
      · exact rests_refl p
    · exact rests_refl p
  · exact ⟨sways_same rfl, fun _ ht => .inl ht⟩
  · exact ⟨sways_same rfl, fun _ ht => .inl ht⟩

theorem rests_installLogs (p : Process) (args : InstallSnapshotArgs) (blob : Bytes) (old : Int) :
    Rests p (p.installLogs args blob old) :=
  rests_wait (sways_same (installLogs_stance _ args old)) rfl

/-- A leader that the shipped members do not list steps down in its term. -/
theorem rests_installCommit (p : Process) (args : InstallSnapshotArgs) (blob : Bytes) :
    Rests p (p.installCommit args blob) := by
  unfold Process.installCommit
  split_ifs
  · exact rests_refl p
  · dsimp only
    split_ifs with hdeposed
    · refine rests_wait ?_ rfl
      refine sways_convertToFollowerLocked (r := p.raft.installBegin args blob) le_rfl (.inr ?_)
      simp only [installDeposed, Bool.and_eq_true, decide_eq_true_eq] at hdeposed
      simp [hdeposed.2]
    · have h := rests_installLogs { p with raft := p.raft.installBegin args blob } args blob
        p.raft.snapshotIndex
      exact ⟨h.raft, h.threads⟩

/-- The stretches that neither decide over a vote nor take office. -/
theorem rests_runStretch (p : Process) (now : Int) {st : Stretch} (hvote : ∀ args, st ≠ .vote args)
    (hoffice : st ≠ .takeOffice) : Rests p (p.runStretch now st) := by
  cases st with
  | prevote => exact rests_finishStart (sways_same (beginPrevote_stance _ now))
  | startRealElection =>
    rw [runStretch]
    split_ifs
    · exact rests_wait (sways_standForTerm _ now) rfl
    · exact rests_raft (sways_standForTerm _ now)
  | takeOffice => exact absurd rfl hoffice
  | heard => exact rests_same rfl
  | snapshotHeard s => exact rests_same rfl
  | vote args => exact absurd rfl (hvote args)
  | append args => exact rests_same (appendEntriesLocked_stance _ args {})
  | commitSynced => exact rests_same rfl
  | advanceCommit => exact rests_synced (sways_same (advanceCommitIndexLocked_stance _))
  | saveBlob u => exact rests_saveBlob p u
  | snapshotCommit index term data =>
    have h := sways_same (snapshotCommit_stance p.raft index term data)
    rw [runStretch]
    split_ifs
    · exact rests_wait h rfl
    · exact rests_raft h
  | truncateStore index => exact rests_same rfl
  | installReceive args => exact rests_received p args now
  | installCommit args blob => exact rests_installCommit p args blob
  | installLogs args blob old => exact rests_installLogs p args blob old
  | installFinish msg keep => exact rests_same rfl

/-- The events besides a request for a vote or the answer to one, a thread that goes on, and the end of
the process. -/
theorem rests_step (p : Process) {e : ProcessEvent} (hvote : ∀ args now, e ≠ .requestVote args now)
    (hreply : ∀ args i reply now, e ≠ .voteReply args i reply now)
    (hresume : ∀ k now, e ≠ .resume k now) (hrestart : ∀ now, e ≠ .restart now) :
    Rests p (p.step e) := by
  cases e with
  | electionTimeout now => exact rests_electionTimeout p now
  | leaderTick now => exact rests_raft (sways_leaderTick _ now)
  | prevoteReply args i reply now => exact rests_prevoteReply p args i reply now
  | voteReply args i reply now => exact absurd rfl (hreply args i reply now)
  | readHeartbeatReply args s reply now =>
    exact rests_callback rfl rfl (sways_readHeartbeatReply _ args s reply now)
  | appendReply args s ok reply now => exact rests_appendReply p args s ok reply now
  | snapshotReply args s ok reply now =>
    exact rests_callback rfl rfl (sways_snapshotReply _ args s ok reply now)
  | requestVote args now => exact absurd rfl (hvote args now)
  | appendEntries args now => exact rests_appendEntries p args now
  | installSnapshot args now => exact rests_installSnapshot p args now
  | replicate s now => exact rests_raft (sways_replicate _ s now)
  | start command => exact rests_synced (sways_same (start_stance _ command))
  | proposeConf server target => exact rests_proposeConf p server target
  | snapshot index data => exact rests_snapshot p index data
  | readIndexOpen now => exact rests_same (readIndexOpen_stance _ now)
  | readIndexPoll ctx term readIndex deadline now =>
    exact rests_same (readIndexPoll_stance _ ctx term readIndex deadline now)
  | setLimits m b => exact rests_same rfl
  | applyLoop now => exact rests_applyLoop p now
  | applyResume now => exact rests_applyResume p now
  | resume k now => exact absurd rfl (hresume k now)
  | writeBlob => exact rests_writeBlob p
  | flush => exact rests_flush p
  | kill => exact rests_same rfl
  | restart now => exact absurd rfl (hrestart now)

theorem rests_requestVote (p : Process) (args : RequestVoteArgs) (now : Int)
    (hwait : ¬ p.raft.killed ∧ p.raft.currentTerm < args.term) : Rests p (p.requestVote args now) := by
  rw [Process.requestVote, if_pos hwait]
  refine rests_enter rfl hwait.2.le (.inl hwait.2) fun T hT => ?_
  cases hT
  exact le_rfl

/-- No request that waits is for a term that is still to come. -/
def Timely (p : Process) : Prop := ∀ t ∈ p.threads, t.stretch.Within p.raft.currentTerm

theorem Timely.rests (h : p.Timely) (hr : Rests p p') : p'.Timely := by
  intro t ht
  cases hr.threads t ht with
  | inl hold => exact (h t hold).mono hr.raft.term
  | inr hnew => exact hnew

/-- The threads that wait are those of before, and the term has not gone back. -/
theorem Timely.keep (h : p.Timely) (hthreads : ∀ t ∈ p'.threads, t ∈ p.threads)
    (hterm : p.raft.currentTerm ≤ p'.raft.currentTerm) : p'.Timely :=
  fun t ht => (h t (hthreads t ht)).mono hterm

end Process
end ChonKV
