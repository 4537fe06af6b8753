import ChonKV.Durable.Freeze

/-!
The term of office of a leader: what every handler but the callbacks and the sender of `ReplicateLoop`
leaves alone of the cursors and of the snapshot transfers.
-/

set_option autoImplicit false

namespace ChonKV
namespace Raft

/-- The members of the snapshot transfers. -/
def transferPart (r : Raft) : List Bool × List Int := (r.snapInFlight, r.snapEpoch)

/-- How far a follower got, and where its next batch starts. -/
def cursorPart (r : Raft) : List Int × List Int := (r.nextIndex, r.matchIndex)

def officePart (r : Raft) : Nat × Bool × ServerState × Int := (r.peers, r.killed, r.state, r.currentTerm)

/-- `r` becomes `r'`: within a term, a candidate may become leader and a leader follower, and neither goes
back. -/
structure Office (r r' : Raft) : Prop where
  peers : r'.peers = r.peers
  killed : r.killed = true → r'.killed = true
  term : r.currentTerm ≤ r'.currentTerm
  office : r'.state ≠ .kFollower → r.currentTerm < r'.currentTerm ∨
    (r'.currentTerm = r.currentTerm ∧ r.state ≠ .kFollower ∧
      (r.state = .kLeader → r'.state = .kLeader))

/-- Besides, the transfers stay as they are. -/
structure Tenure (r r' : Raft) : Prop extends Office r r' where
  transfers : r'.transferPart = r.transferPart

/-- The cursors as a new leader sets them; its log may have grown since. -/
def Opened (r : Raft) : Prop :=
  ∃ next : Int, r.cursorPart = (List.replicate r.peers next, List.replicate r.peers 0) ∧
    1 ≤ next ∧ next ≤ r.lastLogIndexLocked + 1

/-- Besides, a leader keeps its cursors as long as it is in office, and the end of its log does not go
back; a new one starts afresh. -/
structure Abides (r r' : Raft) : Prop extends Tenure r r' where
  cursors : r'.state = .kLeader → r.state = .kLeader → r'.currentTerm = r.currentTerm →
    r'.cursorPart = r.cursorPart ∧ r.lastLogIndexLocked ≤ r'.lastLogIndexLocked
  opened : r'.state = .kLeader → (r.state = .kLeader → r'.currentTerm ≠ r.currentTerm) → r'.Opened

variable {r r' r'' : Raft}

theorem Office.refl (r : Raft) : Office r r := ⟨rfl, id, le_rfl, fun h => .inr ⟨rfl, h, id⟩⟩

theorem Office.trans (h : Office r r') (h' : Office r' r'') : Office r r'' where
  peers := h'.peers.trans h.peers
  killed hk := h'.killed (h.killed hk)
  term := h.term.trans h'.term
  office hstate := by
    obtain hlt | ⟨heq, hstate', hstays⟩ := h'.office hstate
    · exact .inl (h.term.trans_lt hlt)
    · obtain hlt | ⟨heq', hstate₀, hstays'⟩ := h.office hstate'
      · exact .inl (hlt.trans_eq heq.symm)
      · exact .inr ⟨heq.trans heq', hstate₀, fun hl => hstays (hstays' hl)⟩

theorem Tenure.refl (r : Raft) : Tenure r r := ⟨.refl r, rfl⟩

theorem Tenure.trans (h : Tenure r r') (h' : Tenure r' r'') : Tenure r r'' :=
  ⟨h.toOffice.trans h'.toOffice, h'.transfers.trans h.transfers⟩

/-- A leader that is one at the end of its term was one all the time. -/
theorem Office.between (h : Office r r') (h' : Office r' r'') (hl : r.state = .kLeader)
    (hl' : r''.state = .kLeader) (hterm : r''.currentTerm = r.currentTerm) :
    r'.state = .kLeader ∧ r'.currentTerm = r.currentTerm := by
  have hle := h.term
  have hle' := h'.term
  have hterm' : r'.currentTerm = r.currentTerm := by omega
  refine ⟨?_, hterm'⟩
  obtain hlt | ⟨-, hstate', -⟩ := h'.office (by simp [hl'])
  · omega
  · obtain hlt | ⟨-, -, hstays⟩ := h.office hstate'
    · omega
    · exact hstays hl

theorem Opened.keep (h : r.Opened) (hpeers : r'.peers = r.peers) (hc : r'.cursorPart = r.cursorPart)
    (hle : r.lastLogIndexLocked ≤ r'.lastLogIndexLocked) : r'.Opened := by
  obtain ⟨next, hcursors, hpos, hnext⟩ := h
  exact ⟨next, by rw [hc, hpeers, hcursors], hpos, by omega⟩

theorem Abides.refl (r : Raft) : Abides r r :=
  ⟨.refl r, fun _ _ _ => ⟨rfl, le_rfl⟩, fun hl hno => absurd rfl (hno hl)⟩

theorem Abides.trans (h : Abides r r') (h' : Abides r' r'') : Abides r r'' where
  toTenure := h.toTenure.trans h'.toTenure
  cursors hl'' hl hterm := by
    obtain ⟨hl', hterm'⟩ := h.toOffice.between h'.toOffice hl hl'' hterm
    obtain ⟨hc, hle⟩ := h.cursors hl' hl hterm'
    obtain ⟨hc', hle'⟩ := h'.cursors hl'' hl' (hterm.trans hterm'.symm)
    exact ⟨hc'.trans hc, hle.trans hle'⟩
  opened hl'' hno := by
    by_cases hsame : r'.state = .kLeader ∧ r''.currentTerm = r'.currentTerm
    · obtain ⟨hl', hterm⟩ := hsame
      obtain ⟨hc, hle⟩ := h'.cursors hl'' hl' hterm
      refine (h.opened hl' fun hl heq => hno hl (hterm.trans heq)).keep h'.peers hc hle
    · exact h'.opened hl'' fun hl' hterm => hsame ⟨hl', hterm⟩

theorem Office.of_part (h : r'.officePart = r.officePart) : Office r r' := by
  simp only [officePart, Prod.mk.injEq] at h
  obtain ⟨hpeers, hkilled, hstate, hterm⟩ := h
  refine ⟨hpeers, fun hk => hkilled.trans hk, hterm.ge, fun hs => .inr ⟨hterm, ?_, ?_⟩⟩
  · rwa [← hstate]
  · exact fun hl => hstate.trans hl

/-- All that has a part in an office. -/
def tenurePart (r : Raft) : (Nat × Bool × ServerState × Int) × List Bool × List Int :=
  (r.officePart, r.transferPart)

theorem Tenure.of_part (h : r'.tenurePart = r.tenurePart) : Tenure r r' :=
  ⟨.of_part (congrArg Prod.fst h), congrArg Prod.snd h⟩

theorem Abides.of_parts (h : r'.tenurePart = r.tenurePart) (hc : r'.cursorPart = r.cursorPart)
    (hle : r.lastLogIndexLocked ≤ r'.lastLogIndexLocked) : Abides r r' := by
  have hoffice := congrArg Prod.fst h
  simp only [tenurePart, officePart, Prod.mk.injEq] at hoffice
  obtain ⟨-, -, hstate, hterm⟩ := hoffice
  exact ⟨.of_part h, fun _ _ _ => ⟨hc, hle⟩, fun hl hno => absurd hterm (hno (hstate ▸ hl))⟩

/-- Nothing that has a part in an office is written. -/
theorem Abides.of_same (h : r'.tenurePart = r.tenurePart) (hc : r'.cursorPart = r.cursorPart)
    (hlogs : r'.logs = r.logs) : Abides r r' := by
  refine .of_parts h hc ?_
  rw [lastLogIndexLocked, lastLogIndexLocked, hlogs]

/-- A node that is no leader has no cursors to keep. -/
theorem Tenure.abides (h : Tenure r r') (hl : r'.state ≠ .kLeader) : Abides r r' :=
  ⟨h, fun hl' => absurd hl' hl, fun hl' => absurd hl' hl⟩

theorem abides_persistLocked (r : Raft) : Abides r r.persistLocked := by
  rw [persistLocked]
  split_ifs <;> exact .of_same rfl rfl rfl

theorem Abides.persist (h : Abides r r') : Abides r r'.persistLocked := h.trans (abides_persistLocked r')

theorem Tenure.persist (h : Tenure r r') : Tenure r r'.persistLocked :=
  h.trans (abides_persistLocked r').toTenure

/-- A node becomes follower, in its term or in a later one. -/
theorem abides_follower (hpeers : r'.peers = r.peers) (hkilled : r'.killed = r.killed)
    (htransfers : r'.transferPart = r.transferPart) (hstate : r'.state = .kFollower)
    (hterm : r.currentTerm ≤ r'.currentTerm) : Abides r r' :=
  Tenure.abides ⟨⟨hpeers, fun hk => hkilled.trans hk, hterm, fun h => absurd hstate h⟩, htransfers⟩
    (by simp [hstate])

theorem abides_convertToFollowerLocked {term : Int} (h : r.currentTerm ≤ term) :
    Abides r (r.convertToFollowerLocked term) := by
  refine Abides.persist ?_
  exact abides_follower rfl rfl rfl rfl h

theorem convertToFollowerLocked_officePart (r : Raft) (term : Int) :
    (r.convertToFollowerLocked term).officePart = (r.peers, r.killed, .kFollower, term) := by
  rw [convertToFollowerLocked, persistLocked]
  split_ifs <;> rfl

theorem abides_stepDownTo {term : Int} (h : r.currentTerm < term) (now : Int) :
    Abides r (r.stepDownTo term now) :=
  (abides_convertToFollowerLocked h.le).trans (.of_same rfl rfl rfl)

theorem abides_beginPrevote (r : Raft) (now : Int) : Abides r (r.beginPrevote now).1 := by
  rw [beginPrevote]
  dsimp only
  split_ifs
  all_goals exact .of_same rfl rfl rfl

theorem abides_startElection (r : Raft) (now : Int) : Abides r (r.startElection now).1 := by
  rw [startElection]
  split_ifs
  · exact .refl r
  · exact (abides_convertToFollowerLocked le_rfl).trans (abides_beginPrevote _ now)
  · exact abides_beginPrevote r now

theorem abides_electionTimeout (r : Raft) (now : Int) : Abides r (r.electionTimeout now).1 := by
  rw [electionTimeout]
  split_ifs
  · exact .refl r
  · exact .of_same rfl rfl rfl
  · exact abides_startElection r now

theorem abides_leaderTick (r : Raft) (now : Int) : Abides r (r.leaderTick now) := by
  have hcheck : Abides r { r with lastQuorumCheck := now } := .of_same rfl rfl rfl
  rw [leaderTick]
  dsimp only
  split_ifs
  · exact .refl r
  · exact hcheck.trans (abides_convertToFollowerLocked le_rfl)
  · exact .of_same rfl rfl rfl
  · exact .of_same rfl rfl rfl

theorem abides_prevoteReply (r : Raft) (args : RequestPreVoteArgs) (i : Nat)
    (reply : RequestPreVoteReply) (now : Int) : Abides r (r.prevoteReply args i reply now).1 := by
  rw [prevoteReply]
  split_ifs with _ hterm
  · exact .refl r
  · exact abides_stepDownTo hterm now
  · exact .of_same rfl rfl rfl
  · exact .refl r

/-- A candidate stands in a term of its own. -/
theorem abides_standForTerm (r : Raft) (now : Int) : Abides r (r.standForTerm now).1 := by
  have hstands : ∀ x : Raft, x.peers = r.peers → x.killed = r.killed →
      x.transferPart = r.transferPart → x.state = .kCandidate → x.currentTerm = r.currentTerm + 1 →
      Abides r x := by
    intro x hpeers hkilled htransfers hstate hterm
    refine Tenure.abides ⟨⟨hpeers, fun hk => hkilled.trans hk, by omega, fun _ => ?_⟩, htransfers⟩
      (by simp [hstate])
    exact .inl (by omega)
  rw [standForTerm]
  dsimp only
  split_ifs
  · exact .of_same rfl rfl rfl
  · refine Abides.persist ?_
    exact hstands _ rfl rfl rfl rfl rfl
  · refine Abides.persist ?_
    exact hstands _ rfl rfl rfl rfl rfl

theorem abides_decideVote (r : Raft) (args : RequestVoteArgs) (reply : RequestVoteReply) (now : Int) :
    Abides r (r.decideVote args reply now).1 := by
  rw [decideVote]
  split_ifs
  · exact .refl r
  · refine Abides.persist ?_
    exact .of_same rfl rfl rfl
  · exact .refl r
  · exact .refl r

theorem abides_requestVote (r : Raft) (args : RequestVoteArgs) (now : Int) :
    Abides r (r.requestVote args now).1 := by
  rw [requestVote]
  dsimp only
  split_ifs with _ hterm
  · exact .refl r
  · exact (abides_convertToFollowerLocked hterm.le).trans (abides_decideVote _ args _ now)
  · exact abides_decideVote r args _ now

theorem abides_noteReached (r : Raft) (s : Nat) (ok : Bool) : Abides r (r.noteReached s ok) :=
  .of_same rfl rfl rfl

theorem abides_recordReadAckLocked (r : Raft) (ctx s : Nat) : Abides r (r.recordReadAckLocked ctx s) := by
  rw [recordReadAckLocked]
  split_ifs
  · exact .refl r
  · dsimp only
    split_ifs
    · exact .refl r
    · exact .of_same rfl rfl rfl

theorem abides_noteAck (r : Raft) (s ctx : Nat) (now : Int) : Abides r (r.noteAck s ctx now) := by
  have hack : Abides r { r with lastAckTime := r.lastAckTime.set s now } := .of_same rfl rfl rfl
  rw [noteAck]
  split_ifs
  · exact hack.trans (abides_recordReadAckLocked _ ctx s)
  · exact hack

theorem abides_readHeartbeatReply (r : Raft) (args : AppendEntriesArgs) (s : Nat)
    (reply : AppendEntriesReply) (now : Int) : Abides r (r.readHeartbeatReply args s reply now) := by
  have hack : Abides r { r with lastAckTime := r.lastAckTime.set s now } := .of_same rfl rfl rfl
  rw [readHeartbeatReply]
  dsimp only
  split_ifs with _ hterm
  · exact .refl r
  · exact abides_stepDownTo hterm now
  · exact .refl r
  · exact hack.trans (abides_recordReadAckLocked _ _ s)
  · exact hack

theorem abides_advanceCommitIndexLocked (r : Raft) : Abides r r.advanceCommitIndexLocked.1 := by
  rw [advanceCommitIndexLocked]
  dsimp only
  split_ifs <;> exact .of_same rfl rfl rfl

/-- A callback of `Raft.AppendEntries` does nothing to a transfer. -/
theorem tenure_appendReply (r : Raft) (args : AppendEntriesArgs) (s : Nat) (ok : Bool)
    (reply : AppendEntriesReply) (now : Int) : Tenure r (r.appendReply args s ok reply now).1 := by
  have hreached := abides_noteReached r s ok
  have hack := hreached.trans (abides_noteAck _ s reply.readCtx now)
  have haccepted : ∀ x : Raft, Tenure x (x.appendAccepted args s now).1 := by
    intro x
    rw [appendAccepted]
    refine Tenure.trans ?_ (abides_advanceCommitIndexLocked _).toTenure
    split_ifs <;> exact .of_part rfl
  rw [appendReply]
  dsimp only
  split_ifs with _ _ hterm
  · exact .refl r
  · exact (hreached.trans (abides_stepDownTo hterm now)).toTenure
  · exact hreached.toTenure
  · exact hack.toTenure.trans (haccepted _)
  · exact hack.toTenure.trans (.of_part rfl)
  · exact hreached.toTenure

theorem appendNoop_tenurePart (r : Raft) : r.appendNoop.tenurePart = r.tenurePart := by
  rw [appendNoop]
  dsimp only
  split_ifs
  · rfl
  · rw [persistLocked]
    split_ifs <;> rfl
  · rfl

/-- A candidate takes office, in the term it stood in. -/
theorem tenure_becomeLeaderIfQuorumLocked (r : Raft) (now : Int) :
    Tenure r (r.becomeLeaderIfQuorumLocked now) := by
  rw [becomeLeaderIfQuorumLocked]
  split_ifs with hno
  · exact .refl r
  · rw [not_or, not_not] at hno
    have hpart := appendNoop_tenurePart { r with lastQuorumCheck := now }
    simp only [tenurePart, officePart, Prod.mk.injEq] at hpart
    obtain ⟨⟨hpeers, hkilled, -, hterm⟩, htransfers⟩ := hpart
    exact ⟨⟨hpeers, fun hk => hkilled.trans hk, hterm.ge,
      fun _ => .inr ⟨hterm, by simp [hno.1], fun _ => rfl⟩⟩, htransfers⟩

theorem Level.last_nonneg (h : r.Level) : 0 ≤ r.lastLogIndexLocked := by
  have hlast := h.log.lastIndexOf_eq
  have hheld := h.log.length_pos
  have hpos := h.pos
  rw [lastLogIndexLocked]
  omega

theorem abides_becomeLeaderIfQuorumLocked (h : r.Level) (now : Int) :
    Abides r (r.becomeLeaderIfQuorumLocked now) := by
  have htenure := tenure_becomeLeaderIfQuorumLocked r now
  by_cases hno : r.state ≠ .kCandidate ∨ ¬ r.voter r.me ∨ r.countGrantedVotesLocked < r.quorumSizeLocked
  · rw [becomeLeaderIfQuorumLocked, if_pos hno]
    exact .refl r
  · have hcandidate : r.state = .kCandidate := not_not.mp (not_or.mp hno).1
    refine ⟨htenure, fun _ hl => absurd hl (by simp [hcandidate]), fun _ _ => ?_⟩
    have hlevel₀ : Level { r with lastQuorumCheck := now } := ⟨h.pos, h.log⟩
    have hlast := (hlevel₀.edited (edited_appendNoop _)).last_nonneg
    rw [becomeLeaderIfQuorumLocked, if_neg hno]
    exact ⟨_, rfl, by omega, le_rfl⟩

theorem tenure_voteReply (r : Raft) (args : RequestVoteArgs) (i : Nat) (reply : RequestVoteReply)
    (now : Int) : Tenure r (r.voteReply args i reply now) := by
  rw [voteReply]
  split_ifs with _ hterm
  · exact .refl r
  · exact (abides_stepDownTo hterm now).toTenure
  · refine Tenure.trans ?_ (tenure_becomeLeaderIfQuorumLocked _ now)
    exact .of_part rfl
  · exact .refl r

theorem abides_voteReply (h : r.Level) (args : RequestVoteArgs) (i : Nat) (reply : RequestVoteReply)
    (now : Int) : Abides r (r.voteReply args i reply now) := by
  have hcount : Level { r with numVotes := r.numVotes + 1, voteGranted := r.voteGranted.set i 1 } :=
    ⟨h.pos, h.log⟩
  rw [voteReply]
  split_ifs with _ hterm
  · exact .refl r
  · exact abides_stepDownTo hterm now
  · refine Abides.trans ?_ (abides_becomeLeaderIfQuorumLocked hcount now)
    exact .of_same rfl rfl rfl
  · exact .refl r

/-- An entry at the end of the log. -/
theorem abides_push {e : LogEntry} (h : r'.tenurePart = r.tenurePart) (hc : r'.cursorPart = r.cursorPart)
    (hlogs : r'.logs = r.logs ++ [e]) (he : e.index = r.lastLogIndexLocked + 1) : Abides r r' := by
  refine .of_parts h hc ?_
  have hlast : r'.lastLogIndexLocked = e.index := by simp [lastLogIndexLocked, lastIndexOf, hlogs]
  omega

theorem abides_start (r : Raft) (command : Command) : Abides r (r.start command).1 := by
  rw [start]
  split_ifs
  · exact .refl r
  · exact .refl r
  · exact .refl r
  · refine Abides.trans ?_ (abides_advanceCommitIndexLocked _)
    rw [persistLog]
    split_ifs
    · exact abides_push rfl rfl rfl rfl
    · refine Abides.persist ?_
      exact abides_push rfl rfl rfl rfl

theorem abides_confProposed {server : Int} {target : MemberRole}
    (h : r.confProposed server target = some r') : Abides r r' := by
  rw [confProposed] at h
  simp only [Option.ite_none_left_eq_some] at h
  obtain ⟨-, -, -, -, -, -, h⟩ := h
  cases h
  refine Abides.persist ?_
  exact abides_push rfl rfl rfl rfl

/-- Entries are merged without regard to the office. -/
theorem tenure_appendEntriesLocked (r : Raft) (args : AppendEntriesArgs) (reply : AppendEntriesReply) :
    Tenure r (r.appendEntriesLocked args reply).1 := by
  have hmerge : Tenure r (r.mergeLocked args) := by
    rw [mergeLocked]
    dsimp only
    split_ifs
    · refine Tenure.persist ?_
      exact .of_part rfl
    · exact .of_part rfl
  rw [appendEntriesLocked]
  split_ifs
  · exact .refl r
  · exact .refl r
  · refine hmerge.trans ?_
    rw [followCommit]
    split_ifs <;> exact .of_part rfl

theorem appendEntriesLocked_state (r : Raft) (args : AppendEntriesArgs) (reply : AppendEntriesReply) :
    (r.appendEntriesLocked args reply).1.state = r.state := by
  have h := appendEntriesLocked_memberPart r args reply
  simp only [memberPart, Prod.mk.injEq] at h
  exact h.2.2.2

/-- A node that is no leader merges entries. -/
theorem abides_appendEntriesLocked (h : r.state ≠ .kLeader) (args : AppendEntriesArgs)
    (reply : AppendEntriesReply) : Abides r (r.appendEntriesLocked args reply).1 :=
  (tenure_appendEntriesLocked r args reply).abides (by rwa [appendEntriesLocked_state])

theorem abides_applyConf (r : Raft) (idx : Int) (e : LogEntry) : Abides r (r.applyConf idx e) := by
  rw [applyConf]
  refine Abides.persist ?_
  split_ifs <;> exact .of_same rfl rfl rfl

theorem abides_applyConfAfter (r : Raft) (now : Int) : Abides r (r.applyConfAfter now) := by
  rw [applyConfAfter]
  split_ifs <;> exact .of_same rfl rfl rfl

theorem abides_applyTurn (r : Raft) (idx : Int) : Abides r ((r.applyTurn idx).raft r) := by
  have happlied : ∀ i, Abides r { r with lastApplied := i } := fun _ => .of_same rfl rfl rfl
  rw [applyTurn]
  dsimp only
  split_ifs
  · exact .refl r
  · exact happlied _
  · exact (happlied idx).trans (abides_applyConf _ idx _)
  · exact happlied idx
  · exact .refl r

theorem abides_applyRun (r : Raft) (now : Int) (k : Nat) (idx : Int) (batch : List ApplyMsg) :
    Abides r (r.applyRun now k idx batch).1 :=
  applyRun_induction .refl (fun h h' => h.trans h') abides_applyTurn abides_applyConfAfter r now k idx batch

theorem abides_openBuffer {args : InstallSnapshotArgs} (h : r.openBuffer args = some r') : Abides r r' := by
  rw [openBuffer] at h
  split_ifs at h
  all_goals cases h; exact .of_same rfl rfl rfl

theorem abides_addChunk (r : Raft) (args : InstallSnapshotArgs) : Abides r (r.addChunk args).1 := by
  rw [addChunk]
  dsimp only
  split_ifs <;> exact .of_same rfl rfl rfl

theorem abides_installReceive (r : Raft) (args : InstallSnapshotArgs) (reply : InstallSnapshotReply)
    (now : Int) : Abides r (r.installReceive args reply now).1 := by
  have h : Abides r { r with lastHeartbeat := now, leaderId := args.leaderId } := .of_same rfl rfl rfl
  rw [installReceive]
  refine h.trans ?_
  dsimp only
  split_ifs
  · exact .refl _
  · split
    · exact .refl _
    · next r' h => exact (abides_openBuffer h).trans (abides_addChunk r' args)

theorem abides_readIndexOpen (r : Raft) (now : Int) : Abides r (r.readIndexOpen now).1 := by
  rw [readIndexOpen]
  split_ifs
  · exact .refl r
  · exact .refl r
  · exact .refl r
  · exact .refl r
  · exact .refl r
  · split <;> exact .of_same rfl rfl rfl

theorem abides_readIndexPoll (r : Raft) (ctx : Nat) (term readIndex deadline now : Int) :
    Abides r (r.readIndexPoll ctx term readIndex deadline now).1 := by
  rw [readIndexPoll]
  dsimp only [readIndexLeave]
  split_ifs <;> exact .of_same rfl rfl rfl

theorem tenure_snapshotCut (r : Raft) (index term : Int) (data : Bytes) :
    Tenure r (r.snapshotCut index term data) := .of_part rfl

theorem tenure_installLogs (r : Raft) (args : InstallSnapshotArgs) (old : Int) :
    Tenure r (r.installLogs args old) := by
  refine Tenure.persist ?_
  exact .of_part rfl

theorem abides_snapshotCut (h : r.Level) {index : Int} (hle : r.snapshotIndex ≤ index) (term : Int)
    (data : Bytes) : Abides r (r.snapshotCut index term data) :=
  .of_parts rfl rfl (lastIndexOf_cutLogs h.log hle term)

theorem abides_installLogs (h : r.Level) {args : InstallSnapshotArgs}
    (hle : r.snapshotIndex ≤ args.lastIncludedIndex) (blob : Bytes) :
    Abides r ((r.installBegin args blob).installLogs args r.snapshotIndex) := by
  rw [installLogs, installPos_of_le hle]
  refine Abides.persist ?_
  exact .of_parts rfl rfl (lastIndexOf_cutLogs h.log hle _)

end Raft
end ChonKV
