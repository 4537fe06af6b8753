import ChonKV.Cluster.Step
import ChonKV.Durable.Changes

/-!
What a stretch of a handler does to the office of its node: a leader goes on, commits an entry of its own term,
or takes office; everything else commits and saves no more than it was told.
-/

set_option autoImplicit false

namespace ChonKV
namespace Raft

/-- The leader goes on in its term. -/
structure GoesOn (r r' : Raft) : Prop where
  leader : r.state = .kLeader
  term : r'.currentTerm = r.currentTerm
  safe : r'.readSafeCommit = r.readSafeCommit
  commit : r.commitIndex ≤ r'.commitIndex
  logs : ∀ e ∈ r'.logs.tail, e ∈ r.logs.tail ∨ e.term = r.currentTerm

/-- Nothing beyond `M` is committed or saved, and nobody takes office. -/
structure Modest (M : Int) (r r' : Raft) : Prop where
  killed : r'.killed = r.killed
  commit : r.commitIndex ≤ M → r'.commitIndex ≤ M
  blob : r.savedBlobIndex ≤ M → r'.savedBlobIndex ≤ M
  office : r'.state = .kLeader → GoesOn r r'

/-- The leader commits an entry of its own term. -/
structure CommitsOwn (r r' : Raft) : Prop extends GoesOn r r' where
  alive : r.killed = false
  killed : r'.killed = r.killed
  stays : r'.state = .kLeader
  blob : r'.savedBlobIndex = r.savedBlobIndex
  own : r'.inLogs r'.commitIndex ∧ (r'.logAt r'.commitIndex).term = r'.currentTerm

/-- A node takes office; until all that it holds is committed, it serves no reads. -/
structure TakesOffice (r r' : Raft) : Prop where
  killed : r'.killed = r.killed
  commit : r'.commitIndex = r.commitIndex
  blob : r'.savedBlobIndex = r.savedBlobIndex
  safe : r'.lastLogIndexLocked ≤ r'.readSafeCommit

/-- Every stretch of a node that is up. -/
inductive Ruled (M : Int) (r r' : Raft) : Prop where
  | modest (h : Modest M r r')
  | commits (h : CommitsOwn r r')
  | takesOffice (h : TakesOffice r r')

variable {M : Int} {r r' r'' : Raft}

theorem GoesOn.refl (h : r.state = .kLeader) : GoesOn r r := ⟨h, rfl, rfl, le_rfl, fun _ he => .inl he⟩

theorem GoesOn.trans (h : GoesOn r r') (h' : GoesOn r' r'') : GoesOn r r'' where
  leader := h.leader
  term := h'.term.trans h.term
  safe := h'.safe.trans h.safe
  commit := h.commit.trans h'.commit
  logs e he := by
    rcases h'.logs e he with he | ht
    · exact h.logs e he
    · exact .inr (ht.trans h.term)

theorem Modest.refl (r : Raft) : Modest M r r := ⟨rfl, id, id, .refl⟩

theorem Modest.trans (h : Modest M r r') (h' : Modest M r' r'') : Modest M r r'' where
  killed := h'.killed.trans h.killed
  commit hc := h'.commit (h.commit hc)
  blob hb := h'.blob (h.blob hb)
  office hl := (h.office (h'.office hl).leader).trans (h'.office hl)

/-- What the office depends on. -/
def seatPart (r : Raft) : Bool × Int × ServerState × Int × Int × Int × List LogEntry :=
  (r.killed, r.savedBlobIndex, r.state, r.currentTerm, r.readSafeCommit, r.commitIndex, r.logs)

theorem Modest.of_part (h : r'.seatPart = r.seatPart) : Modest M r r' := by
  simp only [seatPart, Prod.mk.injEq] at h
  obtain ⟨hkilled, hblob, hstate, hterm, hsafe, hcommit, hlogs⟩ := h
  exact ⟨hkilled, fun hc => hcommit ▸ hc, fun hb => hblob ▸ hb, fun hl => ⟨hstate ▸ hl, hterm, hsafe, hcommit.ge,
    fun e he => .inl (hlogs ▸ he)⟩⟩

/-- A node that does not lead afterwards. -/
theorem Modest.off (hkilled : r'.killed = r.killed) (hstate : r'.state ≠ .kLeader) (hcommit : r.commitIndex ≤ M → r'.commitIndex ≤ M)
    (hblob : r.savedBlobIndex ≤ M → r'.savedBlobIndex ≤ M) : Modest M r r' :=
  ⟨hkilled, hcommit, hblob, fun hl => absurd hl hstate⟩

@[simp] theorem persistLocked_seatPart (r : Raft) : r.persistLocked.seatPart = r.seatPart := by
  rw [persistLocked]
  split_ifs <;> rfl

theorem Modest.persist (h : Modest M r r') : Modest M r r'.persistLocked :=
  h.trans (.of_part (persistLocked_seatPart r'))

theorem Modest.same (h : Modest M r r') (hp : r''.seatPart = r'.seatPart) : Modest M r r'' :=
  h.trans (.of_part hp)

theorem modest_convertToFollowerLocked (r : Raft) (T : Int) : Modest M r (r.convertToFollowerLocked T) := by
  refine Modest.persist (.off ?_ ?_ ?_ ?_)
  · rfl
  · exact fun h => by cases h
  · exact id
  · exact id

theorem modest_stepDownTo (r : Raft) (T now : Int) : Modest M r (r.stepDownTo T now) :=
  (modest_convertToFollowerLocked r T).same rfl

theorem modest_beginPrevote (r : Raft) (now : Int) : Modest M r (r.beginPrevote now).1 := by
  rw [beginPrevote]
  dsimp only
  split_ifs
  all_goals exact .of_part rfl

theorem modest_electionTimeout (r : Raft) (now : Int) : Modest M r (r.electionTimeout now).1 := by
  rw [electionTimeout, startElection]
  split_ifs
  · exact .refl r
  · exact .of_part rfl
  · exact .refl r
  · exact (modest_convertToFollowerLocked r _).trans (modest_beginPrevote _ now)
  · exact modest_beginPrevote r now

theorem modest_leaderTick (r : Raft) (now : Int) : Modest M r (r.leaderTick now) := by
  rw [leaderTick]
  dsimp only
  split_ifs
  · exact .refl r
  · have hcheck : Modest M r { r with lastQuorumCheck := now } := .of_part rfl
    exact hcheck.trans (modest_convertToFollowerLocked _ _)
  · exact .of_part rfl
  · exact .of_part rfl

theorem modest_prevoteReply (r : Raft) (args : RequestPreVoteArgs) (i : Nat) (reply : RequestPreVoteReply)
    (now : Int) : Modest M r (r.prevoteReply args i reply now).1 := by
  rw [prevoteReply]
  split_ifs
  · exact .refl r
  · exact modest_stepDownTo r _ now
  · exact .of_part rfl
  · exact .refl r

theorem modest_standForTerm (r : Raft) (now : Int) : Modest M r (r.standForTerm now).1 := by
  have hcand : ∀ r' : Raft, r'.killed = r.killed → r'.state = .kCandidate → r'.commitIndex = r.commitIndex →
      r'.savedBlobIndex = r.savedBlobIndex → Modest M r r'.persistLocked := fun r' hk hs hc hb =>
    Modest.persist (.off hk (by simp [hs]) (fun h => hc ▸ h) fun h => hb ▸ h)
  rw [standForTerm]
  dsimp only
  split_ifs
  · exact .of_part rfl
  · exact hcand _ rfl rfl rfl rfl
  · exact hcand _ rfl rfl rfl rfl

theorem modest_decideVote (r : Raft) (args : RequestVoteArgs) (reply : RequestVoteReply) (now : Int) :
    Modest M r (r.decideVote args reply now).1 := by
  rw [decideVote]
  split_ifs
  · exact .refl r
  · refine Modest.persist (.of_part ?_)
    rfl
  · exact .refl r
  · exact .refl r

theorem modest_requestVote (r : Raft) (args : RequestVoteArgs) (now : Int) :
    Modest M r (r.requestVote args now).1 := by
  rw [requestVote]
  dsimp only
  split_ifs
  · exact .refl r
  · exact (modest_convertToFollowerLocked r _).trans (modest_decideVote _ args _ now)
  · exact modest_decideVote r args _ now

theorem seatPart_recordReadAckLocked (r : Raft) (ctx s : Nat) :
    (r.recordReadAckLocked ctx s).seatPart = r.seatPart := by
  rw [recordReadAckLocked]
  dsimp only
  split_ifs <;> rfl

theorem seatPart_noteAck (r : Raft) (s ctx : Nat) (now : Int) : (r.noteAck s ctx now).seatPart = r.seatPart := by
  rw [noteAck]
  split_ifs
  · exact seatPart_recordReadAckLocked _ ctx s
  · rfl

theorem modest_readHeartbeatReply (r : Raft) (args : AppendEntriesArgs) (s : Nat) (reply : AppendEntriesReply)
    (now : Int) : Modest M r (r.readHeartbeatReply args s reply now) := by
  rw [readHeartbeatReply]
  dsimp only
  split_ifs
  · exact .refl r
  · exact modest_stepDownTo r _ now
  · exact .refl r
  · exact .of_part (seatPart_recordReadAckLocked _ _ s)
  · exact .of_part rfl

theorem modest_snapshotReply (r : Raft) (args : InstallSnapshotArgs) (s : Nat) (ok : Bool)
    (reply : InstallSnapshotReply) (now : Int) : Modest M r (r.snapshotReply args s ok reply now) := by
  have hdown : ∀ term, Modest M r { (r.noteReached s ok).stepDownTo term now with
      snapInFlight := ((r.noteReached s ok).stepDownTo term now).snapInFlight.set s false } := by
    intro term
    have hreached : Modest M r (r.noteReached s ok) := .of_part rfl
    exact (hreached.trans (modest_stepDownTo _ term now)).same rfl
  rw [snapshotReply]
  dsimp only
  split_ifs
  all_goals first | exact hdown _ | exact .of_part rfl

theorem seatPart_freezeRemoved (r : Raft) (s : Nat) (p : Progress) :
    (r.freezeRemoved s p).1.seatPart = r.seatPart := by
  rw [freezeRemoved]
  dsimp only
  split_ifs <;> rfl

theorem seatPart_sendTo (r : Raft) (s : Nat) (p : Progress) (now : Int) :
    (r.sendTo s p now).1.seatPart = r.seatPart := by
  rw [sendTo]
  dsimp only
  split_ifs
  · rw [sendSnapshot]
    dsimp only
    split_ifs <;> rfl
  · rw [sendAppend]
    split_ifs <;> rfl

theorem modest_replicate (r : Raft) (s : Nat) (now : Int) : Modest M r (r.replicate s now).1 := by
  rw [replicate]
  dsimp only
  split_ifs
  · exact .refl r
  · exact .of_part rfl
  · exact modest_convertToFollowerLocked r _
  · exact .of_part (seatPart_freezeRemoved r s _)
  · exact .of_part ((seatPart_sendTo _ s _ now).trans (seatPart_freezeRemoved r s _))

theorem seatPart_openBuffer {args : InstallSnapshotArgs} (h : r.openBuffer args = some r') :
    r'.seatPart = r.seatPart := by
  rw [openBuffer] at h
  split_ifs at h
  all_goals cases h; rfl

theorem seatPart_installReceive (r : Raft) (args : InstallSnapshotArgs) (reply : InstallSnapshotReply)
    (now : Int) : (r.installReceive args reply now).1.seatPart = r.seatPart := by
  rw [installReceive]
  dsimp only
  split_ifs
  · rfl
  · split
    · rfl
    · next r' hopen =>
      refine Eq.trans ?_ ((seatPart_openBuffer hopen).trans rfl)
      rw [addChunk]
      dsimp only
      split_ifs <;> rfl

theorem modest_installSnapshot (r : Raft) (args : InstallSnapshotArgs) (now : Int) :
    Modest M r (r.installSnapshot args now).1 := by
  rw [installSnapshot]
  dsimp only
  split_ifs
  · exact .refl r
  · exact (modest_convertToFollowerLocked r _).same (seatPart_installReceive _ args _ now)
  · exact .of_part (seatPart_installReceive r args _ now)

theorem modest_saveSnapshotBlob (r : Raft) {index : Int} (term : Int) (raw : Bytes) (h : index ≤ M) :
    Modest M r (r.saveSnapshotBlob index term raw) := by
  rw [saveSnapshotBlob]
  split_ifs
  · exact .refl r
  · exact ⟨rfl, id, fun _ => h, fun hl => ⟨hl, rfl, rfl, le_rfl, fun e he => .inl he⟩⟩

theorem mem_tail_cutLogs {logs : List LogEntry} {pos : Nat} {term index : Int} {e : LogEntry}
    (he : e ∈ (cutLogs logs pos term index).tail) : e ∈ logs.tail := by
  have hdrop : (cutLogs logs pos term index).tail = logs.tail.drop pos := by
    rw [cutLogs, List.tail_cons, ← List.drop_one, List.drop_drop, Nat.add_comm]
  exact List.mem_of_mem_drop (hdrop ▸ he)

theorem modest_snapshotCommit (r : Raft) (index term : Int) (data : Bytes) :
    Modest M r (r.snapshotCommit index term data).1 := by
  rw [snapshotCommit]
  split_ifs
  · exact .refl r
  · refine Modest.persist ⟨rfl, id, id, fun hl => ⟨hl, rfl, rfl, le_rfl, fun e he => .inl ?_⟩⟩
    exact mem_tail_cutLogs he

theorem modest_installLogs (r : Raft) {args : InstallSnapshotArgs} (old : Int) (h : args.lastIncludedIndex ≤ M) :
    Modest M r (r.installLogs args old) := by
  refine Modest.persist ⟨rfl, fun hc => max_le hc h, id, fun hl => ⟨hl, rfl, rfl, le_max_left _ _, fun e he => .inl ?_⟩⟩
  exact mem_tail_cutLogs he

theorem modest_installCommit (r : Raft) {args : InstallSnapshotArgs} (blob : Bytes)
    (h : args.lastIncludedIndex ≤ M) : Modest M r (r.installCommit args blob).1 := by
  have hbegin : Modest M r (r.installBegin args blob) := .of_part rfl
  rw [installCommit]
  dsimp only
  split_ifs
  · exact .refl r
  · exact ((hbegin.trans (modest_convertToFollowerLocked _ _)).trans (modest_installLogs _ _ h)).same rfl
  · exact (hbegin.trans (modest_installLogs _ _ h)).same rfl

/-- A node that follows takes what the leader committed. -/
theorem modest_appendEntriesLocked {args : AppendEntriesArgs} (reply : AppendEntriesReply)
    (hstate : r.state = .kFollower) (h : args.leaderCommit ≤ M) :
    Modest M r (r.appendEntriesLocked args reply).1 := by
  have hmerge : Modest M r (r.mergeLocked args) ∧ (r.mergeLocked args).state = .kFollower := by
    rw [mergeLocked]
    dsimp only
    have hoff : ∀ r' : Raft, r'.killed = r.killed → r'.state = r.state → r'.commitIndex = r.commitIndex →
        r'.savedBlobIndex = r.savedBlobIndex → Modest M r r' := fun r' hk hs hc hb =>
      .off hk (by simp [hs, hstate]) (fun h => hc ▸ h) fun h => hb ▸ h
    split_ifs
    · refine ⟨Modest.persist (hoff _ rfl rfl rfl rfl), ?_⟩
      rw [persistLocked]
      split_ifs <;> exact hstate
    · exact ⟨hoff _ rfl rfl rfl rfl, hstate⟩
  rw [appendEntriesLocked, followCommit]
  dsimp only
  split_ifs
  · exact .refl r
  · exact .refl r
  · refine hmerge.1.trans (.off ?_ ?_ (fun _ => ?_) id)
    · rfl
    · simp [hmerge.2]
    · exact (min_le_left _ _).trans h
  · exact hmerge.1

theorem modest_appendEntries (r : Raft) {args : AppendEntriesArgs} (now : Int) (h : args.leaderCommit ≤ M) :
    Modest M r (r.appendEntries args now).1 := by
  have hheard : Modest M r (r.heardLeader args now) := .of_part rfl
  rw [appendEntries]
  dsimp only
  split_ifs with _ hturn
  · exact .refl r
  · refine (hheard.trans (modest_convertToFollowerLocked _ _)).trans (modest_appendEntriesLocked _ ?_ h)
    rw [convertToFollowerLocked, persistLocked]
    split_ifs <;> rfl
  · rw [not_or, not_not] at hturn
    exact hheard.trans (modest_appendEntriesLocked _ hturn.2 h)

theorem seatPart_readIndexOpen (r : Raft) (now : Int) : (r.readIndexOpen now).1.seatPart = r.seatPart := by
  rw [readIndexOpen]
  split_ifs
  all_goals first | rfl | (split <;> rfl)

theorem seatPart_readIndexPoll (r : Raft) (ctx : Nat) (term readIndex deadline now : Int) :
    (r.readIndexPoll ctx term readIndex deadline now).1.seatPart = r.seatPart := by
  rw [readIndexPoll]
  dsimp only [readIndexLeave]
  split_ifs <;> rfl

theorem seatPart_applyConf (r : Raft) (idx : Int) (e : LogEntry) : (r.applyConf idx e).seatPart = r.seatPart := by
  rw [applyConf]
  refine (persistLocked_seatPart _).trans ?_
  split_ifs <;> rfl

theorem seatPart_applyTurn (r : Raft) (idx : Int) : ((r.applyTurn idx).raft r).seatPart = r.seatPart := by
  rw [applyTurn]
  dsimp only
  split_ifs
  · rfl
  · rfl
  · exact seatPart_applyConf _ idx _
  · rfl
  · rfl

theorem seatPart_applyConfAfter (r : Raft) (now : Int) : (r.applyConfAfter now).seatPart = r.seatPart := by
  rw [applyConfAfter]
  split_ifs <;> rfl

theorem seatPart_applyBatch (r : Raft) (now : Int) (m : Nat) (idx : Int) :
    (r.applyBatch now m idx).1.seatPart = r.seatPart := by
  induction m generalizing r idx with
  | zero => rfl
  | succ m ih =>
    have hturn := seatPart_applyTurn r idx
    rw [applyBatch]
    cases ht : r.applyTurn idx with
    | stop => rfl
    | skip r' =>
      rw [ht] at hturn
      exact (ih r' _).trans hturn
    | dispatch r' msg =>
      rw [ht] at hturn
      exact (ih r' _).trans hturn
    | conf r' msg =>
      rw [ht] at hturn
      exact ((ih _ _).trans (seatPart_applyConfAfter r' now)).trans hturn

theorem seatPart_applyLoop (r : Raft) (now : Int) : (r.applyLoop now).1.seatPart = r.seatPart := by
  rw [applyLoop]
  by_cases hoff : r.killed ∨ 0 < r.installGateDepth
  · rw [if_pos hoff]
  · rw [if_neg hoff]
    cases r.pendingSnapshot with
    | some msg => rfl
    | none =>
      dsimp only
      split_ifs
      · exact seatPart_applyBatch r now _ _
      · rfl

/-- What the leader finds acknowledged by a majority, in its own term. -/
theorem advanceCommitIndexLocked_cases (r : Raft) : r.advanceCommitIndexLocked.1 = r ∨
    ∃ n, r.state = .kLeader ∧ r.commitIndex < n ∧ r.inLogs n ∧ (r.logAt n).term = r.currentTerm ∧
      r.advanceCommitIndexLocked.1 = { r with commitIndex := n } := by
  rw [advanceCommitIndexLocked]
  dsimp only
  split_ifs with hl _ hn
  · exact .inl rfl
  · exact .inl rfl
  · exact .inr ⟨_, not_not.mp hl, hn.1, hn.2.2.1, hn.2.2.2, rfl⟩
  · exact .inl rfl

theorem Modest.advance (h : Modest M r r') (hk : r.killed = false) (hb : r'.savedBlobIndex = r.savedBlobIndex) :
    Ruled M r r'.advanceCommitIndexLocked.1 := by
  rcases advanceCommitIndexLocked_cases r' with heq | ⟨n, hl, hlt, hin, hterm, heq⟩
  · rw [heq]
    exact .modest h
  · rw [heq]
    have hgo := h.office hl
    refine .commits ⟨⟨hgo.leader, hgo.term, hgo.safe, hgo.commit.trans hlt.le, hgo.logs⟩, hk, h.killed, hl, hb, ?_⟩
    exact ⟨hin, hterm⟩

theorem ruled_appendAccepted (h : r'.seatPart = r.seatPart) (hk : r.killed = false) (args : AppendEntriesArgs)
    (s : Nat) (now : Int) : Ruled M r (r'.appendAccepted args s now).1 := by
  rw [appendAccepted]
  split_ifs
  all_goals
    refine Modest.advance (.of_part ?_) hk ?_
    · exact h
    · exact congrArg (fun p => p.2.1) h

theorem ruled_appendReply (r : Raft) (args : AppendEntriesArgs) (s : Nat) (ok : Bool) (reply : AppendEntriesReply)
    (now : Int) : Ruled M r (r.appendReply args s ok reply now).1 := by
  have hreached : Modest M r (r.noteReached s ok) := .of_part rfl
  have hack : (((r.noteReached s ok).noteAck s reply.readCtx now)).seatPart = r.seatPart :=
    (seatPart_noteAck _ s _ now).trans rfl
  rw [appendReply]
  dsimp only
  split_ifs with hk
  · exact .modest (.refl r)
  · exact .modest (hreached.trans (modest_stepDownTo _ _ now))
  · exact .modest hreached
  · exact ruled_appendAccepted hack (by simpa using hk) args s now
  · exact .modest (.of_part hack)
  · exact .modest hreached

theorem mem_tail_concat {logs : List LogEntry} {x e : LogEntry} (he : e ∈ (logs ++ [x]).tail) :
    e ∈ logs.tail ∨ e = x := by
  cases logs with
  | nil => simp at he
  | cons a logs => simpa using he

theorem modest_push (h : r.state = .kLeader) {e : LogEntry} (ht : e.term = r.currentTerm) :
    Modest M r { r with logs := r.logs ++ [e], logStore := r.logStore.append e } := by
  refine ⟨rfl, id, id, fun _ => ⟨h, rfl, rfl, le_rfl, fun x hx => ?_⟩⟩
  refine (mem_tail_concat hx).imp_right ?_
  rintro rfl
  exact ht

theorem seatPart_persistLog (r : Raft) : r.persistLog.seatPart = r.seatPart := by
  rw [persistLog]
  split_ifs
  · rfl
  · exact persistLocked_seatPart r

theorem ruled_start (r : Raft) (command : Command) : Ruled M r (r.start command).1 := by
  rw [start]
  dsimp only
  split_ifs with hoff
  · exact .modest (.refl r)
  · exact .modest (.refl r)
  · exact .modest (.refl r)
  · rw [not_or, not_or, not_not] at hoff
    obtain ⟨hk, hl, -⟩ := hoff
    let entry : LogEntry := { term := r.currentTerm, index := r.lastLogIndexLocked + 1, command := command }
    have hpush : Modest M r { r with logs := r.logs ++ [entry], logStore := r.logStore.append entry } :=
      modest_push hl rfl
    have hpart := seatPart_persistLog { r with logs := r.logs ++ [entry], logStore := r.logStore.append entry }
    exact (hpush.same hpart).advance (by simpa using hk) (congrArg (fun p => p.2.1) hpart)

/-- Until its no-op is committed, a new leader serves no reads. -/
theorem appendNoop_takes (r : Raft) : r.appendNoop.killed = r.killed ∧ r.appendNoop.commitIndex = r.commitIndex ∧
    r.appendNoop.savedBlobIndex = r.savedBlobIndex ∧
    r.appendNoop.lastLogIndexLocked ≤ r.appendNoop.readSafeCommit := by
  rw [appendNoop]
  dsimp only
  split_ifs with hlt
  · exact ⟨rfl, rfl, rfl, le_rfl⟩
  · refine ⟨?_, ?_, ?_, le_rfl⟩
    all_goals
      rw [persistLocked]
      split_ifs <;> rfl
  · exact ⟨rfl, rfl, rfl, not_lt.mp hlt⟩

theorem ruled_becomeLeaderIfQuorumLocked (r : Raft) (now : Int) : Ruled M r (r.becomeLeaderIfQuorumLocked now) := by
  rw [becomeLeaderIfQuorumLocked]
  split_ifs
  · exact .modest (.refl r)
  · obtain ⟨hk, hc, hb, hs⟩ := appendNoop_takes { r with lastQuorumCheck := now }
    exact .takesOffice ⟨hk, hc, hb, hs⟩

/-- A stretch that begins as one that keeps to what there is. -/
theorem Ruled.after (h : Ruled M r' r'') (hk : r'.killed = r.killed) (hl : r'.state ≠ .kLeader) (hc : r'.commitIndex = r.commitIndex)
    (hb : r'.savedBlobIndex = r.savedBlobIndex) : Ruled M r r'' := by
  cases h with
  | modest h =>
    exact .modest ⟨h.killed.trans hk, fun hle => h.commit (hc ▸ hle), fun hle => h.blob (hb ▸ hle), fun hl' =>
      absurd (h.office hl').leader hl⟩
  | commits h => exact absurd h.leader hl
  | takesOffice h => exact .takesOffice ⟨h.killed.trans hk, h.commit.trans hc, h.blob.trans hb, h.safe⟩

theorem ruled_voteReply (r : Raft) (args : RequestVoteArgs) (i : Nat) (reply : RequestVoteReply) (now : Int) :
    Ruled M r (r.voteReply args i reply now) := by
  rw [voteReply]
  split_ifs with _ _ hcount
  · exact .modest (.refl r)
  · exact .modest (modest_stepDownTo r _ now)
  · refine (ruled_becomeLeaderIfQuorumLocked _ now).after rfl ?_ rfl rfl
    simp [hcount.1]
  · exact .modest (.refl r)

theorem standForTerm_stood (r : Raft) (now : Int) (h : (r.standForTerm now).2 = true) :
    (r.standForTerm now).1.killed = r.killed ∧ (r.standForTerm now).1.state = .kCandidate ∧ (r.standForTerm now).1.commitIndex = r.commitIndex ∧
      (r.standForTerm now).1.savedBlobIndex = r.savedBlobIndex := by
  rw [standForTerm] at h ⊢
  dsimp only at h ⊢
  split_ifs at h ⊢
  all_goals
    rw [persistLocked]
    split_ifs <;> exact ⟨rfl, rfl, rfl, rfl⟩

theorem ruled_startRealElection (r : Raft) (now : Int) : Ruled M r (r.startRealElection now).1 := by
  have hstand : Modest M r (r.standForTerm now).1 := modest_standForTerm r now
  rw [startRealElection]
  dsimp only
  split_ifs with hstood
  · obtain ⟨hk, hs, hc, hb⟩ := standForTerm_stood r now hstood
    exact (ruled_becomeLeaderIfQuorumLocked _ now).after hk (by simp [hs]) hc hb
  · exact .modest hstand
  · exact .modest hstand

theorem Ruled.killed (h : Ruled M r r') : r'.killed = r.killed := by
  cases h with
  | modest h => exact h.killed
  | commits h => exact h.killed
  | takesOffice h => exact h.killed

/-- How a stretch leaves the office of a node that leads afterwards. -/
theorem Ruled.office (h : Ruled M r r') (hl : r'.state = .kLeader) :
    GoesOn r r' ∨ r'.lastLogIndexLocked ≤ r'.readSafeCommit := by
  cases h with
  | modest h => exact .inl (h.office hl)
  | commits h => exact .inl h.toGoesOn
  | takesOffice h => exact .inr h.safe

/-- Unless a leader commits, nobody has committed more than before. -/
theorem Ruled.commit_le (h : Ruled M r r') (hle : r.commitIndex ≤ M) :
    r'.commitIndex ≤ M ∨ CommitsOwn r r' := by
  cases h with
  | modest h => exact .inl (h.commit hle)
  | commits h => exact .inr h
  | takesOffice h => exact .inl (h.commit.trans_le hle)

theorem Ruled.blob_le (h : Ruled M r r') (hle : r.savedBlobIndex ≤ M) : r'.savedBlobIndex ≤ M := by
  cases h with
  | modest h => exact h.blob hle
  | commits h => exact h.blob.trans_le hle
  | takesOffice h => exact h.blob.trans_le hle

/-- The entries that a leader does not serve yet stay those of its term. -/
theorem own_next (h : Ruled M r r') (hl : r'.state = .kLeader)
    (hold : r.state = .kLeader → ∀ e ∈ r.logs.tail, r.readSafeCommit < e.index → e.term = r.currentTerm)
    (hindex : ∀ e ∈ r'.logs.tail, e.index ≤ r'.lastLogIndexLocked) :
    ∀ e ∈ r'.logs.tail, r'.readSafeCommit < e.index → e.term = r'.currentTerm := by
  intro e he hlt
  rcases h.office hl with hgo | hsafe
  · rw [hgo.term]
    rcases hgo.logs e he with he | ht
    · exact hold hgo.leader e he (hgo.safe ▸ hlt)
    · exact ht
  · have := hindex e he
    omega

end Raft
end ChonKV
