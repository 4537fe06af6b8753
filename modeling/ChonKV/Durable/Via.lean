import ChonKV.Durable.Still

/-!
The events of a process that leave its snapshot alone: what they do to the `Raft` object, and which
threads they leave waiting.
-/

set_option autoImplicit false

namespace ChonKV

open Raft

/-- Not on the way of a snapshot, nor of entries. -/
def Stretch.Plain : Stretch → Prop
  | .append _ | .snapshotCommit _ _ _ | .truncateStore _ | .installCommit _ _ | .installLogs _ _ _
  | .installFinish _ _ => False
  | _ => True

/-- Besides, not on the way of a snapshot of its own. -/
def Stretch.Routine : Stretch → Prop
  | .saveBlob (.snapshot _ _ _) => False
  | st => st.Plain

theorem Stretch.Routine.plain {st : Stretch} (h : st.Routine) : st.Plain := by
  cases st <;> trivial

/-- Neither entries that arrive or are applied, nor a thread that goes on, nor the disk. -/
def ProcessEvent.Plain : ProcessEvent → Prop
  | .appendEntries _ _ | .applyLoop _ | .applyResume _ | .resume _ _ | .writeBlob | .flush | .restart _ =>
    False
  | _ => True

namespace Process

/-- `p` becomes `p'` by a change `R` of the `Raft` object, and the threads that are new go on with a
stretch `P`. -/
structure Moves (P : Stretch → Prop) (R : Raft → Raft → Prop) (p p' : Process) : Prop where
  raft : R p.raft p'.raft
  io : p'.io = p.io
  flusher : p'.flusher = p.flusher
  threads : ∀ t ∈ p'.threads, t ∈ p.threads ∨ P t.stretch

variable {P : Stretch → Prop} {R Q : Raft → Raft → Prop} {p p' : Process} {r : Raft}

theorem Moves.mono (h : Moves P R p p') (hR : ∀ r r', R r r' → Q r r') : Moves P Q p p' :=
  ⟨hR _ _ h.raft, h.io, h.flusher, h.threads⟩

theorem Moves.weaken {P' : Stretch → Prop} (h : Moves P R p p') (hP : ∀ st, P st → P' st) :
    Moves P' R p p' :=
  ⟨h.raft, h.io, h.flusher, fun t ht => (h.threads t ht).imp_right (hP _)⟩

theorem moves_raft (h : R p.raft r) : Moves P R p { p with raft := r } :=
  ⟨h, rfl, rfl, fun _ ht => .inl ht⟩

theorem moves_wait (h : R p.raft r) {st : Stretch} (hst : P st) : Moves P R p (p.wait r st) := by
  refine ⟨h, rfl, rfl, fun t ht => ?_⟩
  rcases List.mem_append.mp ht with ht | ht
  · exact .inl ht
  · rw [List.mem_singleton.mp ht]
    exact .inr hst

theorem Moves.spawn (h : Moves P R p p') {st : Stretch} (hst : P st) :
    Moves P R p (p'.spawn p'.raft st) := by
  refine ⟨h.raft, h.io, h.flusher, fun t ht => ?_⟩
  rcases List.mem_append.mp ht with ht | ht
  · exact h.threads t ht
  · rw [List.mem_singleton.mp ht]
    exact .inr hst

theorem moves_spawn (h : R p.raft r) {st : Stretch} (hst : P st) : Moves P R p (p.spawn r st) :=
  (moves_raft h).spawn hst

/-- No new thread is on the way of a snapshot or of entries, and the log changes by edits only. -/
abbrev Via : Process → Process → Prop := Moves Stretch.Plain Edited

/-- Besides, none is to take a snapshot. -/
abbrev Goes : Process → Process → Prop := Moves Stretch.Routine Edited

theorem Moves.via (h : Goes p p') : Via p p' := h.weaken fun _ hst => hst.plain

theorem goes_still (h : Still p.raft r) : Goes p { p with raft := r } := moves_raft (.still h)

theorem goes_refl (p : Process) : Goes p p := goes_still (.refl p.raft)

theorem goes_waits (h : Still p.raft r) {st : Stretch} (hst : st.Routine) : Goes p (p.wait r st) :=
  moves_wait (.still h) hst

theorem goes_synced {res : Raft × Bool} (h : Edited p.raft res.1) : Goes p (p.synced res) := by
  rw [synced]
  split_ifs
  · exact moves_spawn h trivial
  · exact moves_raft h

theorem goes_finishStart {st : Raft × ElectionStart} (h : Still p.raft st.1) :
    Goes p (p.finishStart st) := by
  rw [finishStart]
  split_ifs
  · exact moves_spawn (.still h) trivial
  · exact goes_still h

theorem goes_electionTimeout (p : Process) (now : Int) : Goes p (p.electionTimeout now) := by
  rw [electionTimeout]
  split_ifs
  · exact goes_waits (still_convertToFollowerLocked _ _) trivial
  · exact goes_finishStart (still_electionTimeout _ now)

theorem goes_callback {r' : Raft} {term : Int} {st : Stretch} (h : Still p.raft r)
    (h' : Edited p.raft r') (hst : st.Routine) : Goes p (p.callback r term st r') := by
  rw [callback]
  split_ifs
  · exact goes_waits (h.trans (still_convertToFollowerLocked _ _)) hst
  · exact moves_raft h'

theorem goes_prevoteReply (p : Process) (args : RequestPreVoteArgs) (i : Nat)
    (reply : RequestPreVoteReply) (now : Int) : Goes p (p.prevoteReply args i reply now) := by
  have h : Goes p (p.callback p.raft reply.term .heard (p.raft.prevoteReply args i reply now).1) :=
    goes_callback (.refl _) (.still (still_prevoteReply _ args i reply now)) trivial
  rw [prevoteReply]
  split_ifs
  · exact h.spawn trivial
  · exact h

theorem goes_voteReply (p : Process) (args : RequestVoteArgs) (i : Nat) (reply : RequestVoteReply)
    (now : Int) : Goes p (p.voteReply args i reply now) :=
  goes_callback (.refl _) (edited_voteReply _ args i reply now) trivial

theorem goes_readHeartbeatReply (p : Process) (args : AppendEntriesArgs) (s : Nat)
    (reply : AppendEntriesReply) (now : Int) : Goes p (p.readHeartbeatReply args s reply now) :=
  goes_callback (.refl _) (.still (still_readHeartbeatReply _ args s reply now)) trivial

theorem goes_snapshotReply (p : Process) (args : InstallSnapshotArgs) (s : Nat) (ok : Bool)
    (reply : InstallSnapshotReply) (now : Int) : Goes p (p.snapshotReply args s ok reply now) :=
  goes_callback (still_noteReached _ s ok) (.still (still_snapshotReply _ args s ok reply now)) trivial

theorem goes_appendReply (p : Process) (args : AppendEntriesArgs) (s : Nat) (ok : Bool)
    (reply : AppendEntriesReply) (now : Int) : Goes p (p.appendReply args s ok reply now) := by
  rw [appendReply]
  split_ifs
  · exact goes_waits ((still_noteReached _ s ok).trans (still_convertToFollowerLocked _ _)) trivial
  · exact goes_synced (.still (still_appendReply _ args s ok reply now))

theorem goes_requestVote (p : Process) (args : RequestVoteArgs) (now : Int) :
    Goes p (p.requestVote args now) := by
  rw [requestVote]
  split_ifs
  · exact goes_waits (still_convertToFollowerLocked _ _) trivial
  · exact goes_still (still_requestVote _ args now)

theorem goes_received (p : Process) (args : InstallSnapshotArgs) (now : Int) :
    Goes p (p.received args now) := by
  rw [received]
  split
  · exact goes_still (still_installReceive _ args _ now)
  · exact moves_spawn (.still (still_installReceive _ args _ now)) trivial

theorem goes_installSnapshot (p : Process) (args : InstallSnapshotArgs) (now : Int) :
    Goes p (p.installSnapshot args now) := by
  rw [installSnapshot]
  split_ifs
  · exact goes_refl p
  · exact goes_waits (still_convertToFollowerLocked _ _) trivial
  · exact goes_received p args now

theorem via_snapshot (p : Process) (index : Int) (data : Bytes) : Via p (p.snapshot index data) := by
  rw [snapshot]
  split
  · exact (goes_refl p).via
  · exact (goes_refl p).via.spawn trivial

theorem goes_proposeConf (p : Process) (server : Int) (target : MemberRole) :
    Goes p (p.proposeConf server target) := by
  rw [proposeConf]
  split
  · exact goes_refl p
  · next r h => exact moves_wait (edited_confProposed h) trivial

theorem moves_settleApply {res : Raft × List ApplyMsg × Option (Nat × Int)} (h : R p.raft res.1) :
    Moves P R p (p.settleApply res) := by
  rw [settleApply]
  split
  · exact ⟨h, rfl, rfl, fun _ ht => .inl ht⟩
  · exact ⟨h, rfl, rfl, fun _ ht => .inl ht⟩

/-- One turn of `ApplyLoop` starts no thread. -/
theorem moves_applyLoop (p : Process) (now : Int) (hR : ∀ r', Still p.raft r' → R p.raft r')
    (hrun : R p.raft
      (p.raft.applyRun now (p.raft.applyStop - p.raft.lastApplied).toNat (p.raft.lastApplied + 1) []).1) :
    Moves P R p (p.applyLoop now) := by
  rw [applyLoop]
  split_ifs
  · exact moves_raft (hR _ (.refl _))
  · split
    · exact ⟨hR _ (.of_parts rfl rfl rfl), rfl, rfl, fun _ ht => .inl ht⟩
    · exact moves_settleApply hrun
  · split
    · exact ⟨hR _ (.of_parts rfl rfl rfl), rfl, rfl, fun _ ht => .inl ht⟩
    · exact moves_raft (hR _ (.refl _))

theorem moves_applyResume (p : Process) (now : Int) (hR : ∀ r', Still p.raft r' → R p.raft r')
    (hrun : ∀ a, p.applier = some a →
      R p.raft ((p.raft.applyConfAfter now).applyRun now a.left a.idx a.batch).1) :
    Moves P R p (p.applyResume now) := by
  rw [applyResume]
  cases ha : p.applier with
  | none => exact moves_raft (hR _ (.refl _))
  | some a =>
    dsimp only
    split_ifs
    · exact moves_settleApply (hrun a ha)
    · exact moves_raft (hR _ (.refl _))

/-- The stretches that are neither on the way of a snapshot nor of entries; `p` has given up its
thread. -/
theorem goes_runStretch (p : Process) (now : Int) {st : Stretch} (hst : st.Plain)
    (hblob : ∀ u, st ≠ .saveBlob u) : Goes p (p.runStretch now st) := by
  cases st with
  | prevote => exact goes_finishStart (still_beginPrevote _ now)
  | startRealElection =>
    rw [runStretch]
    split_ifs
    · exact goes_waits (still_standForTerm _ now) trivial
    · exact goes_still (still_standForTerm _ now)
  | takeOffice =>
    refine moves_raft ?_
    split_ifs
    · exact edited_becomeLeaderIfQuorumLocked _ now
    · exact .still (.refl _)
  | heard => exact goes_still (.of_parts rfl rfl rfl)
  | snapshotHeard s => exact goes_still (.of_parts rfl rfl rfl)
  | vote args => exact goes_still (still_decideVote _ args {} now)
  | append args => cases hst
  | commitSynced => exact goes_still (.of_parts rfl rfl rfl)
  | advanceCommit => exact goes_synced (.still (still_advanceCommitIndexLocked _))
  | saveBlob u => exact absurd rfl (hblob u)
  | installReceive args => exact goes_received p args now
  | snapshotCommit _ _ _ => cases hst
  | truncateStore _ => cases hst
  | installCommit _ _ => cases hst
  | installLogs _ _ _ => cases hst
  | installFinish _ _ => cases hst

theorem via_runStretch (p : Process) (now : Int) {st : Stretch} (hst : st.Plain)
    (hblob : ∀ u, st ≠ .saveBlob u) : Via p (p.runStretch now st) := (goes_runStretch p now hst hblob).via

theorem goes_step (p : Process) {e : ProcessEvent} (he : e.Plain)
    (hno : ∀ index data, e ≠ .snapshot index data) : Goes p (p.step e) := by
  cases e with
  | electionTimeout now => exact goes_electionTimeout p now
  | leaderTick now => exact goes_still (still_leaderTick _ now)
  | prevoteReply args i reply now => exact goes_prevoteReply p args i reply now
  | voteReply args i reply now => exact goes_voteReply p args i reply now
  | readHeartbeatReply args s reply now => exact goes_readHeartbeatReply p args s reply now
  | appendReply args s ok reply now => exact goes_appendReply p args s ok reply now
  | snapshotReply args s ok reply now => exact goes_snapshotReply p args s ok reply now
  | requestVote args now => exact goes_requestVote p args now
  | installSnapshot args now => exact goes_installSnapshot p args now
  | replicate s now => exact goes_still (still_replicate _ s now)
  | start command => exact goes_synced (edited_start _ command)
  | proposeConf server target => exact goes_proposeConf p server target
  | snapshot index data => exact absurd rfl (hno index data)
  | readIndexOpen now => exact goes_still (still_readIndexOpen _ now)
  | readIndexPoll ctx term readIndex deadline now =>
    exact goes_still (still_readIndexPoll _ ctx term readIndex deadline now)
  | setLimits m b => exact goes_still (.of_parts rfl rfl rfl)
  | kill => exact goes_still (.of_parts rfl rfl rfl)
  | appendEntries _ _ => cases he
  | applyLoop _ => cases he
  | applyResume _ => cases he
  | resume _ _ => cases he
  | writeBlob => cases he
  | flush => cases he
  | restart _ => cases he

theorem via_step (p : Process) {e : ProcessEvent} (he : e.Plain) : Via p (p.step e) := by
  cases e with
  | snapshot index data => exact via_snapshot p index data
  | _ => exact (goes_step p he (by simp)).via

/-- `AppendEntries` waits, if at all, before it looks at the log; a follower does not wait. -/
theorem moves_appendEntries (p : Process) (args : AppendEntriesArgs) (now : Int)
    (hR : ∀ r', Still p.raft r' → R p.raft r')
    (hmerge : ∀ r', Still p.raft r' → r'.state = .kFollower →
      R p.raft (r'.appendEntriesLocked args {}).1) :
    Moves (· = .append args) R p (p.appendEntries args now) := by
  have h : Still p.raft (p.raft.heardLeader args now) := .of_parts rfl rfl rfl
  rw [appendEntries]
  dsimp only
  split_ifs with _ hwait
  · exact moves_raft (hR _ (.refl _))
  · exact moves_wait (hR _ (h.trans (still_convertToFollowerLocked _ _))) rfl
  · rw [not_or, not_not] at hwait
    exact moves_raft (hmerge _ h hwait.2)

end Process
end ChonKV
