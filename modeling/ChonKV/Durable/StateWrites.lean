import ChonKV.Durable.Changes
import ChonKV.Durable.StateCommit
import Mathlib.Data.Multiset.Filter

/-!
A process with files does what `StateCommit` says: every event is a run of callers of `PersistLocked`
and of the flusher on the same registers, and a thread goes on only when its caller may be released.
-/

set_option autoImplicit false

namespace ChonKV

open StateCommit

/-- Callers and `Kill` lead from `s` to `s'`: the flusher stands still, and nobody's wait is over. -/
structure StateCommit.Registers.Grows (s s' : Registers RaftState) : Prop where
  reaches : Registers.Reaches Raft.encodeRaftStateLocked s s'
  flusher : s'.flusher = s.flusher
  waiting : (s.waiting : Multiset Nat) ≤ s'.waiting

theorem StateCommit.Registers.Grows.refl (s : Registers RaftState) : s.Grows s :=
  ⟨.refl _ s, rfl, le_rfl⟩

theorem StateCommit.Registers.Grows.trans {s s' s'' : Registers RaftState} (h : s.Grows s')
    (h' : s'.Grows s'') : s.Grows s'' :=
  ⟨h.reaches.trans h'.reaches, h'.flusher.trans h.flusher, h.waiting.trans h'.waiting⟩

namespace Raft

/-- The members that `PersistLocked` and the flusher work on, and the state on the disk. -/
def writePart (r : Raft) : PersistState × Bool × Bool × Option RaftState :=
  (r.toPersistState, r.killed, r.persister.fileBacked, r.persister.raftState)

/-- One thing that a stretch of a handler does to these members. -/
inductive Write : Raft → Raft → Prop
  | same {r r' : Raft} (h : r'.writePart = r.writePart) : Write r r'
  | persist (r : Raft) : Write r r.persistLocked
  | kill (r : Raft) : Write r { r with killed := true }

abbrev Writes : Raft → Raft → Prop := Relation.ReflTransGen Write

/-- The last thing that happens to these members is a `PersistLocked`. -/
def Persists (r r' : Raft) : Prop := ∃ r₀, Writes r r₀ ∧ r'.writePart = r₀.persistLocked.writePart

variable {r r' r'' : Raft} {k : ReadUse}

theorem writes_same (h : r'.writePart = r.writePart) : Writes r r' := .single (.same h)

theorem Writes.same (h : Writes r r') (hs : r''.writePart = r'.writePart) : Writes r r'' :=
  h.tail (.same hs)

theorem Writes.persist (h : Writes r r') : Writes r r'.persistLocked := h.tail (.persist r')

theorem Writes.persists (h : Writes r r') : Persists r r'.persistLocked := ⟨r', h, rfl⟩

theorem Persists.writes (h : Persists r r') : Writes r r' := by
  obtain ⟨r₀, h₀, hpart⟩ := h
  exact h₀.persist.same hpart

theorem recordReadAckLocked_writePart (r : Raft) (ctx s : Nat) :
    (r.recordReadAckLocked ctx s).writePart = r.writePart := by
  rw [recordReadAckLocked]
  dsimp only
  split_ifs <;> rfl

theorem readIndexOpen_writePart (r : Raft) (now : Int) :
    (r.readIndexOpen now).1.writePart = r.writePart := by
  rw [readIndexOpen]
  split_ifs
  all_goals first | rfl | (split <;> rfl)

theorem readIndexPoll_writePart (r : Raft) (ctx : Nat) (term readIndex deadline now : Int) :
    (r.readIndexPoll ctx term readIndex deadline now).1.writePart = r.writePart := by
  rw [readIndexPoll]
  dsimp only [readIndexLeave]
  split_ifs <;> rfl

theorem Change.write (h : Change k r r') : Write r r' := by
  cases h with
  | same h =>
    exact .same (congrArg (fun x : Scope =>
      (x.persist, x.killed, x.persister.fileBacked, x.persister.raftState)) h)
  | persist => exact .persist r
  | kill => exact .kill r
  | ack ctx s => exact .same (recordReadAckLocked_writePart r ctx s)
  | openRead now => exact .same (readIndexOpen_writePart r now)
  | pollRead ctx term readIndex deadline now =>
    exact .same (readIndexPoll_writePart r ctx term readIndex deadline now)
  | turn _ _ _ => exact .same rfl
  | elect _ => exact .same rfl
  | commit _ _ => exact .same rfl
  | push _ _ => exact .same rfl

theorem Changes.writes (h : Changes k r r') : Writes r r' := by
  induction h with
  | refl => exact .refl
  | tail _ hc ih => exact ih.tail hc.write

theorem persists_convertToFollowerLocked (h : Writes r r') (term : Int) :
    Persists r (r'.convertToFollowerLocked term) :=
  Writes.persists (h.same rfl)

theorem persists_standForTerm (r : Raft) (now : Int) (h : (r.standForTerm now).2 = true) :
    Persists r (r.standForTerm now).1 := by
  rw [standForTerm] at h ⊢
  dsimp only at h ⊢
  split_ifs at h ⊢
  all_goals exact Writes.persists (writes_same rfl)

theorem persists_confProposed {server : Int} {target : MemberRole}
    (h : r.confProposed server target = some r') : Persists r r' := by
  rw [confProposed] at h
  simp only [Option.ite_none_left_eq_some] at h
  obtain ⟨-, -, -, -, -, -, h⟩ := h
  cases h
  exact Writes.persists (writes_same rfl)

theorem writes_snapshotCommit (r : Raft) (index term : Int) (data : Bytes) :
    Writes r (r.snapshotCommit index term data).1 := by
  rw [snapshotCommit]
  split_ifs
  · exact .refl
  · exact Writes.persist (writes_same rfl)

theorem persists_snapshotCommit (r : Raft) (index term : Int) (data : Bytes)
    (h : (r.snapshotCommit index term data).2 = true) :
    Persists r (r.snapshotCommit index term data).1 := by
  rw [snapshotCommit] at h ⊢
  split_ifs at h ⊢
  exact Writes.persists (writes_same rfl)

theorem persists_installLogs (h : Writes r r') (args : InstallSnapshotArgs) (old : Int) :
    Persists r (r'.installLogs args old) :=
  Writes.persists (h.same rfl)

theorem writes_appendEntriesLocked (r : Raft) (args : AppendEntriesArgs) (reply : AppendEntriesReply) :
    Writes r (r.appendEntriesLocked args reply).1 := by
  have hmerge : Writes r (r.mergeLocked args) := by
    rw [mergeLocked]
    dsimp only
    split_ifs
    · exact Writes.persist (writes_same rfl)
    · exact writes_same rfl
  rw [appendEntriesLocked]
  split_ifs
  · exact .refl
  · exact .refl
  · refine hmerge.same ?_
    rw [followCommit]
    split_ifs <;> rfl

theorem persists_applyConf (h : Writes r r') (idx : Int) (e : LogEntry) :
    Persists r (r'.applyConf idx e) := by
  rw [applyConf]
  refine Writes.persists (h.same ?_)
  split_ifs <;> rfl

theorem writes_applyTurn (r : Raft) (idx : Int) : Writes r ((r.applyTurn idx).raft r) := by
  rw [applyTurn]
  dsimp only
  split_ifs
  · exact .refl
  · exact writes_same rfl
  · have hidx : Writes r { r with lastApplied := idx } := writes_same rfl
    exact (persists_applyConf hidx idx _).writes
  · exact writes_same rfl
  · exact .refl

theorem persists_applyTurn {idx : Int} {msg : ApplyMsg} (h : r.applyTurn idx = .conf r' msg) :
    Persists r r' := by
  rw [applyTurn] at h
  dsimp only at h
  split_ifs at h
  cases h
  have hidx : Writes r { r with lastApplied := idx } := writes_same rfl
  exact persists_applyConf hidx idx _

theorem writes_applyConfAfter (r : Raft) (now : Int) : Writes r (r.applyConfAfter now) :=
  (changes_applyConfAfter (k := .none) r now).writes

theorem writes_applyRun (r : Raft) (now : Int) (k : Nat) (idx : Int) (batch : List ApplyMsg) :
    Writes r (r.applyRun now k idx batch).1 :=
  applyRun_induction (fun _ => .refl) (fun h h' => h.trans h') writes_applyTurn writes_applyConfAfter
    r now k idx batch

theorem Writes.then_persists (h : Writes r r') (h' : Persists r' r'') : Persists r r'' := by
  obtain ⟨r₀, h₀, hpart⟩ := h'
  exact ⟨r₀, h.trans h₀, hpart⟩

/-- Where the loop stops for a wait, it has just persisted a conf entry. -/
theorem persists_applyRun (r : Raft) (now : Int) (k : Nat) (idx : Int) (batch : List ApplyMsg)
    {pause : Nat × Int} (h : (r.applyRun now k idx batch).2.2 = some pause) :
    Persists r (r.applyRun now k idx batch).1 := by
  induction k generalizing r idx batch with
  | zero => cases h
  | succ k ih =>
    have hturn := writes_applyTurn r idx
    rw [applyRun] at h ⊢
    cases ht : r.applyTurn idx with
    | stop =>
      rw [ht] at h
      cases h
    | skip r' =>
      rw [ht] at h hturn
      exact hturn.then_persists (ih r' _ _ h)
    | dispatch r' msg =>
      rw [ht] at h hturn
      exact hturn.then_persists (ih r' _ _ h)
    | conf r' msg =>
      rw [ht] at h
      dsimp only at h ⊢
      split_ifs at h ⊢
      · exact persists_applyTurn ht
      · have hafter : Writes r _ := (persists_applyTurn ht).writes.trans (writes_applyConfAfter r' now)
        exact hafter.then_persists (ih _ _ _ h)

/-- The registers `s` hold these members; `d` is the state that the node came up from. -/
structure HeldIn (d : Option RaftState) (s : Registers RaftState) (r : Raft) : Prop where
  async : r.persistAsync = true
  backed : r.persister.fileBacked = true
  pending : s.pendingStateBlob = r.pendingStateBlob
  version : s.persistVersion = r.persistVersion
  synced : s.persistSynced = r.persistSynced
  dirty : s.persistDirty = r.persistDirty
  killed : s.killed = r.killed
  disk : r.persister.raftState = (s.written.getLast?.map Prod.snd).getD d

variable {d : Option RaftState} {s : Registers RaftState}

theorem HeldIn.same (h : r.HeldIn d s) (hpart : r'.writePart = r.writePart) : r'.HeldIn d s := by
  simp only [writePart, Prod.mk.injEq] at hpart
  obtain ⟨hstate, hkilled, hbacked, hdisk⟩ := hpart
  exact ⟨by rw [hstate, h.async], by rw [hbacked, h.backed], by rw [hstate, h.pending],
    by rw [hstate, h.version], by rw [hstate, h.synced], by rw [hstate, h.dirty],
    by rw [hkilled, h.killed], by rw [hdisk, h.disk]⟩

/-- `PersistLocked` is the action of that name: its caller waits for the new version. -/
theorem HeldIn.persistLocked (h : r.HeldIn d s) : ∃ s', s.Grows s' ∧ r.persistLocked.HeldIn d s' ∧
    (r.persistLocked.persistVersion ::ₘ s.waiting : Multiset Nat) ≤ s'.waiting := by
  have hreg : r.persistLocked = { r with
      raftStateBytes := r.encodeRaftStateLocked.encode.length
      pendingStateBlob := some r.encodeRaftStateLocked
      persistVersion := r.persistVersion + 1
      persistDirty := true } := by simp [Raft.persistLocked, h.async]
  have hwaiting : ((s.waiting ++ [s.persistVersion + 1] : List Nat) : Multiset Nat) =
      (r.persistVersion + 1) ::ₘ s.waiting := by
    rw [h.version]
    exact Multiset.coe_eq_coe.mpr (List.perm_append_singleton _ _)
  rw [hreg]
  refine ⟨_, ⟨Registers.reaches_step (x := .persistLocked r) rfl, rfl, ?_⟩, ?_, ?_⟩
  · exact (Multiset.le_cons_self _ _).trans hwaiting.ge
  · exact ⟨h.async, h.backed, rfl, congrArg (· + 1) h.version, h.synced, rfl, h.killed, h.disk⟩
  · exact hwaiting.ge

theorem HeldIn.write (h : r.HeldIn d s) (hw : Write r r') : ∃ s', s.Grows s' ∧ r'.HeldIn d s' := by
  cases hw with
  | same hpart => exact ⟨s, .refl s, h.same hpart⟩
  | persist =>
    obtain ⟨s', hs, hheld, -⟩ := h.persistLocked
    exact ⟨s', hs, hheld⟩
  | kill =>
    exact ⟨_, ⟨Registers.reaches_step (x := .kill) rfl, rfl, le_rfl⟩,
      h.async, h.backed, h.pending, h.version, h.synced, h.dirty, rfl, h.disk⟩

theorem HeldIn.writes (h : r.HeldIn d s) (hw : Writes r r') : ∃ s', s.Grows s' ∧ r'.HeldIn d s' := by
  induction hw with
  | refl => exact ⟨s, .refl s, h⟩
  | tail _ hstep ih =>
    obtain ⟨s₁, hs₁, h₁⟩ := ih
    obtain ⟨s₂, hs₂, h₂⟩ := h₁.write hstep
    exact ⟨s₂, hs₁.trans hs₂, h₂⟩

theorem HeldIn.persists (h : r.HeldIn d s) (hp : Persists r r') : ∃ s', s.Grows s' ∧ r'.HeldIn d s' ∧
    (r'.persistVersion ::ₘ s.waiting : Multiset Nat) ≤ s'.waiting := by
  obtain ⟨r₀, h₀, hpart⟩ := hp
  have hversion : r'.persistVersion = r₀.persistLocked.persistVersion :=
    congrArg (fun x => x.1.persistVersion) hpart
  obtain ⟨s₁, hs₁, h₁⟩ := h.writes h₀
  obtain ⟨s₂, hs₂, h₂, hwait⟩ := h₁.persistLocked
  refine ⟨s₂, hs₁.trans hs₂, h₂.same hpart, ?_⟩
  rw [hversion]
  exact (Multiset.cons_le_cons _ hs₁.waiting).trans hwait

theorem adoptBlob_writePart (r : Raft) (b : SnapshotBlob) : (r.adoptBlob b).writePart = r.writePart := by
  rw [adoptBlob]
  split_ifs <;> rfl

theorem make_writePart (peers me : Nat) (d : Disk) (now : Int) :
    (make peers me d now).writePart = (blank peers me d now).writePart := by
  have hread : ∀ st, ((blank peers me d now).readPersist st).writePart = (blank peers me d now).writePart := by
    intro st
    rw [readPersist]
    split
    · next b _ => exact adoptBlob_writePart _ b
    · rfl
  rw [make]
  split
  · next st _ => exact hread st
  · rfl

/-- A node that comes up has registered nothing. -/
theorem make_heldIn {d : Disk} (h : d.persister.fileBacked = true) (peers me : Nat) (now : Int) :
    (make peers me d now).HeldIn d.persister.raftState {} := by
  have hblank : (blank peers me d now).HeldIn d.persister.raftState {} :=
    ⟨h, h, rfl, rfl, rfl, rfl, rfl, rfl⟩
  exact hblank.same (make_writePart peers me d now)

end Raft

/-- What the flusher has in its hands. -/
def Flusher.loop : Flusher → FlushLoop RaftState
  | .idle => .idle
  | .saving st v => .saving (some st) v
  | .saved v => .saved v

namespace Process

open Raft

/-- The versions that threads wait for after a `PersistLocked`. -/
def threadVersions (threads : List Thread) : Multiset Nat :=
  Multiset.filter (0 < ·) (threads.map Thread.version : List Nat)

/-- The versions that the threads and the applier wait for. -/
def awaited (p : Process) : Multiset Nat :=
  (p.applier.map ApplyPause.version).toList + threadVersions p.threads

/-- The registers `s` hold the process. -/
structure HeldIn (d : Option RaftState) (s : Registers RaftState) (p : Process) : Prop where
  raft : p.raft.HeldIn d s
  flusher : s.flusher = p.flusher.loop
  waiting : p.awaited ≤ s.waiting

/-- `p` becomes `p'` while the flusher stands still, and whoever waits now and did not before has just
left `PersistLocked` for its wait. -/
structure Stirs (p p' : Process) : Prop where
  flusher : p'.flusher = p.flusher
  raft : (Writes p.raft p'.raft ∧ p'.awaited ≤ p.awaited) ∨
    (Persists p.raft p'.raft ∧ p'.awaited ≤ p'.raft.persistVersion ::ₘ p.awaited)

variable {p p' : Process} {r : Raft} {d : Option RaftState} {s : Registers RaftState}

theorem HeldIn.stirs (h : p.HeldIn d s) (hp : Stirs p p') :
    ∃ s', Registers.Reaches encodeRaftStateLocked s s' ∧ p'.HeldIn d s' := by
  obtain ⟨hw, hle⟩ | ⟨hw, hle⟩ := hp.raft
  · obtain ⟨s', hs, hheld⟩ := h.raft.writes hw
    refine ⟨s', hs.reaches, hheld, ?_, hle.trans (h.waiting.trans hs.waiting)⟩
    rw [hs.flusher, h.flusher, hp.flusher]
  · obtain ⟨s', hs, hheld, hwait⟩ := h.raft.persists hw
    refine ⟨s', hs.reaches, hheld, ?_, hle.trans ((Multiset.cons_le_cons _ h.waiting).trans hwait)⟩
    rw [hs.flusher, h.flusher, hp.flusher]

theorem threadVersions_concat (threads : List Thread) (st : Stretch) (v : Nat) :
    threadVersions (threads ++ [⟨st, v⟩]) =
      if 0 < v then v ::ₘ threadVersions threads else threadVersions threads := by
  have hperm : List.Perm (List.map Thread.version (threads ++ [⟨st, v⟩]))
      (v :: threads.map Thread.version) := by
    rw [List.map_append]
    exact List.perm_append_singleton _ _
  rw [threadVersions, Multiset.coe_eq_coe.mpr hperm, ← Multiset.cons_coe]
  split_ifs with hv
  · exact Multiset.filter_cons_of_pos _ hv
  · exact Multiset.filter_cons_of_neg _ hv

theorem awaited_spawn (p : Process) (r : Raft) (st : Stretch) : (p.spawn r st).awaited = p.awaited :=
  congrArg (_ + ·) ((threadVersions_concat _ st 0).trans (if_neg (lt_irrefl 0)))

theorem awaited_wait (p : Process) (r : Raft) (st : Stretch) :
    (p.wait r st).awaited ≤ r.persistVersion ::ₘ p.awaited := by
  rw [awaited, wait, threadVersions_concat]
  split_ifs
  · exact (Multiset.add_cons _ _ _).le
  · exact Multiset.le_cons_self _ _

theorem stirs_raft (h : Writes p.raft r) : Stirs p { p with raft := r } := ⟨rfl, .inl ⟨h, le_rfl⟩⟩

theorem stirs_wait (h : Persists p.raft r) (st : Stretch) : Stirs p (p.wait r st) :=
  ⟨rfl, .inr ⟨h, awaited_wait p r st⟩⟩

theorem Stirs.spawn (h : Stirs p p') (st : Stretch) : Stirs p (p'.spawn p'.raft st) := by
  refine ⟨h.flusher, ?_⟩
  rw [awaited_spawn]
  exact h.raft

theorem stirs_spawn (h : Writes p.raft r) (st : Stretch) : Stirs p (p.spawn r st) :=
  (stirs_raft h).spawn st

theorem stirs_synced {res : Raft × Bool} (h : Writes p.raft res.1) : Stirs p (p.synced res) := by
  rw [synced]
  split_ifs
  · exact stirs_spawn h .commitSynced
  · exact stirs_raft h

theorem stirs_finishStart {st : Raft × ElectionStart} (h : Writes p.raft st.1) :
    Stirs p (p.finishStart st) := by
  rw [finishStart]
  split_ifs
  · exact stirs_spawn h .startRealElection
  · exact stirs_raft h

theorem stirs_callback {r' : Raft} (h : Writes p.raft r) (h' : Writes p.raft r') (term : Int)
    (st : Stretch) : Stirs p (p.callback r term st r') := by
  rw [callback]
  split_ifs
  · exact stirs_wait (persists_convertToFollowerLocked h term) st
  · exact stirs_raft h'

theorem stirs_received (p : Process) (args : InstallSnapshotArgs) (now : Int) :
    Stirs p (p.received args now) := by
  have h : Writes p.raft (p.raft.installReceive args {} now).1 :=
    (changes_installReceive (k := .none) _ args {} now).writes
  rw [received]
  split
  · exact stirs_raft h
  · exact stirs_spawn h _

/-- The events that are neither on the way of a snapshot nor of entries. -/
theorem stirs_plain (p : Process) {e : ProcessEvent} (he : e.Plain) : Stirs p (p.step e) := by
  have h := (changes_step p he).writes
  cases e with
  | electionTimeout now =>
    rw [step, electionTimeout]
    split_ifs
    · exact stirs_wait (persists_convertToFollowerLocked .refl _) .prevote
    · exact stirs_finishStart (changes_electionTimeout (k := .none) _ now).writes
  | prevoteReply args i reply now =>
    have hreply := (changes_prevoteReply (k := .none) p.raft args i reply now).writes
    have hcall := stirs_callback .refl hreply reply.term .heard
    rw [step, prevoteReply]
    split_ifs
    · exact hcall.spawn .startRealElection
    · exact hcall
  | voteReply args i reply now =>
    have hreply := (changes_voteReply (k := .none) p.raft args i reply now).writes
    exact stirs_callback .refl hreply reply.term .heard
  | readHeartbeatReply args s reply now =>
    exact stirs_callback .refl (changes_readHeartbeatReply p.raft args s reply now).writes reply.term .heard
  | appendReply args s ok reply now =>
    rw [step, appendReply]
    split_ifs
    · have hreached := (changes_noteReached (k := .none) p.raft s ok).writes
      exact stirs_wait (persists_convertToFollowerLocked hreached reply.term) .heard
    · exact stirs_synced (changes_appendReply p.raft args s ok reply now).writes
  | snapshotReply args s ok reply now =>
    have hreached := (changes_noteReached (k := .none) p.raft s ok).writes
    have hreply := (changes_snapshotReply (k := .none) p.raft args s ok reply now).writes
    exact stirs_callback hreached hreply _ (.snapshotHeard s)
  | requestVote args now =>
    rw [step, requestVote]
    split_ifs
    · exact stirs_wait (persists_convertToFollowerLocked .refl args.term) (.vote args)
    · exact stirs_raft (changes_requestVote (k := .none) p.raft args now).writes
  | installSnapshot args now =>
    rw [step, installSnapshot]
    split_ifs
    · exact stirs_raft .refl
    · exact stirs_wait (persists_convertToFollowerLocked .refl args.term) (.installReceive args)
    · exact stirs_received p args now
  | start command => exact stirs_synced (changes_start (k := .none) p.raft command).writes
  | proposeConf server target =>
    rw [step, proposeConf]
    split
    · exact stirs_raft .refl
    · next r hconf => exact stirs_wait (persists_confProposed hconf) .advanceCommit
  | snapshot index data =>
    rw [step, snapshot]
    split
    · exact stirs_raft .refl
    · exact stirs_spawn .refl _
  | leaderTick now => exact stirs_raft h
  | replicate s now => exact stirs_raft h
  | readIndexOpen now => exact stirs_raft h
  | readIndexPoll ctx term readIndex deadline now => exact stirs_raft h
  | setLimits m b => exact stirs_raft h
  | kill => exact stirs_raft h
  | appendEntries _ _ => cases he
  | applyLoop _ => cases he
  | applyResume _ => cases he
  | resume _ _ => cases he
  | writeBlob => cases he
  | flush => cases he
  | restart _ => cases he

theorem stirs_appendEntries (p : Process) (args : AppendEntriesArgs) (now : Int) :
    Stirs p (p.appendEntries args now) := by
  have hheard : Writes p.raft (p.raft.heardLeader args now) := writes_same rfl
  rw [appendEntries]
  dsimp only
  split_ifs
  · exact stirs_raft .refl
  · exact stirs_wait (persists_convertToFollowerLocked hheard args.term) (.append args)
  · exact stirs_raft (hheard.trans (writes_appendEntriesLocked _ args {}))

theorem stirs_saveBlob (p : Process) (u : BlobUser) : Stirs p (p.saveBlob u) := by
  rw [saveBlob]
  split_ifs
  · exact stirs_spawn .refl _
  · exact stirs_spawn .refl _
  · exact ⟨rfl, .inl ⟨.refl, le_rfl⟩⟩

theorem stirs_writeBlob (p : Process) : Stirs p p.writeBlob := by
  rw [writeBlob]
  split
  · exact stirs_raft .refl
  · exact ⟨rfl, .inl ⟨writes_same rfl, le_rfl⟩⟩
  · next u _ =>
    have hdone : Stirs p { p with
        raft := { p.raft with savedBlobIndex := max p.raft.savedBlobIndex u.blob.index }
        io := none } := ⟨rfl, .inl ⟨writes_same rfl, le_rfl⟩⟩
    exact hdone.spawn u.next

theorem stirs_installLogs (h : Writes p.raft r) (args : InstallSnapshotArgs) (blob : Bytes) (old : Int) :
    Stirs p ({ p with raft := r }.installLogs args blob old) :=
  stirs_wait (persists_installLogs h args old) _

/-- A thread that has its lock; it waits no more. -/
theorem stirs_runStretch (p : Process) (now : Int) (st : Stretch) : Stirs p (p.runStretch now st) := by
  cases st with
  | prevote => exact stirs_finishStart (changes_beginPrevote (k := .none) _ now).writes
  | startRealElection =>
    rw [runStretch]
    split_ifs with hstood
    · exact stirs_wait (persists_standForTerm _ now hstood) .takeOffice
    · exact stirs_raft (changes_standForTerm (k := .none) _ now).writes
  | takeOffice =>
    rw [runStretch]
    split_ifs
    · exact stirs_raft (changes_becomeLeaderIfQuorumLocked (k := .none) _ now).writes
    · exact stirs_raft .refl
  | heard => exact stirs_raft (writes_same rfl)
  | snapshotHeard s => exact stirs_raft (writes_same rfl)
  | vote args => exact stirs_raft (changes_decideVote (k := .none) _ args {} now).writes
  | append args => exact stirs_raft (writes_appendEntriesLocked _ args {})
  | commitSynced => exact stirs_raft (writes_same rfl)
  | advanceCommit => exact stirs_synced (changes_advanceCommitIndexLocked (k := .none) _).writes
  | saveBlob u => exact stirs_saveBlob p u
  | snapshotCommit index term data =>
    rw [runStretch]
    split_ifs with hcut
    · exact stirs_wait (persists_snapshotCommit _ index term data hcut) (.truncateStore index)
    · exact stirs_raft (writes_snapshotCommit _ index term data)
  | truncateStore index => exact stirs_raft (writes_same rfl)
  | installReceive args => exact stirs_received p args now
  | installCommit args blob =>
    have hbegin : Writes p.raft (p.raft.installBegin args blob) := writes_same rfl
    rw [runStretch, installCommit]
    dsimp only
    split_ifs
    · exact stirs_raft .refl
    · exact stirs_wait (persists_convertToFollowerLocked hbegin _) _
    · exact stirs_installLogs hbegin args blob _
  | installLogs args blob old => exact stirs_installLogs .refl args blob old
  | installFinish msg keep => exact stirs_raft (writes_same rfl)

/-- One turn of the batch loop, with the applier not in a wait. -/
theorem stirs_settleApply (hidle : p.applier = none) {res : Raft × List ApplyMsg × Option (Nat × Int)}
    (h : Writes p.raft res.1) (hpause : ∀ pause, res.2.2 = some pause → Persists p.raft res.1) :
    Stirs p (p.settleApply res) := by
  rw [settleApply]
  cases hres : res.2.2 with
  | none => exact ⟨rfl, .inl ⟨h, by simp [awaited, hidle]⟩⟩
  | some pause => exact ⟨rfl, .inr ⟨hpause pause hres, by simp [awaited, hidle]⟩⟩

theorem stirs_applyLoop (p : Process) (now : Int) : Stirs p (p.applyLoop now) := by
  rw [applyLoop]
  split_ifs with hstill
  · exact stirs_raft .refl
  · rw [not_or, Bool.not_eq_true, Option.isSome_eq_false_iff, Option.isNone_iff_eq_none] at hstill
    split
    · exact ⟨rfl, .inl ⟨writes_same rfl, le_rfl⟩⟩
    · exact stirs_settleApply hstill.1 (writes_applyRun _ now _ _ _)
        fun _ hpause => persists_applyRun _ now _ _ _ hpause
  · split
    · exact ⟨rfl, .inl ⟨writes_same rfl, le_rfl⟩⟩
    · exact stirs_raft .refl

/-- Whoever may go on after a wait in `PersistLocked` is released. -/
theorem HeldIn.release (h : p.HeldIn d s) {v : Nat} (hready : p.ready v = true) (p' : Process)
    (hraft : p'.raft = p.raft) (hflusher : p'.flusher = p.flusher)
    (hleft : v ::ₘ p'.awaited ≤ p.awaited) :
    ∃ s', Registers.Reaches encodeRaftStateLocked s s' ∧ p'.HeldIn d s' := by
  have hwaiting := hleft.trans h.waiting
  have hmem : v ∈ s.waiting := Multiset.mem_of_le hwaiting (Multiset.mem_cons_self _ _)
  have hfree : s.killed = true ∨ v ≤ s.persistSynced := by
    rw [h.raft.killed, h.raft.synced]
    simpa [ready, h.raft.async] using hready
  have hrelease : s.step encodeRaftStateLocked (.release v) =
      some { s with waiting := s.waiting.erase v } := if_pos ⟨hmem, hfree⟩
  have hr := h.raft
  refine ⟨_, Registers.reaches_step hrelease, ?_, ?_, ?_⟩
  · rw [hraft]
    exact ⟨hr.async, hr.backed, hr.pending, hr.version, hr.synced, hr.dirty, hr.killed, hr.disk⟩
  · exact h.flusher.trans (congrArg _ hflusher.symm)
  · rw [← Multiset.coe_erase]
    simpa using Multiset.erase_le_erase v hwaiting

theorem HeldIn.applyResume (h : p.HeldIn d s) (now : Int) :
    ∃ s', Registers.Reaches encodeRaftStateLocked s s' ∧ (p.applyResume now).HeldIn d s' := by
  rw [Process.applyResume]
  cases ha : p.applier with
  | none => exact ⟨s, .refl _ s, h⟩
  | some a =>
    dsimp only
    split_ifs with hready
    · obtain ⟨s₁, hs₁, h₁⟩ := h.release hready { p with applier := none } rfl rfl (by simp [awaited, ha])
      have hafter : Writes p.raft (p.raft.applyConfAfter now) := writes_applyConfAfter _ now
      have hstirs : Stirs { p with applier := none }
          (p.settleApply ((p.raft.applyConfAfter now).applyRun now a.left a.idx a.batch)) :=
        stirs_settleApply (p := { p with applier := none }) rfl
          (hafter.trans (writes_applyRun _ now _ _ _))
          fun _ hpause => hafter.then_persists (persists_applyRun _ now _ _ _ hpause)
      obtain ⟨s₂, hs₂, h₂⟩ := h₁.stirs hstirs
      exact ⟨s₂, hs₁.trans hs₂, h₂⟩
    · exact ⟨s, .refl _ s, h⟩

theorem threadVersions_of_getElem? {threads : List Thread} {k : Nat} {t : Thread}
    (h : threads[k]? = some t) : threadVersions threads =
      if 0 < t.version then t.version ::ₘ threadVersions (threads.eraseIdx k)
      else threadVersions (threads.eraseIdx k) := by
  obtain ⟨hlt, ht⟩ := List.getElem?_eq_some_iff.mp h
  have hperm := (List.getElem_cons_eraseIdx_perm hlt).map Thread.version
  rw [ht, List.map_cons] at hperm
  rw [threadVersions, ← Multiset.coe_eq_coe.mpr hperm, ← Multiset.cons_coe]
  split_ifs with hv
  · exact Multiset.filter_cons_of_pos _ hv
  · exact Multiset.filter_cons_of_neg _ hv

theorem HeldIn.resume (h : p.HeldIn d s) (k : Nat) (now : Int) :
    ∃ s', Registers.Reaches encodeRaftStateLocked s s' ∧ (p.resume k now).HeldIn d s' := by
  rw [Process.resume]
  cases ht : p.threads[k]? with
  | none => exact ⟨s, .refl _ s, h⟩
  | some t =>
    dsimp only
    split_ifs with hready
    · have hversions := threadVersions_of_getElem? ht
      obtain ⟨s₁, hs₁, h₁⟩ : ∃ s', Registers.Reaches encodeRaftStateLocked s s' ∧
          HeldIn d s' { p with threads := p.threads.eraseIdx k } := by
        -- a thread that was started without a `PersistLocked` waits for no version
        split_ifs at hversions with hv
        · exact h.release hready _ rfl rfl (by simp [awaited, hversions])
        · refine ⟨s, .refl _ s, h.raft, h.flusher, ?_⟩
          have hwaiting := h.waiting
          rwa [awaited, hversions] at hwaiting
      obtain ⟨s₂, hs₂, h₂⟩ := h₁.stirs (stirs_runStretch _ now t.stretch)
      exact ⟨s₂, hs₁.trans hs₂, h₂⟩
    · exact ⟨s, .refl _ s, h⟩

theorem HeldIn.take (h : p.HeldIn d s) (hidle : p.flusher = .idle) {st : RaftState}
    (hblob : p.raft.pendingStateBlob = some st)
    (htake : p.raft.persistDirty = true ∧ ¬ p.raft.killed = true) :
    ∃ s', Registers.Reaches encodeRaftStateLocked s s' ∧ HeldIn d s' { p with
      raft := { p.raft with persistDirty := false, pendingStateBlob := none }
      flusher := .saving st p.raft.persistVersion } := by
  have hr := h.raft
  have hflusher : s.flusher = .idle := h.flusher.trans (congrArg Flusher.loop hidle)
  have hstep : s.step encodeRaftStateLocked .take = some { s with
      pendingStateBlob := none
      persistDirty := false
      flusher := .saving s.pendingStateBlob s.persistVersion } := by
    simp [Registers.step, hflusher, hr.killed, hr.dirty, htake]
  refine ⟨_, Registers.reaches_step hstep, ?_, ?_, h.waiting⟩
  · exact ⟨hr.async, hr.backed, rfl, hr.version, hr.synced, rfl, hr.killed, hr.disk⟩
  · rw [Flusher.loop, hr.pending, hr.version, hblob]

theorem HeldIn.save (h : p.HeldIn d s) {st : RaftState} {v : Nat} (hsaving : p.flusher = .saving st v) :
    ∃ s', Registers.Reaches encodeRaftStateLocked s s' ∧ HeldIn d s' { p with
      raft := { p.raft with persister := p.raft.persister.saveRaftState st }
      flusher := .saved v } := by
  have hr := h.raft
  have hflusher : s.flusher = .saving (some st) v := h.flusher.trans (congrArg Flusher.loop hsaving)
  have hstep : s.step encodeRaftStateLocked .save = some { s with
      written := s.written ++ [(v, some st)]
      flusher := .saved v } := by simp [Registers.step, hflusher]
  have hdisk : (p.raft.persister.saveRaftState st).raftState =
      ((s.written ++ [(v, some st)]).getLast?.map Prod.snd).getD d := by
    simp [Persister.saveRaftState]
  refine ⟨_, Registers.reaches_step hstep, ?_, rfl, h.waiting⟩
  exact ⟨hr.async, hr.backed, hr.pending, hr.version, hr.synced, hr.dirty, hr.killed, hdisk⟩

theorem HeldIn.publish (h : p.HeldIn d s) {v : Nat} (hsaved : p.flusher = .saved v) :
    ∃ s', Registers.Reaches encodeRaftStateLocked s s' ∧ HeldIn d s' { p with
      raft := { p.raft with persistSynced := max p.raft.persistSynced v }
      flusher := .idle } := by
  have hr := h.raft
  have hflusher : s.flusher = .saved v := h.flusher.trans (congrArg Flusher.loop hsaved)
  have hstep : s.step encodeRaftStateLocked .publish = some { s with
      persistSynced := max s.persistSynced v
      flusher := .idle } := by simp [Registers.step, hflusher]
  have hsynced : max s.persistSynced v = max p.raft.persistSynced v := congrArg (max · v) hr.synced
  refine ⟨_, Registers.reaches_step hstep, ?_, rfl, h.waiting⟩
  exact ⟨hr.async, hr.backed, hr.pending, hr.version, hsynced, hr.dirty, hr.killed, hr.disk⟩

/-- The flusher of the process takes, saves and publishes as the other one does. -/
theorem HeldIn.flush (h : p.HeldIn d s) :
    ∃ s', Registers.Reaches encodeRaftStateLocked s s' ∧ p.flush.HeldIn d s' := by
  cases hloop : p.flusher with
  | idle =>
    cases hblob : p.raft.pendingStateBlob with
    | none =>
      have hsame : p.flush = p := by simp [Process.flush, hloop, hblob]
      rw [hsame]
      exact ⟨s, .refl _ s, h⟩
    | some st =>
      simp only [Process.flush, hloop, hblob]
      split_ifs with htake
      · exact h.take hloop hblob htake
      · -- nothing to write, or killed: the flusher of the process stands still
        exact ⟨s, .refl _ s, h⟩
  | saving st v =>
    simp only [Process.flush, hloop]
    exact h.save hloop
  | saved v =>
    simp only [Process.flush, hloop]
    exact h.publish hloop

/-- Every event but a restart is a run of the registers, from the ones that hold the process to others
that hold it. -/
theorem HeldIn.step (h : p.HeldIn d s) {e : ProcessEvent} (he : ∀ now, e ≠ .restart now) :
    ∃ s', Registers.Reaches encodeRaftStateLocked s s' ∧ (p.step e).HeldIn d s' := by
  cases e with
  | appendEntries args now => exact h.stirs (stirs_appendEntries p args now)
  | applyLoop now => exact h.stirs (stirs_applyLoop p now)
  | applyResume now => exact h.applyResume now
  | resume k now => exact h.resume k now
  | writeBlob => exact h.stirs (stirs_writeBlob p)
  | flush => exact h.flush
  | restart now => exact absurd rfl (he now)
  | _ => exact h.stirs (stirs_plain p trivial)

theorem heldIn_boot {disk : Disk} (h : disk.persister.fileBacked = true) (peers me : Nat) (now : Int) :
    (boot peers me disk now).HeldIn disk.persister.raftState {} :=
  ⟨make_heldIn h peers me now, rfl, Multiset.zero_le _⟩

/-- At any time, what was registered and written since the node last came up is a run of `PersistLocked`
callers and the flusher; `d` is the state that it came up from. -/
theorem heldIn_run {disk : Disk} (hfile : disk.persister.fileBacked = true) (peers me : Nat) (now : Int)
    (es : List ProcessEvent) : ∃ d as s, Registers.run encodeRaftStateLocked {} as = some s ∧
      ((boot peers me disk now).run es).HeldIn d s := by
  induction es using List.reverseRecOn with
  | nil => exact ⟨_, [], {}, rfl, heldIn_boot hfile peers me now⟩
  | append_singleton es e ih =>
    obtain ⟨d, as, s, hrun, h⟩ := ih
    rw [run_concat]
    by_cases he : ∀ now, e ≠ .restart now
    · obtain ⟨s', ⟨bs, hbs⟩, h'⟩ := h.step he
      refine ⟨d, as ++ bs, s', ?_, h'⟩
      rw [Registers.run, List.foldlM_append]
      exact Option.bind_eq_some_iff.mpr ⟨s, hrun, hbs⟩
    · simp only [ne_eq, not_forall, not_not] at he
      obtain ⟨now', rfl⟩ := he
      exact ⟨_, [], {}, rfl, heldIn_boot h.raft.backed _ _ now'⟩

/-- A thread of a live node goes on after its `PersistLocked` only when the state that it registered,
or a later one, is on the disk. -/
theorem saved_of_ready {disk : Disk} (hfile : disk.persister.fileBacked = true) (peers me : Nat)
    (now : Int) (es : List ProcessEvent) {t : Thread}
    (ht : t ∈ ((boot peers me disk now).run es).threads) (hwaits : 0 < t.version)
    (hready : ((boot peers me disk now).run es).ready t.version = true)
    (halive : ((boot peers me disk now).run es).raft.killed = false) :
    ∃ d as s w, Registers.run encodeRaftStateLocked {} as = some s ∧
      ((boot peers me disk now).run es).HeldIn d s ∧ t.version ≤ w.1 ∧
      Encodes encodeRaftStateLocked as w ∧
      ((boot peers me disk now).run es).raft.persister.raftState = w.2 := by
  obtain ⟨d, as, s, hrun, h⟩ := heldIn_run hfile peers me now es
  have hversion : t.version ∈ threadVersions ((boot peers me disk now).run es).threads :=
    Multiset.mem_filter.mpr ⟨List.mem_map_of_mem ht, hwaits⟩
  have hmem : t.version ∈ s.waiting :=
    Multiset.mem_of_le h.waiting (Multiset.mem_add.mpr (Or.inr hversion))
  have hsynced : t.version ≤ s.persistSynced := by
    rw [h.raft.synced]
    simpa [ready, h.raft.async, halive] using hready
  obtain ⟨w, hw, hle, henc⟩ := (inv_run hrun).released hmem hsynced
  refine ⟨d, as, s, w, hrun, h, hle, henc, ?_⟩
  rw [h.raft.disk, hw]
  rfl

end Process
end ChonKV
