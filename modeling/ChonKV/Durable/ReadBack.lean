import ChonKV.Durable.Freeze
import ChonKV.Handler.Merge
import ChonKV.Raft.ReadPersist

/-!
A node without a file store: what every run keeps of it, and when the state that it saves is read back.
-/

set_option autoImplicit false

namespace ChonKV

open Framing

namespace Raft

/-- The log is kept in memory and in the state blob, and every peer has its role. -/
structure InMemory (r : Raft) : Prop where
  members : r.isMember.length = r.peers
  store : r.logStore = .memory
  backed : r.persister.fileBacked = false

variable {r r' : Raft}

theorem InMemory.still (h : r.InMemory) (hs : Still r r') : r'.InMemory :=
  ⟨hs.members.trans (h.members.trans hs.peers.symm), hs.logStore.trans h.store, hs.backed.trans h.backed⟩

theorem InMemory.edited (h : r.InMemory) (he : Edited r r') : r'.InMemory := by
  induction he with
  | still hs => exact h.still hs
  | edit _ he hs ih =>
    refine InMemory.still ?_ hs
    cases he with
    | push e _ _ => exact ⟨ih.members, congrArg (LogStorage.append · e) ih.store, ih.backed⟩
    | propose e _ _ _ => exact ⟨ih.members, congrArg (LogStorage.append · e) ih.store, ih.backed⟩
    | elect => exact ⟨ih.members, ih.store, ih.backed⟩

theorem InMemory.sameLog (h : r.InMemory) (hs : SameLog r r') : r'.InMemory :=
  ⟨hs.members.trans (h.members.trans hs.peers.symm), hs.logStore.trans h.store, hs.backed.trans h.backed⟩

theorem mergeEntry_memory (si : Int) {m : MergeState} (e : LogEntry) (h : m.logStore = .memory) :
    (mergeEntry si m e).logStore = .memory := by
  rw [mergeEntry]
  split_ifs <;> simp [h]

theorem foldl_mergeEntry_memory (si : Int) (es : List LogEntry) {m : MergeState}
    (h : m.logStore = .memory) : (es.foldl (mergeEntry si) m).logStore = .memory := by
  induction es generalizing m with
  | nil => exact h
  | cons e es ih => exact ih (mergeEntry_memory si e h)

theorem InMemory.appendEntriesLocked (h : r.InMemory) (args : AppendEntriesArgs)
    (reply : AppendEntriesReply) : (r.appendEntriesLocked args reply).1.InMemory := by
  have hmerge : (r.mergeLocked args).InMemory := by
    have hm := foldl_mergeEntry_memory r.snapshotIndex args.entries
      (m := { logs := r.logs, logStore := r.logStore }) h.store
    rw [mergeLocked]
    split_ifs
    · refine InMemory.still ?_ (still_persistLocked _)
      exact ⟨h.members, hm, h.backed⟩
    · exact ⟨h.members, hm, h.backed⟩
  rw [Raft.appendEntriesLocked]
  split_ifs
  · exact h
  · exact h
  · exact hmerge.still (still_followCommit _ args)

theorem InMemory.snapshotCommit (h : r.InMemory) (index term : Int) (data : Bytes) :
    (r.snapshotCommit index term data).1.InMemory := by
  rw [snapshotCommit_eq]
  split_ifs
  · exact h
  · have hcut : (r.snapshotCut index term data).InMemory :=
      ⟨h.members, congrArg (LogStorage.dropPrefix · index) h.store, h.backed⟩
    exact hcut.still (still_persistLocked _)

theorem InMemory.truncateStore (h : r.InMemory) (index : Int) : (r.truncateStore index).InMemory :=
  ⟨h.members, congrArg (LogStorage.truncatePrefix · index) h.store, h.backed⟩

/-- The members that a snapshot brings are taken over when there is one for each peer. -/
theorem InMemory.installBegin (h : r.InMemory) (args : InstallSnapshotArgs) (blob : Bytes) :
    (r.installBegin args blob).InMemory := by
  refine ⟨?_, h.store, h.backed⟩
  dsimp only [Raft.installBegin]
  split_ifs with hlen
  · exact (List.length_map _).trans hlen
  · exact h.members

theorem InMemory.installLogs (h : r.InMemory) (args : InstallSnapshotArgs) (old : Int) :
    (r.installLogs args old).InMemory := by
  refine InMemory.still ?_ (still_persistLocked _)
  exact ⟨h.members, congrArg (LogStorage.dropPrefix · _) h.store, h.backed⟩

theorem InMemory.installFinish (h : r.InMemory) (msg : ApplyMsg) (keep : Bool) :
    (r.installFinish msg keep).InMemory :=
  ⟨h.members, congrArg (LogStorage.truncatePrefix · _) h.store, h.backed⟩

theorem inMemory_make (peers me : Nat) {d : Disk} (now : Int) (hd : d.persister.fileBacked = false) :
    (make peers me d now).InMemory := by
  obtain ⟨hpeers, hmembers, -, -⟩ := make_members peers me d now
  refine ⟨hmembers.trans hpeers.symm, ?_, ?_⟩
  · have hblank : (blank peers me d now).logStore = .memory := by
      rw [blank, hd]
      rfl
    have hadopt : ∀ (r : Raft) (b : SnapshotBlob), (r.adoptBlob b).logStore = r.logStore := by
      intro r b
      rw [adoptBlob]
      split_ifs <;> rfl
    have hrest : ∀ (r : Raft) (st : RaftState), r.logStore = .memory →
        (r.restoreRest st).logStore = .memory := fun r _ hr => congrArg (LogStorage.resetFromLogs · r.logs) hr
    rw [make]
    split
    · next st _ =>
      rw [readPersist]
      refine hrest _ st ?_
      split
      · exact (hadopt _ _).trans hblank
      · exact hblank
    · exact hblank
  · rw [make_persister]
    exact hd

end Raft

open Raft

namespace Process

variable {p : Process}

theorem inMemory_installCommit (h : p.raft.InMemory) (args : InstallSnapshotArgs) (blob : Bytes) :
    (p.installCommit args blob).raft.InMemory := by
  have hbegin := h.installBegin args blob
  rw [Process.installCommit]
  dsimp only
  split_ifs
  · exact h
  · exact hbegin.still (still_convertToFollowerLocked _ _)
  · exact hbegin.installLogs args _

theorem inMemory_saveBlob (h : p.raft.InMemory) (u : BlobUser) : (p.saveBlob u).raft.InMemory := by
  rw [Process.saveBlob]
  split_ifs <;> exact h

theorem inMemory_resume (h : p.raft.InMemory) (k : Nat) (now : Int) : (p.resume k now).raft.InMemory := by
  rw [Process.resume]
  cases p.threads[k]? with
  | none => exact h
  | some t =>
    dsimp only
    split_ifs
    · have h₀ : Raft.InMemory { p with threads := p.threads.eraseIdx k }.raft := h
      cases t.stretch with
      | append args => exact h.appendEntriesLocked args {}
      | saveBlob u => exact inMemory_saveBlob h₀ u
      | snapshotCommit index term data =>
        have hcut := h.snapshotCommit index term data
        rw [runStretch]
        split_ifs <;> exact hcut
      | truncateStore index => exact h.truncateStore index
      | installCommit args blob => exact inMemory_installCommit h₀ args blob
      | installLogs args blob old => exact h.installLogs args old
      | installFinish msg keep => exact h.installFinish msg keep
      | _ =>
        refine h.edited (via_runStretch { p with threads := p.threads.eraseIdx k } now ?_ (by simp)).raft
        trivial
    · exact h

theorem inMemory_step (h : p.raft.InMemory) (e : ProcessEvent) : (p.step e).raft.InMemory := by
  cases e with
  | appendEntries args now =>
    exact (moves_appendEntries (R := fun _ r' => r'.InMemory) p args now (fun _ hr => h.still hr)
      fun _ hr _ => (h.still hr).appendEntriesLocked args {}).raft
  | applyLoop now =>
    exact (moves_applyLoop (P := Stretch.Plain) (R := fun _ r' => r'.InMemory) p now
      (fun _ hr => h.still hr) (h.sameLog (sameLog_applyRun _ _ _ _ _))).raft
  | applyResume now =>
    exact (moves_applyResume (P := Stretch.Plain) (R := fun _ r' => r'.InMemory) p now
      (fun _ hr => h.still hr)
      fun a _ => (h.still (still_applyConfAfter _ now)).sameLog (sameLog_applyRun _ _ _ _ _)).raft
  | resume k now => exact inMemory_resume h k now
  | writeBlob =>
    rw [step, Process.writeBlob]
    split <;> exact ⟨h.members, h.store, h.backed⟩
  | flush =>
    rw [step, Process.flush]
    split
    · split
      · split_ifs <;> exact ⟨h.members, h.store, h.backed⟩
      · exact h
    · exact ⟨h.members, h.store, h.backed⟩
    · exact ⟨h.members, h.store, h.backed⟩
  | restart now => exact inMemory_make _ _ now h.backed
  | _ =>
    refine h.edited (via_step p ?_).raft
    trivial

theorem inMemory_run {es : List ProcessEvent} (h : p.raft.InMemory) : (p.run es).raft.InMemory := by
  induction es generalizing p with
  | nil => exact h
  | cons e es ih => exact ih (inMemory_step h e)

/-- A snapshot blob that is not ahead of the state, or none. -/
def Behind (snapshotIndex : Int) (diskBlob : Bytes) : Prop :=
  match decodeSnapshotBlob diskBlob with
  | .decoded i _ _ => i.toInt ≤ snapshotIndex
  | .noSnapshot => True
  | .corrupt => False

/-- What a restart is to bring back. -/
structure SameState (r r' : Raft) : Prop where
  currentTerm : r'.currentTerm = r.currentTerm
  votedFor : r'.votedFor = r.votedFor
  snapshotIndex : r'.snapshotIndex = r.snapshotIndex
  snapshotTerm : r'.snapshotTerm = r.snapshotTerm
  logs : r'.logs = r.logs
  isMember : r'.isMember = r.isMember
  pendingConfIndex : r'.pendingConfIndex = r.pendingConfIndex

/-- A blob that is not ahead of the state leaves its index, its term and its log alone. -/
theorem adoptBlob_behind {r : Raft} {b : SnapshotBlob} (h : b.index ≤ r.snapshotIndex) :
    ∃ crc i data, r.adoptBlob b = { r with snapCrc := crc, snapCrcIndex := i, snapshotData := data } := by
  rw [adoptBlob, if_neg (not_lt.mpr h)]
  split_ifs
  · exact ⟨_, _, _, rfl⟩
  · exact ⟨r.snapCrc, r.snapCrcIndex, r.snapshotData, rfl⟩

theorem sameState_restoreRest {r b : Raft} (hr : r.InMemory) (hstore : b.logStore = .memory)
    (hpeers : b.peers = r.peers) (crc : UInt32) (i : Int) (data : Bytes) :
    SameState r (Raft.restoreRest { b.restoreState r.encodeRaftStateLocked with
      snapCrc := crc, snapCrcIndex := i, snapshotData := data } r.encodeRaftStateLocked) := by
  refine ⟨rfl, rfl, rfl, rfl, ?_, ?_, rfl⟩
  · show (if b.logStore.keepsLogExternally then _ else _) = r.logs
    rw [hstore]
    simp [encodeRaftStateLocked, hr.store]
  · exact if_pos (hr.members.trans hpeers.symm)

theorem encode_ne_nil {s : RaftState} (h : s.Fits) : s.encode ≠ [] := by
  rw [RaftState.encode, List.flatten_cons]
  intro hnil
  have hr := (frames_putZigzag h.currentTerm).reads
  have hnil' := List.append_eq_nil_iff.mp hnil
  have hr' := hr []
  rw [hnil'.1] at hr'
  cases hr'

/-- In every run of a node without a file store, the state that it saves is read back just when its log is
not longer than the decoder allows. -/
theorem read_back_iff (peers me : Nat) (d : Disk) (now : Int) (hd : d.persister.fileBacked = false)
    (es : List ProcessEvent) (hfits : ((boot peers me d now).run es).raft.encodeRaftStateLocked.Fits)
    (d' : Disk) (hd' : d'.persister.fileBacked = false) (me' : Nat) (now' : Int) (diskBlob : Bytes)
    (hblob : Behind ((boot peers me d now).run es).raft.snapshotIndex diskBlob) :
    let r := ((boot peers me d now).run es).raft
    (∃ r', (blank r.peers me' d' now').readPersistData r.encodeRaftStateLocked.encode diskBlob = some r' ∧
      SameState r r') ↔ r.logs.length ≤ kMaxStateEntries := by
  intro r
  have hr : r.InMemory := inMemory_run (inMemory_make peers me now hd)
  have hstore : (blank r.peers me' d' now').logStore = .memory := by
    rw [blank, hd']
    rfl
  have hlogs : r.encodeRaftStateLocked.logs = r.logs := by simp [encodeRaftStateLocked, hr.store]
  have hexternal : (blank r.peers me' d' now').logStore.keepsLogExternally = false :=
    congrArg LogStorage.keepsLogExternally hstore
  rw [← hlogs]
  constructor
  · rintro ⟨r', hread, -⟩
    by_contra hn
    have hnone : readAll (RaftState.read false) r.encodeRaftStateLocked.encode = none := by
      rw [readAll, RaftState.read_overlong hfits (not_le.mp hn)]
    rw [readPersistData, if_neg (encode_ne_nil hfits), hexternal, hnone] at hread
    cases hread
  · intro hn
    rw [readPersistData_eq (hexternal ▸ (RaftState.readAll_encode_iff hfits).mpr hn)]
    rw [Behind] at hblob
    cases hdec : decodeSnapshotBlob diskBlob with
    | decoded i t raw =>
      rw [hdec] at hblob
      obtain ⟨crc, j, data, heq⟩ := adoptBlob_behind (b := ⟨i.toInt, t.toInt, raw⟩)
        (r := (blank r.peers me' d' now').restoreState r.encodeRaftStateLocked) hblob
      refine ⟨_, rfl, ?_⟩
      rw [heq]
      exact sameState_restoreRest hr hstore rfl crc j data
    | noSnapshot => exact ⟨_, rfl, sameState_restoreRest hr hstore rfl _ _ _⟩
    | corrupt =>
      rw [hdec] at hblob
      cases hblob

end Process

open Process

/-- `k` entries of term 1. -/
def filled (k : Nat) : List LogEntry :=
  (List.range k).map fun i : Nat => { term := 1, index := (i : Int) + 1 }

def filledState (k : Nat) : RaftState where
  currentTerm := 1
  votedFor := -1
  snapshotIndex := 0
  snapshotTerm := 0
  logs := sentinel 0 0 :: filled k
  isMember := [.kVoter, .kVoter]
  pendingConfIndex := 0

/-- The entry behind the first `i`. -/
def oneMore (i : Nat) : AppendEntriesArgs :=
  { term := 1, leaderId := 1, prevLogIndex := i, prevLogTerm := if i = 0 then 0 else 1
    entries := [{ term := 1, index := (i : Int) + 1 }] }

/-- A node gets `k` entries, one by one. -/
def fillEvents (k : Nat) : List ProcessEvent :=
  .requestVote { term := 1, candidateId := 1 } 0 :: (List.range k).map fun i => .appendEntries (oneMore i) 0

theorem filled_succ (k : Nat) : filled (k+1) = filled k ++ [{ term := 1, index := (k : Int) + 1 }] := by
  rw [filled, List.range_succ, List.map_append]
  rfl

theorem filled_length (k : Nat) : (filled k).length = k := by
  rw [filled, List.length_map, List.length_range]

theorem fits_filled {k : Nat} (hk : k < 2^31) {e : LogEntry} (he : e ∈ filled k) : e.Fits := by
  obtain ⟨i, hi, rfl⟩ := List.mem_map.mp he
  have hlt := List.mem_range.mp hi
  exact ⟨(⟨by decide, by decide⟩ : Fits64 1), ⟨by dsimp only; omega, by dsimp only; omega⟩,
    (by decide : 0 < 2^64), (⟨by decide, by decide⟩ : Fits32 0), (⟨by decide, by decide⟩ : Fits32 (-1)),
    (⟨by decide, by decide⟩ : Fits32 0)⟩

theorem filledState_fits {k : Nat} (hk : k < 2^31 - 1) : (filledState k).Fits where
  currentTerm := (⟨by decide, by decide⟩ : Fits64 1)
  votedFor := (⟨by decide, by decide⟩ : Fits32 (-1))
  snapshotIndex := (⟨by decide, by decide⟩ : Fits64 0)
  snapshotTerm := (⟨by decide, by decide⟩ : Fits64 0)
  logs := by
    intro e he
    cases he with
    | head =>
      have h0 : Fits64 0 := ⟨by decide, by decide⟩
      have h0' : Fits32 0 := ⟨by decide, by decide⟩
      exact ⟨h0, h0, (by decide : 0 < 2^64), h0', (⟨by decide, by decide⟩ : Fits32 (-1)), h0'⟩
    | tail _ he => exact fits_filled (by omega) he
  count := by
    show (filled k).length + 1 < 2^31
    rw [filled_length]
    omega
  roles := by
    intro m hm
    have hv : m = .kVoter := by simpa [filledState] using hm
    subst hv
    exact ⟨(⟨by decide, by decide⟩ : Fits32 2), rfl⟩
  members := (by decide : 2 < 2^31)
  pendingConfIndex := (⟨by decide, by decide⟩ : Fits64 0)

/-- A follower of term 1 with the first `k` entries. -/
structure Follows (k : Nat) (r : Raft) : Prop where
  live : r.killed = false
  state : r.state = .kFollower
  store : r.logStore = .memory
  saved : r.encodeRaftStateLocked = filledState k

theorem Follows.logs {k : Nat} {r : Raft} (h : Follows k r) : r.logs = sentinel 0 0 :: filled k := by
  have hlogs := congrArg RaftState.logs h.saved
  simpa [encodeRaftStateLocked, h.store, filledState] using hlogs

theorem leveled_filled (k : Nat) : Leveled 0 (sentinel 0 0 :: filled k) := by
  induction k with
  | zero => exact ⟨by simp, rfl, trivial⟩
  | succ k ih =>
    rw [filled_succ, ← List.cons_append]
    refine ih.push ?_
    rw [ih.lastIndexOf_eq, List.length_cons, filled_length]
    push_cast
    omega

theorem Follows.merged {k : Nat} {r : Raft} (h : Follows k r) :
    Follows (k+1) (r.mergeLocked (oneMore k)) := by
  have hi : r.snapshotIndex = 0 := congrArg RaftState.snapshotIndex h.saved
  have hlast : lastIndexOf (sentinel 0 0 :: filled k) = k := by
    rw [(leveled_filled k).lastIndexOf_eq, List.length_cons, filled_length]
    push_cast
    omega
  have hlogs := foldl_mergeEntry_behind (m := { logs := r.logs, logStore := r.logStore })
    (oneMore k).entries le_rfl (h.logs ▸ leveled_filled k) (by
      show Assoc.Numbered LogEntry.index (lastIndexOf r.logs + 1) _
      rw [h.logs, hlast]
      exact ⟨rfl, trivial⟩)
  have hstore := foldl_mergeEntry_memory r.snapshotIndex (oneMore k).entries
    (m := { logs := r.logs, logStore := r.logStore }) h.store
  have hpersist : ∀ r' : Raft, Follows (k+1) r' → Follows (k+1) r'.persistLocked := by
    intro r' hr'
    have heq : r'.persistLocked.killed = r'.killed ∧ r'.persistLocked.state = r'.state ∧
        r'.persistLocked.logStore = r'.logStore ∧
        r'.persistLocked.encodeRaftStateLocked = r'.encodeRaftStateLocked := by
      rw [persistLocked]
      split_ifs <;> exact ⟨rfl, rfl, rfl, rfl⟩
    exact ⟨heq.1.trans hr'.live, heq.2.1.trans hr'.state, heq.2.2.1.trans hr'.store,
      heq.2.2.2.trans hr'.saved⟩
  have hfollows : Follows (k+1) { r with
      logs := ((oneMore k).entries.foldl (mergeEntry r.snapshotIndex)
        { logs := r.logs, logStore := r.logStore }).logs
      logStore := ((oneMore k).entries.foldl (mergeEntry r.snapshotIndex)
        { logs := r.logs, logStore := r.logStore }).logStore } := by
    have hnew : ((oneMore k).entries.foldl (mergeEntry r.snapshotIndex)
        { logs := r.logs, logStore := r.logStore }).logs = sentinel 0 0 :: filled (k+1) := by
      rw [hi, hlogs, h.logs, filled_succ]
      rfl
    have hsaved := h.saved
    simp only [encodeRaftStateLocked, filledState, RaftState.mk.injEq] at hsaved
    refine ⟨h.live, h.state, hstore, ?_⟩
    simp only [encodeRaftStateLocked, filledState, RaftState.mk.injEq]
    exact ⟨hsaved.1, hsaved.2.1, hsaved.2.2.1, hsaved.2.2.2.1, by rw [hstore]; exact hnew,
      hsaved.2.2.2.2.2.1, hsaved.2.2.2.2.2.2⟩
  rw [mergeLocked]
  dsimp only
  split_ifs
  · exact hpersist _ hfollows
  · exact hfollows

theorem Follows.step {k : Nat} {p : Process} (h : Follows k p.raft) :
    Follows (k+1) (p.step (.appendEntries (oneMore k) 0)).raft := by
  have hterm : p.raft.currentTerm = 1 := congrArg RaftState.currentTerm h.saved
  have hi : p.raft.snapshotIndex = 0 := congrArg RaftState.snapshotIndex h.saved
  have hheard : Follows k (p.raft.heardLeader (oneMore k) 0) := ⟨h.live, h.state, h.store, h.saved⟩
  have hlast : lastIndexOf p.raft.logs = k := by
    rw [h.logs, (leveled_filled k).lastIndexOf_eq, List.length_cons, filled_length]
    push_cast
    omega
  have hacc : (p.raft.heardLeader (oneMore k) 0).Accepts (oneMore k) := by
    refine ⟨hlast.ge, fun _ => ?_⟩
    show (entryAt p.raft.snapshotIndex p.raft.logs k).term = if k = 0 then 0 else 1
    rw [hi, h.logs, entryAt]
    cases k with
    | zero => rfl
    | succ j => simp [filled, List.getD_eq_getElem?_getD]
  have hlive : ¬ (p.raft.killed ∨ (oneMore k).term < p.raft.currentTerm) := by
    simp [h.live, hterm, oneMore]
  have hstays : ¬ ((p.raft.heardLeader (oneMore k) 0).currentTerm < (oneMore k).term ∨
      (p.raft.heardLeader (oneMore k) 0).state ≠ .kFollower) := by
    simp [heardLeader, h.state, hterm, oneMore]
  have hmerged := hheard.merged
  rw [Process.step, Process.appendEntries, if_neg hlive]
  dsimp only
  rw [if_neg hstays, appendLocked, appendEntriesLocked_of_accepts hacc, followCommit_eq]
  exact ⟨hmerged.live, hmerged.state, hmerged.store, hmerged.saved⟩

theorem follows_fill (k : Nat) : Follows k ((boot 2 0 {} 0).run (fillEvents k)).raft := by
  have hrun : ∀ (p : Process), Follows 0 p.raft → Follows k
      (p.run ((List.range k).map fun i => .appendEntries (oneMore i) 0)).raft := by
    intro p hp
    induction k with
    | zero => exact hp
    | succ k ih =>
      rw [List.range_succ, List.map_append, run, List.foldl_append]
      exact Follows.step ih
  refine hrun _ ⟨?_, ?_, ?_, ?_⟩
  all_goals decide +kernel

theorem read_back_filled :
    ∃ r', (blank 2 0 {} 0).readPersistData
      ((boot 2 0 {} 0).run (fillEvents 3)).raft.encodeRaftStateLocked.encode [] = some r' ∧
      SameState ((boot 2 0 {} 0).run (fillEvents 3)).raft r' := by
  have h := follows_fill 3
  refine (read_back_iff 2 0 {} 0 rfl (fillEvents 3) ?_ {} rfl 0 0 [] trivial).mpr ?_
  · rw [h.saved]
    exact filledState_fits (by decide)
  · rw [h.logs]
    decide

/-- A follower whose log outgrows the decoder does not start again. -/
theorem read_back_aborts :
    ((boot 2 0 {} 0).run (fillEvents kMaxStateEntries)).raft.logs.length < 2^31 ∧
      ((boot 2 0 {} 0).run (fillEvents kMaxStateEntries)).raft.encodeRaftStateLocked.Fits ∧
      (blank 2 0 {} 0).readPersistData
        ((boot 2 0 {} 0).run (fillEvents kMaxStateEntries)).raft.encodeRaftStateLocked.encode [] =
        none := by
  have h := follows_fill kMaxStateEntries
  have hfits := filledState_fits (k := kMaxStateEntries) (by decide)
  have hlen : (sentinel 0 0 :: filled kMaxStateEntries).length = kMaxStateEntries + 1 := by
    rw [List.length_cons, filled_length]
  have hover : RaftState.read false (filledState kMaxStateEntries).encode = none :=
    RaftState.read_overlong hfits (by
      show _ < (sentinel 0 0 :: filled kMaxStateEntries).length
      rw [hlen]
      exact Nat.lt_succ_self _) false
  refine ⟨?_, h.saved ▸ hfits, ?_⟩
  · rw [h.logs, hlen]
    decide
  · have hnone : readAll (RaftState.read false) (filledState kMaxStateEntries).encode = none := by
      rw [readAll, hover]
    have hexternal : (blank 2 0 {} 0).logStore.keepsLogExternally = false := rfl
    rw [h.saved, readPersistData, if_neg (encode_ne_nil hfits), hexternal, hnone]

end ChonKV
