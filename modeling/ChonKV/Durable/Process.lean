import ChonKV.Raft.Apply

/-!
One `Raft` object with its threads, down to its disk. Wherever a thread waits for the flusher in
`PersistLocked`, for `Sync(true)` or for `snap_io_mu_`, it has released `mu_`, and the others go on:
a handler is cut there into stretches.
-/

set_option autoImplicit false

namespace ChonKV

/-- Who calls `SaveSnapshotBlob`: phase 1 of `Raft::Snapshot`, or of `InstallSnapshot`. -/
inductive BlobUser where
  | snapshot (index term : Int) (data : Bytes)
  | install (args : InstallSnapshotArgs) (blob : Bytes)
  deriving DecidableEq, Repr

def BlobUser.blob : BlobUser → SnapshotBlob
  | .snapshot index term data => ⟨index, term, data⟩
  | .install args blob => ⟨args.lastIncludedIndex, args.lastIncludedTerm, blob⟩

/-- What a thread does once it has its lock. -/
inductive Stretch where
  /-- `StartElection`, once a candidate is a follower again. -/
  | prevote
  | startRealElection
  /-- `StartRealElection`, once the vote for itself is saved. -/
  | takeOffice
  /-- A reply callback, once it has stepped down. -/
  | heard
  | snapshotHeard (s : Nat)
  | vote (args : RequestVoteArgs)
  | append (args : AppendEntriesArgs)
  /-- `AdvanceCommitIndexLocked`, after `Sync(true)`. -/
  | commitSynced
  /-- `ProposeConfChangeTo`, once its entry is saved. -/
  | advanceCommit
  | saveBlob (u : BlobUser)
  | snapshotCommit (index term : Int) (data : Bytes)
  /-- `Raft::Snapshot`, once the state is saved. -/
  | truncateStore (index : Int)
  | installReceive (args : InstallSnapshotArgs)
  | installCommit (args : InstallSnapshotArgs) (blob : Bytes)
  /-- Phase 2 of `InstallSnapshot`, once a deposed leader is a follower. -/
  | installLogs (args : InstallSnapshotArgs) (blob : Bytes) (oldSnapIndex : Int)
  /-- Phase 2 of `InstallSnapshot`, once the state is saved. -/
  | installFinish (msg : ApplyMsg) (keep : Bool)
  deriving DecidableEq, Repr

def BlobUser.next : BlobUser → Stretch
  | .snapshot index term data => .snapshotCommit index term data
  | .install args blob => .installCommit args blob

/-- A thread that waits; `version` is what `PersistLocked` waits for. -/
structure Thread where
  stretch : Stretch
  version : Nat := 0
  deriving DecidableEq, Repr

/-- Where `PersistFlushLoop` stands. -/
inductive Flusher where
  | idle
  | saving (st : RaftState) (version : Nat)
  | saved (version : Nat)
  deriving DecidableEq, Repr

/-- `ApplyLoop` in the `PersistLocked` of a conf entry: what is left of the batch. -/
structure ApplyPause where
  left : Nat
  idx : Int
  batch : List ApplyMsg
  version : Nat
  deriving DecidableEq, Repr

/-- `io` is the thread that holds `snap_io_mu_`, and whether it has written its blob. -/
structure Process where
  raft : Raft
  threads : List Thread := []
  io : Option (BlobUser × Bool) := none
  flusher : Flusher := .idle
  applier : Option ApplyPause := none
  applyCh : List ApplyMsg := []

namespace Raft

/-- `ProposeConfChangeTo` up to the end of its `PersistLocked`, when it accepts the change. -/
def confProposed (r : Raft) (server : Int) (target : MemberRole) : Option Raft :=
  if ¬ r.state = .kLeader then none
  else if r.pendingStepdown then none
  else if r.pendingConfIndex ≠ 0 ∨ server < 0 ∨ (r.isMember.length : Int) ≤ server then none
  else if target ≠ .kRemoved ∧ target ≠ .kLearner ∧ target ≠ .kVoter then none
  else if r.voter server.toNat ∧ ¬ isVoter target ∧ r.memberCountLocked ≤ 1 then none
  else if 0 < r.maxRaftStateBytes ∧ r.maxRaftStateBytes ≤ r.raftStateSizeLocked then none
  else
    let e : LogEntry :=
      { term := r.currentTerm, index := r.lastLogIndexLocked + 1, type := .kConfChange
        confServer := server, confRole := target.toInt }
    some (persistLocked { r with
      removedAtIndex := r.removedAtIndex.set server.toNat
        (if target = .kRemoved then e.index else -1)
      logStore := r.logStore.append e
      logs := r.logs ++ [e]
      pendingConfIndex := e.index })

/-- Where no wait releases the lock, `ProposeConfChangeTo` goes on at once. -/
theorem proposeConfChangeTo_raft (r : Raft) (server : Int) (target : MemberRole) :
    (r.proposeConfChangeTo server target).1 =
      ((r.confProposed server target).map fun r' => r'.advanceCommitIndexLocked.1).getD r := by
  rw [proposeConfChangeTo, confProposed]
  simp only [decide_eq_true_eq]
  split_ifs <;> rfl

/-- The batch loop from `idx` on, up to its end or, where that waits for the flusher, to the
`PersistLocked` of a conf entry. -/
def applyRun (r : Raft) (now : Int) : Nat → Int → List ApplyMsg →
    Raft × List ApplyMsg × Option (Nat × Int)
  | 0, _, batch => (r, batch, none)
  | k+1, idx, batch =>
    match r.applyTurn idx with
    | .stop => (r, batch, none)
    | .skip r => r.applyRun now k (idx+1) batch
    | .dispatch r msg => r.applyRun now k (idx+1) (batch ++ [msg])
    | .conf r msg =>
      if r.persistAsync then (r, batch ++ [msg], some (k, idx+1))
      else (r.applyConfAfter now).applyRun now k (idx+1) (batch ++ [msg])

theorem applyConf_persistAsync (r : Raft) (idx : Int) (e : LogEntry) :
    (r.applyConf idx e).persistAsync = r.persistAsync := by
  rw [applyConf, persistLocked]
  dsimp only
  split_ifs <;> rfl

theorem applyConfAfter_persistAsync (r : Raft) (now : Int) :
    (r.applyConfAfter now).persistAsync = r.persistAsync := by
  rw [applyConfAfter]
  split_ifs <;> rfl

/-- Where no wait releases the lock, the loop runs through its batch. -/
theorem applyRun_eq_applyBatch {r : Raft} (h : r.persistAsync = false) (now : Int) (k : Nat) (idx : Int)
    (batch : List ApplyMsg) :
    r.applyRun now k idx batch =
      ((r.applyBatch now k idx).1, batch ++ (r.applyBatch now k idx).2, none) := by
  induction k generalizing r idx batch with
  | zero => simp [applyRun, applyBatch]
  | succ k ih =>
    rw [applyRun, applyBatch, applyTurn]
    by_cases hgate : 0 < r.installGateDepth
    · simp [hgate]
    by_cases hsnap : idx ≤ r.snapshotIndex
    · simp only [hgate, hsnap, ↓reduceIte]
      exact ih (r := { r with lastApplied := max r.lastApplied idx }) h _ _
    by_cases hin : r.inLogs idx
    · by_cases htype : (r.logAt idx).type = .kConfChange
      · have hconf := (applyConf_persistAsync { r with lastApplied := idx } idx (r.logAt idx)).trans h
        have hafter := (applyConfAfter_persistAsync _ now).trans hconf
        simp [hgate, hsnap, hin, htype, hconf, ih hafter]
      · simp only [hgate, hsnap, hin, htype, not_true_eq_false, ↓reduceIte]
        rw [ih (r := { r with lastApplied := idx }) h]
        simp
    · simp [hgate, hsnap, hin]

/-- The state after a turn of the batch loop. -/
def ApplyTurn.raft (r : Raft) : ApplyTurn → Raft
  | .stop => r
  | .skip r' | .dispatch r' _ | .conf r' _ => r'

/-- The rule for the batch loop: a relation that each turn keeps, and the end of a conf entry, the loop
keeps. -/
theorem applyRun_induction {R : Raft → Raft → Prop} (hrefl : ∀ r, R r r)
    (htrans : ∀ {r₁ r₂ r₃ : Raft}, R r₁ r₂ → R r₂ r₃ → R r₁ r₃)
    (hturn : ∀ r idx, R r ((r.applyTurn idx).raft r)) (hafter : ∀ r now, R r (r.applyConfAfter now))
    (r : Raft) (now : Int) (k : Nat) (idx : Int) (batch : List ApplyMsg) :
    R r (r.applyRun now k idx batch).1 := by
  induction k generalizing r idx batch with
  | zero => exact hrefl r
  | succ k ih =>
    have h := hturn r idx
    rw [applyRun]
    cases ht : r.applyTurn idx with
    | stop => exact hrefl r
    | skip r' =>
      rw [ht] at h
      exact htrans h (ih r' _ _)
    | dispatch r' msg =>
      rw [ht] at h
      exact htrans h (ih r' _ _)
    | conf r' msg =>
      rw [ht] at h
      dsimp only
      split_ifs
      · exact h
      · exact htrans h (htrans (hafter r' now) (ih _ _ _))

end Raft

namespace Process

/-- What a restart finds. -/
def disk (p : Process) : Disk where
  persister := p.raft.persister
  segFile :=
    match p.raft.logStore with
    | .segment seg => seg.file
    | .memory => []

/-- `r` is the state after a `PersistLocked`; the thread goes on with `st`. -/
def wait (p : Process) (r : Raft) (st : Stretch) : Process :=
  { p with raft := r, threads := p.threads ++ [⟨st, r.persistVersion⟩] }

/-- The thread goes on with `st` when it gets its lock. -/
def spawn (p : Process) (r : Raft) (st : Stretch) : Process :=
  { p with raft := r, threads := p.threads ++ [⟨st, 0⟩] }

/-- The wait of `PersistLocked` is over. -/
def ready (p : Process) (version : Nat) : Bool :=
  p.raft.killed || !p.raft.persistAsync || decide (version ≤ p.raft.persistSynced)

def synced (p : Process) (r : Raft × Bool) : Process :=
  if r.2 then p.spawn r.1 .commitSynced else { p with raft := r.1 }

def finishStart (p : Process) (st : Raft × Raft.ElectionStart) : Process :=
  if st.2 = .selfOnly then p.spawn st.1 .startRealElection else { p with raft := st.1 }

def electionTimeout (p : Process) (now : Int) : Process :=
  let r := p.raft
  if r.state = .kCandidate ∧ r.voter r.me ∧ ¬ r.killed then
    p.wait (r.convertToFollowerLocked r.currentTerm) .prevote
  else p.finishStart (r.electionTimeout now)

/-- A reply callback: a higher term makes it step down and go on with `st`. -/
def callback (p : Process) (r : Raft) (term : Int) (st : Stretch) (r' : Raft) : Process :=
  if ¬ r.killed ∧ r.currentTerm < term then p.wait (r.convertToFollowerLocked term) st
  else { p with raft := r' }

def prevoteReply (p : Process) (args : RequestPreVoteArgs) (i : Nat) (reply : RequestPreVoteReply)
    (now : Int) : Process :=
  let res := p.raft.prevoteReply args i reply now
  let p' := p.callback p.raft reply.term .heard res.1
  if res.2 then p'.spawn p'.raft .startRealElection else p'

def voteReply (p : Process) (args : RequestVoteArgs) (i : Nat) (reply : RequestVoteReply)
    (now : Int) : Process :=
  p.callback p.raft reply.term .heard (p.raft.voteReply args i reply now)

def readHeartbeatReply (p : Process) (args : AppendEntriesArgs) (s : Nat)
    (reply : AppendEntriesReply) (now : Int) : Process :=
  p.callback p.raft reply.term .heard (p.raft.readHeartbeatReply args s reply now)

def appendReply (p : Process) (args : AppendEntriesArgs) (s : Nat) (ok : Bool)
    (reply : AppendEntriesReply) (now : Int) : Process :=
  let res := p.raft.appendReply args s ok reply now
  if ok ∧ ¬ p.raft.killed ∧ p.raft.currentTerm < reply.term then
    p.wait ((p.raft.noteReached s ok).convertToFollowerLocked reply.term) .heard
  else p.synced res

def snapshotReply (p : Process) (args : InstallSnapshotArgs) (s : Nat) (ok : Bool)
    (reply : InstallSnapshotReply) (now : Int) : Process :=
  p.callback (p.raft.noteReached s ok) (if ok then reply.term else 0) (.snapshotHeard s)
    (p.raft.snapshotReply args s ok reply now)

def requestVote (p : Process) (args : RequestVoteArgs) (now : Int) : Process :=
  let r := p.raft
  if ¬ r.killed ∧ r.currentTerm < args.term then
    p.wait (r.convertToFollowerLocked args.term) (.vote args)
  else { p with raft := (r.requestVote args now).1 }

def appendLocked (p : Process) (args : AppendEntriesArgs) : Process :=
  { p with raft := (p.raft.appendEntriesLocked args {}).1 }

/-- `AppendEntries`; nothing but its answer comes after its `Sync(true)`. -/
def appendEntries (p : Process) (args : AppendEntriesArgs) (now : Int) : Process :=
  let r := p.raft
  if r.killed ∨ args.term < r.currentTerm then p
  else
    let r := r.heardLeader args now
    if r.currentTerm < args.term ∨ r.state ≠ .kFollower then
      p.wait (r.convertToFollowerLocked args.term) (.append args)
    else { p with raft := r }.appendLocked args

def start (p : Process) (command : Command) : Process :=
  let res := p.raft.start command
  p.synced (res.1, res.2.2)

def proposeConf (p : Process) (server : Int) (target : MemberRole) : Process :=
  match p.raft.confProposed server target with
  | none => p
  | some r => p.wait r .advanceCommit

def settleApply (p : Process) (res : Raft × List ApplyMsg × Option (Nat × Int)) : Process :=
  match res.2.2 with
  | none => { p with raft := res.1, applyCh := p.applyCh ++ res.2.1, applier := none }
  | some (k, idx) =>
    { p with raft := res.1, applier := some ⟨k, idx, res.2.1, res.1.persistVersion⟩ }

/-- One turn of `ApplyLoop`, up to the first wait. -/
def applyLoop (p : Process) (now : Int) : Process :=
  let r := p.raft
  if p.applier.isSome ∨ r.killed ∨ 0 < r.installGateDepth then p
  else match r.pendingSnapshot with
    | some msg =>
      { p with raft := { r with pendingSnapshot := none }, applyCh := p.applyCh ++ [msg] }
    | none =>
      if r.lastApplied < r.commitIndex then
        p.settleApply (r.applyRun now (r.applyStop - r.lastApplied).toNat (r.lastApplied + 1) [])
      else p

/-- Where no wait releases the lock, a turn of `ApplyLoop` is one step. -/
theorem applyLoop_of_memory {p : Process} (hp : p.applier = none) (h : p.raft.persistAsync = false)
    (now : Int) : p.applyLoop now =
      { p with raft := (p.raft.applyLoop now).1, applyCh := p.applyCh ++ (p.raft.applyLoop now).2 } := by
  rw [applyLoop, Raft.applyLoop, settleApply, Raft.applyRun_eq_applyBatch h]
  simp only [hp, Option.isSome_none, Bool.false_eq_true, false_or]
  split_ifs with hstill
  · simp [← hp]
  · cases p.raft.pendingSnapshot with
    | none => simp
    | some msg => simp [← hp]
  · cases p.raft.pendingSnapshot with
    | none => simp [← hp]
    | some msg => simp [← hp]

/-- `ApplyLoop` goes on after the `PersistLocked` of a conf entry. -/
def applyResume (p : Process) (now : Int) : Process :=
  match p.applier with
  | none => p
  | some a =>
    if p.ready a.version then
      p.settleApply ((p.raft.applyConfAfter now).applyRun now a.left a.idx a.batch)
    else p

/-- Phase 0 of `Raft::Snapshot`. -/
def snapshot (p : Process) (index : Int) (data : Bytes) : Process :=
  match p.raft.snapshotCheck index with
  | none => p
  | some term => p.spawn p.raft (.saveBlob (.snapshot index term data))

/-- The end of phase 0 of `InstallSnapshot`. -/
def received (p : Process) (args : InstallSnapshotArgs) (now : Int) : Process :=
  let res := p.raft.installReceive args {} now
  match res.2.2 with
  | none => { p with raft := res.1 }
  | some blob => p.spawn res.1 (.saveBlob (.install args blob))

/-- Phase 0 of `InstallSnapshot`. -/
def installSnapshot (p : Process) (args : InstallSnapshotArgs) (now : Int) : Process :=
  let r := p.raft
  if args.term < r.currentTerm then p
  else if r.currentTerm < args.term then
    p.wait (r.convertToFollowerLocked args.term) (.installReceive args)
  else p.received args now

/-- Phase 2 from the logs on. -/
def installLogs (p : Process) (args : InstallSnapshotArgs) (blob : Bytes) (oldSnapIndex : Int) :
    Process :=
  let keep := decide (p.raft.installPos args oldSnapIndex < p.raft.logs.length)
  p.wait (p.raft.installLogs args oldSnapIndex) (.installFinish (Raft.snapshotMsg args blob) keep)

/-- Phase 2 of `InstallSnapshot`. -/
def installCommit (p : Process) (args : InstallSnapshotArgs) (blob : Bytes) : Process :=
  if p.raft.installStale args then p
  else
    let r := p.raft.installBegin args blob
    if r.installDeposed args then
      p.wait (r.convertToFollowerLocked r.currentTerm)
        (.installLogs args blob p.raft.snapshotIndex)
    else { p with raft := r }.installLogs args blob p.raft.snapshotIndex

/-- `SaveSnapshotBlob` takes `snap_io_mu_` and looks at `saved_blob_index_`. -/
def saveBlob (p : Process) (u : BlobUser) : Process :=
  if p.io.isSome then p.spawn p.raft (.saveBlob u)
  else if u.blob.index ≤ p.raft.savedBlobIndex then p.spawn p.raft u.next
  else { p with io := some (u, false) }

/-- The next step of the thread that holds `snap_io_mu_`: the write, then the note that it is done. -/
def writeBlob (p : Process) : Process :=
  match p.io with
  | none => p
  | some (u, false) =>
    { p with
      raft := { p.raft with persister := p.raft.persister.saveSnapshotOnly u.blob }
      io := some (u, true) }
  | some (u, true) =>
    { p with io := none }.spawn
      { p.raft with savedBlobIndex := max p.raft.savedBlobIndex u.blob.index } u.next

/-- The next step of `PersistFlushLoop`. -/
def flush (p : Process) : Process :=
  let r := p.raft
  match p.flusher with
  | .idle =>
    match r.pendingStateBlob with
    | some st =>
      if r.persistDirty ∧ ¬ r.killed then
        { p with
          raft := { r with persistDirty := false, pendingStateBlob := none }
          flusher := .saving st r.persistVersion }
      else p
    | none => p
  | .saving st v =>
    { p with raft := { r with persister := r.persister.saveRaftState st }, flusher := .saved v }
  | .saved v =>
    { p with raft := { r with persistSynced := max r.persistSynced v }, flusher := .idle }

/-- One stretch of a thread that has its lock. -/
def runStretch (p : Process) (now : Int) : Stretch → Process
  | .prevote => p.finishStart (p.raft.beginPrevote now)
  | .startRealElection =>
    let res := p.raft.standForTerm now
    if res.2 then p.wait res.1 .takeOffice else { p with raft := res.1 }
  | .takeOffice =>
    { p with
      raft := if p.raft.quorumSizeLocked ≤ p.raft.countGrantedVotesLocked then
        p.raft.becomeLeaderIfQuorumLocked now else p.raft }
  | .heard => { p with raft := { p.raft with lastHeartbeat := now } }
  | .snapshotHeard s =>
    { p with
      raft := { p.raft with lastHeartbeat := now, snapInFlight := p.raft.snapInFlight.set s false } }
  | .vote args => { p with raft := (p.raft.decideVote args {} now).1 }
  | .append args => p.appendLocked args
  | .commitSynced => { p with raft := p.raft.commitSynced }
  | .advanceCommit => p.synced p.raft.advanceCommitIndexLocked
  | .saveBlob u => p.saveBlob u
  | .snapshotCommit index term data =>
    let res := p.raft.snapshotCommit index term data
    if res.2 then p.wait res.1 (.truncateStore index) else { p with raft := res.1 }
  | .truncateStore index => { p with raft := p.raft.truncateStore index }
  | .installReceive args => p.received args now
  | .installCommit args blob => p.installCommit args blob
  | .installLogs args blob old => p.installLogs args blob old
  | .installFinish msg keep => { p with raft := p.raft.installFinish msg keep }

/-- The `k`-th of the waiting threads goes on, if it may. -/
def resume (p : Process) (k : Nat) (now : Int) : Process :=
  match p.threads[k]? with
  | none => p
  | some t =>
    if p.ready t.version then { p with threads := p.threads.eraseIdx k }.runStretch now t.stretch
    else p

end Process

inductive ProcessEvent where
  | electionTimeout (now : Int)
  | leaderTick (now : Int)
  | prevoteReply (args : RequestPreVoteArgs) (i : Nat) (reply : RequestPreVoteReply) (now : Int)
  | voteReply (args : RequestVoteArgs) (i : Nat) (reply : RequestVoteReply) (now : Int)
  | readHeartbeatReply (args : AppendEntriesArgs) (s : Nat) (reply : AppendEntriesReply) (now : Int)
  | appendReply (args : AppendEntriesArgs) (s : Nat) (ok : Bool) (reply : AppendEntriesReply)
    (now : Int)
  | snapshotReply (args : InstallSnapshotArgs) (s : Nat) (ok : Bool) (reply : InstallSnapshotReply)
    (now : Int)
  | requestVote (args : RequestVoteArgs) (now : Int)
  | appendEntries (args : AppendEntriesArgs) (now : Int)
  | installSnapshot (args : InstallSnapshotArgs) (now : Int)
  | replicate (s : Nat) (now : Int)
  | start (command : Command)
  | proposeConf (server : Int) (target : MemberRole)
  | snapshot (index : Int) (data : Bytes)
  | readIndexOpen (now : Int)
  | readIndexPoll (ctx : Nat) (term readIndex deadline now : Int)
  | setLimits (maxUncommitted : Int) (maxStateBytes : Nat)
  | applyLoop (now : Int)
  | applyResume (now : Int)
  | resume (k : Nat) (now : Int)
  | writeBlob
  | flush
  | kill
  /-- The process ends, and a new one comes up from its disk. -/
  | restart (now : Int)
  deriving DecidableEq, Repr

namespace Process

def step (p : Process) : ProcessEvent → Process
  | .electionTimeout now => p.electionTimeout now
  | .leaderTick now => { p with raft := p.raft.leaderTick now }
  | .prevoteReply args i reply now => p.prevoteReply args i reply now
  | .voteReply args i reply now => p.voteReply args i reply now
  | .readHeartbeatReply args s reply now => p.readHeartbeatReply args s reply now
  | .appendReply args s ok reply now => p.appendReply args s ok reply now
  | .snapshotReply args s ok reply now => p.snapshotReply args s ok reply now
  | .requestVote args now => p.requestVote args now
  | .appendEntries args now => p.appendEntries args now
  | .installSnapshot args now => p.installSnapshot args now
  | .replicate s now => { p with raft := (p.raft.replicate s now).1 }
  | .start command => p.start command
  | .proposeConf server target => p.proposeConf server target
  | .snapshot index data => p.snapshot index data
  | .readIndexOpen now => { p with raft := (p.raft.readIndexOpen now).1 }
  | .readIndexPoll ctx term readIndex deadline now =>
    { p with raft := (p.raft.readIndexPoll ctx term readIndex deadline now).1 }
  | .setLimits m b =>
    { p with raft := { p.raft with maxUncommittedEntries := m, maxRaftStateBytes := b } }
  | .applyLoop now => p.applyLoop now
  | .applyResume now => p.applyResume now
  | .resume k now => p.resume k now
  | .writeBlob => p.writeBlob
  | .flush => p.flush
  | .kill => { p with raft := { p.raft with killed := true } }
  | .restart now => { raft := Raft.make p.raft.peers p.raft.me p.disk now }

/-- A node comes up from `d`. -/
def boot (peers me : Nat) (d : Disk) (now : Int) : Process := { raft := Raft.make peers me d now }

def run (p : Process) (es : List ProcessEvent) : Process := es.foldl step p

/-- Every step of the run from `p` meets `C`. -/
def Meets (C : Process → ProcessEvent → Prop) (p : Process) : List ProcessEvent → Prop
  | [] => True
  | e :: es => C p e ∧ Meets C (p.step e) es

theorem run_append (p : Process) (es₁ es₂ : List ProcessEvent) :
    p.run (es₁ ++ es₂) = (p.run es₁).run es₂ := List.foldl_append

theorem run_concat (p : Process) (es : List ProcessEvent) (e : ProcessEvent) :
    p.run (es ++ [e]) = (p.run es).step e := run_append p es [e]

theorem meets_append {C : Process → ProcessEvent → Prop} {p : Process} {es₁ es₂ : List ProcessEvent} :
    Meets C p (es₁ ++ es₂) ↔ Meets C p es₁ ∧ Meets C (p.run es₁) es₂ := by
  induction es₁ generalizing p with
  | nil => exact (and_iff_right trivial).symm
  | cons e es₁ ih => exact (and_congr_right fun _ => ih).trans and_assoc.symm

end Process
end ChonKV
