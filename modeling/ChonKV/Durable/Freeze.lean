import ChonKV.Durable.Steady

/-!
The freezing points of a leader: nothing beyond the entry that removes a node goes to that node.
-/

set_option autoImplicit false

namespace ChonKV

open Assoc

def LogEntry.confFor (s : Nat) (e : LogEntry) : Bool :=
  decide (e.type = .kConfChange) && decide (e.confServer = s)

def LogEntry.removes (e : LogEntry) : Prop := MemberRole.ofInt e.confRole = .kRemoved

instance (e : LogEntry) : Decidable e.removes := by
  unfold LogEntry.removes
  infer_instance

/-- The last conf entry for server `s`. -/
def lastConf (s : Nat) (logs : List LogEntry) : Option LogEntry :=
  (logs.filter (LogEntry.confFor s)).getLast?

section

variable {s : Nat} {logs : List LogEntry} {e : LogEntry}

theorem lastConf_push (h : e.confFor s = false) : lastConf s (logs ++ [e]) = lastConf s logs := by
  simp [lastConf, List.filter_append, h]

theorem lastConf_push_conf (h : e.confFor s = true) : lastConf s (logs ++ [e]) = some e := by
  simp [lastConf, List.filter_append, h]

theorem mem_of_lastConf (h : lastConf s logs = some e) : e ∈ logs ∧ e.confFor s = true :=
  List.mem_filter.mp (List.mem_of_getLast? h)

/-- A cut keeps the last conf entry, or all conf entries go. -/
theorem lastConf_of_cut {pos : Nat} {t i : Int} (h : lastConf s (cutLogs logs pos t i) = some e) :
    lastConf s logs = some e := by
  have hsent : (sentinel t i).confFor s = false := by simp [sentinel, LogEntry.confFor]
  have hdrop : lastConf s (logs.drop (pos+1)) = some e := by
    simpa [lastConf, cutLogs, List.filter_cons, hsent] using h
  rw [lastConf, ← List.take_append_drop (pos+1) logs, List.filter_append, List.getLast?_append]
  rw [lastConf] at hdrop
  rw [hdrop]
  rfl

theorem getD_set_freeze {l : List Int} (hs : s < l.length) (n : Nat) (v : Int) :
    (l.set n v).getD s (-1) = if n = s then v else l.getD s (-1) := by
  simp only [List.getD_eq_getElem?_getD, List.getElem?_set]
  split_ifs with h hlt
  · rfl
  · omega
  · rfl

/-- A conf entry at the end of the log, and the freezing point that it sets. -/
theorem frozen_push {l : List Int} (hs : s < l.length) (hlast : e.type = .kConfChange)
    (hserver : 0 ≤ e.confServer)
    (h : l.getD s (-1) = ((lastConf s logs).map Raft.freezeAt).getD (-1)) :
    (l.set e.confServer.toNat (Raft.freezeAt e)).getD s (-1) =
      ((lastConf s (logs ++ [e])).map Raft.freezeAt).getD (-1) := by
  rw [getD_set_freeze hs]
  by_cases heq : e.confServer.toNat = s
  · have hfor : e.confFor s = true := by
      simp only [LogEntry.confFor, hlast, decide_true, Bool.true_and, decide_eq_true_eq]
      omega
    rw [if_pos heq, lastConf_push_conf hfor]
    rfl
  · have hfor : e.confFor s = false := by
      simp only [LogEntry.confFor, hlast, decide_true, Bool.true_and, decide_eq_false_iff_not]
      omega
    rw [if_neg heq, lastConf_push hfor]
    exact h

/-- The scan at an election finds what the last conf entries say. -/
theorem scanRemovedAt_spec (peers : Nat) (logs : List LogEntry) :
    (Raft.scanRemovedAt peers logs).length = peers ∧ ∀ s < peers,
      (Raft.scanRemovedAt peers logs).getD s (-1) = ((lastConf s logs).map Raft.freezeAt).getD (-1) := by
  induction logs using List.reverseRecOn with
  | nil =>
    refine ⟨List.length_replicate, fun s hs => ?_⟩
    simp [Raft.scanRemovedAt, lastConf, List.getD_eq_getElem?_getD, hs]
  | append_singleton logs e ih =>
    obtain ⟨hlen, hget⟩ := ih
    rw [Raft.scanRemovedAt] at hlen hget ⊢
    rw [List.foldl_append, List.foldl_cons, List.foldl_nil]
    by_cases htype : e.type = .kConfChange
    · by_cases hserver : e.confServer < 0 ∨ (peers : Int) ≤ e.confServer
      · simp only [htype, ne_eq, not_true_eq_false, ↓reduceIte, hlen, if_pos hserver]
        refine ⟨trivial, fun s hs => ?_⟩
        have hno : e.confFor s = false := by
          simp [LogEntry.confFor]
          omega
        rw [lastConf_push hno]
        exact hget s hs
      · simp only [htype, ne_eq, not_true_eq_false, ↓reduceIte, hlen, if_neg hserver, List.length_set]
        refine ⟨trivial, fun s hs => ?_⟩
        rw [not_or, not_lt] at hserver
        exact frozen_push (hs.trans_eq hlen.symm) htype hserver.1 (hget s hs)
    · simp only [htype, ne_eq, not_false_eq_true, ↓reduceIte]
      refine ⟨hlen, fun s hs => ?_⟩
      have hno : e.confFor s = false := by simp [LogEntry.confFor, htype]
      rw [lastConf_push hno]
      exact hget s hs

end

namespace Raft

theorem freezeAt_of_removes {e : LogEntry} (h : e.removes) : freezeAt e = e.index := if_pos h

/-- A leader has a freezing point for each node whose last conf entry removes it, and none beyond that
entry. -/
structure FreezeOK (r : Raft) : Prop extends Level r where
  points : r.removedAtIndex.length = r.peers
  members : r.isMember.length = r.peers
  frozen : r.state = .kLeader → ∀ s < r.peers, ∀ e, lastConf s r.logs = some e → e.removes →
    0 ≤ r.removedAtIndex.getD s (-1) ∧ r.removedAtIndex.getD s (-1) ≤ e.index

variable {r r' : Raft}

theorem FreezeOK.quiet (h : r.FreezeOK) (hq : Quiet r r') : r'.FreezeOK := by
  refine ⟨⟨hq.index ▸ h.pos, ?_⟩, ?_, ?_, fun hl => ?_⟩
  · rw [hq.index, hq.logs]
    exact h.log
  · rw [hq.removedAt, hq.peers]
    exact h.points
  · rw [hq.members, hq.peers]
    exact h.members
  · rw [hq.removedAt, hq.peers, hq.logs]
    exact h.frozen (hq.leader hl)

theorem Level.index_nonneg (h : r.Level) {e : LogEntry} (he : e ∈ r.logs) : 0 ≤ e.index :=
  h.pos.trans (h.log.numbered.lower he)

theorem FreezeOK.edit (h : r.FreezeOK) (he : Edit r r') : r'.FreezeOK := by
  have hlevel := h.toLevel.edit he
  cases he with
  | push e hindex htype =>
    refine ⟨hlevel, h.points, h.members, fun hl s hs => ?_⟩
    have hno : e.confFor s = false := by simp [LogEntry.confFor, htype]
    dsimp only [push]
    rw [lastConf_push hno]
    exact h.frozen hl s hs
  | propose e hindex htype hserver =>
    refine ⟨hlevel, (List.length_set).trans h.points, h.members, fun hl s hs e' he' hrem => ?_⟩
    dsimp only [push] at he' ⊢
    rw [getD_set_freeze (hs.trans_eq h.points.symm)]
    by_cases heq : e.confServer.toNat = s
    · have hfor : e.confFor s = true := by
        simp only [LogEntry.confFor, htype, decide_true, Bool.true_and, decide_eq_true_eq]
        omega
      rw [lastConf_push_conf hfor] at he'
      cases he'
      have hmem : e ∈ (r.push e).logs := List.mem_append_right _ (List.mem_singleton.mpr rfl)
      rw [if_pos heq, freezeAt_of_removes hrem]
      exact ⟨hlevel.index_nonneg hmem, le_refl _⟩
    · have hfor : e.confFor s = false := by
        simp only [LogEntry.confFor, htype, decide_true, Bool.true_and, decide_eq_false_iff_not]
        omega
      rw [lastConf_push hfor] at he'
      rw [if_neg heq]
      exact h.frozen hl s hs e' he' hrem
  | elect =>
    obtain ⟨hlen, hget⟩ := scanRemovedAt_spec r.peers r.logs
    refine ⟨hlevel, hlen, h.members, fun _ s hs e he hrem => ?_⟩
    dsimp only at he ⊢
    rw [hget s hs, he, Option.map_some, Option.getD_some,
      freezeAt_of_removes hrem]
    exact ⟨h.toLevel.index_nonneg (mem_of_lastConf he).1, le_refl _⟩

/-- Another snapshot cuts the log; the rest stays. -/
theorem FreezeOK.cut (h : r.FreezeOK) (hlevel : r'.Level) {pos : Nat} {t i : Int}
    (hlogs : r'.logs = cutLogs r.logs pos t i) (hpoints : r'.removedAtIndex = r.removedAtIndex)
    (hpeers : r'.peers = r.peers) (hmembers : r'.isMember.length = r'.peers)
    (hleader : r'.state = .kLeader → r.state = .kLeader) : r'.FreezeOK := by
  refine ⟨hlevel, ?_, hmembers, fun hl s hs e he => ?_⟩
  · rw [hpoints, hpeers]
    exact h.points
  · rw [hlogs] at he
    rw [hpoints]
    exact h.frozen (hleader hl) s (hpeers ▸ hs) e (lastConf_of_cut he)

theorem FreezeOK.installLogs (h : r.FreezeOK) {args : InstallSnapshotArgs} {blob : Bytes}
    (hle : r.snapshotIndex ≤ args.lastIncludedIndex) :
    ((r.installBegin args blob).installLogs args r.snapshotIndex).FreezeOK := by
  have hlevel : ((r.installBegin args blob).installLogs args r.snapshotIndex).Level :=
    h.toLevel.installLogs hle
  have hmembers : (r.installBegin args blob).isMember.length = r.peers := by
    rw [installBegin]
    split_ifs with hlen
    · rw [List.length_map]
      exact hlen
    · exact h.members
  rw [Raft.installLogs] at hlevel ⊢
  have hs := still_persistLocked { r.installBegin args blob with
    logs := cutLogs r.logs ((r.installBegin args blob).installPos args r.snapshotIndex)
      args.lastIncludedTerm args.lastIncludedIndex
    commitIndex := max r.commitIndex args.lastIncludedIndex
    lastApplied := max r.lastApplied args.lastIncludedIndex
    logStore := r.logStore.dropPrefix
      (if (r.installBegin args blob).installPos args r.snapshotIndex < r.logs.length then
        args.lastIncludedIndex - 1 else args.lastIncludedIndex) }
  exact h.cut hlevel hs.logs hs.removedAt hs.peers (hs.members.trans (hmembers.trans hs.peers.symm))
    hs.leader

/-- Entries that are merged on a node that is no leader. -/
theorem FreezeOK.appendEntriesLocked (h : r.FreezeOK) (hleader : r.state ≠ .kLeader)
    {args : AppendEntriesArgs} (hargs : args.Contiguous) (reply : AppendEntriesReply) :
    (r.appendEntriesLocked args reply).1.FreezeOK := by
  have hpart := appendEntriesLocked_memberPart r args reply
  simp only [memberPart, Prod.mk.injEq] at hpart
  obtain ⟨hpeers, hmembers, hpoints, hstate⟩ := hpart
  refine ⟨h.toLevel.appendEntriesLocked hargs reply, ?_, ?_, fun hl => absurd (hstate ▸ hl) hleader⟩
  · rw [hpoints, hpeers]
    exact h.points
  · rw [hmembers, hpeers]
    exact h.members

/-- What a node comes up as. -/
theorem make_members (peers me : Nat) (d : Disk) (now : Int) :
    (make peers me d now).peers = peers ∧ (make peers me d now).isMember.length = peers ∧
      (make peers me d now).removedAtIndex.length = peers ∧
      (make peers me d now).state = .kFollower := by
  have hadopt : ∀ (r : Raft) (b : SnapshotBlob), (r.adoptBlob b).memberPart = r.memberPart := by
    intro r b
    rw [adoptBlob]
    split_ifs <;> rfl
  have hrest : ∀ (r : Raft) (st : RaftState), r.memberPart = (blank peers me d now).memberPart →
      (r.restoreRest st).peers = peers ∧ (r.restoreRest st).isMember.length = peers ∧
        (r.restoreRest st).removedAtIndex.length = peers ∧
        (r.restoreRest st).state = .kFollower := by
    intro r st hpart
    simp only [memberPart, Prod.mk.injEq] at hpart
    obtain ⟨hpeers, -, hpoints, hstate⟩ := hpart
    refine ⟨hpeers, ?_, ?_, hstate⟩
    · dsimp only [restoreRest]
      split_ifs with hlen
      · exact hlen.trans hpeers
      · exact List.length_replicate.trans hpeers
    · dsimp only [restoreRest]
      rw [hpoints]
      exact List.length_replicate
  have hmake : ∀ r : Raft, (r.peers = peers ∧ r.isMember.length = peers ∧
      r.removedAtIndex.length = peers ∧ r.state = .kFollower) → ∀ (i : List Int) (f : List Bool)
      (t : List Int), let r' := { r with nextIndex := i, snapInFlight := f, snapEpoch := t }
      r'.peers = peers ∧ r'.isMember.length = peers ∧ r'.removedAtIndex.length = peers ∧
        r'.state = .kFollower := fun _ h _ _ _ => h
  rw [make]
  refine hmake _ ?_ _ _ _
  cases d.persister.raftState with
  | none => exact ⟨rfl, List.length_replicate, List.length_replicate, rfl⟩
  | some st =>
    dsimp only
    rw [readPersist]
    cases ((blank peers me d now).restoreState st).persister.snapshot with
    | none => exact hrest _ st rfl
    | some b => exact hrest _ st (hadopt _ b)

theorem freezeOK_make (peers me : Nat) {d : Disk} (now : Int) (hd : d.Whole) :
    (make peers me d now).FreezeOK := by
  obtain ⟨hpeers, hmembers, hpoints, hstate⟩ := make_members peers me d now
  exact ⟨level_make peers me now hd, hpoints.trans hpeers.symm, hmembers.trans hpeers.symm,
    fun hl => by simp [hstate] at hl⟩

theorem kept_freezeOK : Kept FreezeOK where
  quiet h hq := h.quiet hq
  edit h he := h.edit he
  snapshotCut h hlt _ term data :=
    h.cut (h.toLevel.snapshotCut hlt term data) rfl rfl rfl h.members id
  truncatePrefix h _ := ⟨⟨h.pos, h.log⟩, h.points, h.members, h.frozen⟩
  installLogs h hle _ := h.installLogs hle
  make _ hd now := freezeOK_make _ _ now hd

/-- The conf entries that one stretch of the batch loop applies, from `idx` on. -/
def appliedConfs (r : Raft) : Nat → Int → List LogEntry
  | 0, _ => []
  | k+1, idx =>
    if 0 < r.installGateDepth then []
    else if idx ≤ r.snapshotIndex then r.appliedConfs k (idx+1)
    else if ¬ r.inLogs idx then []
    else if (r.logAt idx).type = .kConfChange then
      r.logAt idx :: if r.persistAsync then [] else r.appliedConfs k (idx+1)
    else r.appliedConfs k (idx+1)

/-- A leader does not apply a conf entry that takes a server in again, the last one for it in the
stretch, while a later one of its log removes it. -/
def AppliesInOrder (r : Raft) (k : Nat) (idx : Int) : Prop :=
  r.state = .kLeader → ∀ s e, lastConf s (r.appliedConfs k idx) = some e → ¬ e.removes →
    ∀ e', lastConf s r.logs = some e' → ¬ e'.removes

/-- The members that tell which conf entries are applied. -/
def stretchPart (r : Raft) : List LogEntry × Int × Int × Bool :=
  (r.logs, r.snapshotIndex, r.installGateDepth, r.persistAsync)

theorem appliedConfs_congr (h : r'.stretchPart = r.stretchPart) (k : Nat) (idx : Int) :
    r'.appliedConfs k idx = r.appliedConfs k idx := by
  simp only [stretchPart, Prod.mk.injEq] at h
  obtain ⟨hlogs, hsnap, hgate, hasync⟩ := h
  induction k generalizing idx with
  | zero => rfl
  | succ k ih =>
    have hat : r'.logAt idx = r.logAt idx := by rw [logAt, logAt, hlogs, hsnap]
    have hin : r'.inLogs idx ↔ r.inLogs idx := by rw [inLogs, inLogs, hlogs, hsnap]
    simp only [appliedConfs, hgate, hsnap, hasync, hat, hin, ih]

theorem Level.logAt_mem (h : r.Level) {idx : Int} (hin : r.inLogs idx) :
    r.logAt idx ∈ r.logs ∧ (r.logAt idx).index = idx := by
  have hlt : (idx - r.snapshotIndex).toNat < r.logs.length := by
    rw [inLogs] at hin
    omega
  have hget : r.logs[(idx - r.snapshotIndex).toNat]? = some (r.logAt idx) := by
    rw [logAt, entryAt, List.getD_eq_getElem?_getD, List.getElem?_eq_getElem hlt, Option.getD_some]
  refine ⟨List.mem_of_getElem? hget, ?_⟩
  rw [h.log.numbered.get hget]
  rw [inLogs] at hin
  omega

/-- `r` becomes `r'` as `confs` are applied: each server's freezing point is that of the last entry for
it among them. -/
structure Applies (r r' : Raft) (confs : List LogEntry) : Prop where
  quiet : Quiet r { r' with removedAtIndex := r.removedAtIndex }
  points : r'.removedAtIndex.length = r.removedAtIndex.length
  frozen : ∀ s < r.removedAtIndex.length, r'.removedAtIndex.getD s (-1) =
    ((lastConf s confs).map freezeAt).getD (r.removedAtIndex.getD s (-1))

theorem Applies.of_quiet (h : Quiet r r') : Applies r r' [] where
  quiet := ⟨h.index, h.backed, h.logs, h.logStore, h.peers, h.members, h.leader, rfl⟩
  points := congrArg List.length h.removedAt
  frozen s _ := by rw [h.removedAt]; rfl

theorem Applies.trans {r'' : Raft} {l l' : List LogEntry} (h : Applies r r' l) (h' : Applies r' r'' l') :
    Applies r r'' (l ++ l') where
  quiet := ⟨h'.quiet.index.trans h.quiet.index, h'.quiet.backed.trans h.quiet.backed,
    h'.quiet.logs.trans h.quiet.logs, h'.quiet.logStore.trans h.quiet.logStore,
    h'.quiet.peers.trans h.quiet.peers, h'.quiet.members.trans h.quiet.members,
    fun hl => h.quiet.leader (h'.quiet.leader hl), rfl⟩
  points := h'.points.trans h.points
  frozen s hs := by
    rw [h'.frozen s (hs.trans_eq h.points.symm), h.frozen s hs, lastConf, lastConf, lastConf,
      List.filter_append, List.getLast?_append]
    cases (l'.filter (LogEntry.confFor s)).getLast? <;> rfl

theorem Applies.trans_quiet {r'' : Raft} {l : List LogEntry} (h : Applies r r' l) (hq : Quiet r' r'') :
    Applies r r'' l := by simpa using h.trans (.of_quiet hq)

theorem lastConf_singleton (s : Nat) (e : LogEntry) :
    lastConf s [e] = if e.confFor s then some e else none := by
  cases h : e.confFor s <;> simp [lastConf, h]

/-- One conf entry of the log is applied. -/
theorem applies_applyConf (h : r.Level) {idx : Int} (hin : r.inLogs idx)
    (htype : (r.logAt idx).type = .kConfChange) (hmembers : r.isMember.length = r.removedAtIndex.length) :
    Applies r (r.applyConf idx (r.logAt idx)) [r.logAt idx] := by
  have hidx := (h.logAt_mem hin).2
  rw [Raft.applyConf]
  refine Applies.trans_quiet ?_ (still_persistLocked _).quiet
  have hfor : ∀ s : Nat, (r.logAt idx).confFor s = true ↔ (r.logAt idx).confServer = s := fun s => by
    simp [LogEntry.confFor, htype]
  by_cases hserver : 0 ≤ (r.logAt idx).confServer ∧ (r.logAt idx).confServer < r.isMember.length
  · simp only [if_pos hserver]
    refine ⟨⟨rfl, rfl, rfl, rfl, rfl, List.length_set, id, rfl⟩, List.length_set, fun s hs => ?_⟩
    rw [lastConf_singleton, getD_set_freeze hs]
    by_cases heq : (r.logAt idx).confServer.toNat = s
    · rw [if_pos heq, if_pos ((hfor s).mpr (by omega)), Option.map_some, Option.getD_some, freezeAt,
        hidx]
    · have hno : (r.logAt idx).confFor s = false := by
        rw [← Bool.not_eq_true, hfor]
        omega
      simp [heq, hno]
  · simp only [if_neg hserver]
    refine ⟨⟨rfl, rfl, rfl, rfl, rfl, rfl, id, rfl⟩, rfl, fun s hs => ?_⟩
    have hno : (r.logAt idx).confFor s = false := by
      rw [← Bool.not_eq_true, hfor]
      omega
    simp [lastConf_singleton, hno]

theorem applyConf_stretchPart (r : Raft) (idx : Int) (e : LogEntry) :
    (r.applyConf idx e).stretchPart = r.stretchPart := by
  rw [applyConf, persistLocked]
  dsimp only
  split_ifs <;> rfl

theorem applyConfAfter_stretchPart (r : Raft) (now : Int) :
    (r.applyConfAfter now).stretchPart = r.stretchPart := by
  rw [applyConfAfter]
  split_ifs <;> rfl

theorem Applies.level {l : List LogEntry} (h : Applies r r' l) (hlevel : r.Level) : r'.Level := by
  refine ⟨h.quiet.index.symm ▸ hlevel.pos, ?_⟩
  have hlogs : r'.logs = r.logs := h.quiet.logs
  have hsnap : r'.snapshotIndex = r.snapshotIndex := h.quiet.index
  rw [hlogs, hsnap]
  exact hlevel.log

theorem Applies.lengths {l : List LogEntry} (h : Applies r r' l) (hmembers : r.isMember.length = r.removedAtIndex.length) :
    r'.isMember.length = r'.removedAtIndex.length :=
  (h.quiet.members.trans hmembers).trans h.points.symm

/-- A stretch of the batch loop applies its conf entries, and nothing else that the freezing points
depend on changes. -/
theorem applies_applyRun (h : r.Level) (hmembers : r.isMember.length = r.removedAtIndex.length)
    (now : Int) (k : Nat) (idx : Int) (batch : List ApplyMsg) :
    Applies r (r.applyRun now k idx batch).1 (r.appliedConfs k idx) := by
  induction k generalizing r idx batch with
  | zero => exact .of_quiet (Still.refl r).quiet
  | succ k ih =>
    have hon : ∀ la : Int, Applies r { r with lastApplied := la } [] := fun la =>
      .of_quiet ⟨rfl, rfl, rfl, rfl, rfl, rfl, id, rfl⟩
    have hnext : ∀ (la idx : Int) (batch : List ApplyMsg),
        Applies r (Raft.applyRun { r with lastApplied := la } now k idx batch).1
          (r.appliedConfs k idx) := by
      intro la idx batch
      have hrest := ih ((hon la).level h) hmembers idx batch
      have hpart : stretchPart { r with lastApplied := la } = r.stretchPart := rfl
      rw [appliedConfs_congr hpart] at hrest
      exact (hon la).trans hrest
    rw [Raft.applyRun, appliedConfs, applyTurn]
    by_cases hgate : 0 < r.installGateDepth
    · simp only [if_pos hgate]
      exact .of_quiet (Still.refl r).quiet
    simp only [if_neg hgate]
    by_cases hsnap : idx ≤ r.snapshotIndex
    · simp only [if_pos hsnap]
      exact hnext _ _ _
    simp only [if_neg hsnap]
    by_cases hin : r.inLogs idx
    · simp only [not_true_eq_false, ↓reduceIte, hin]
      by_cases htype : (r.logAt idx).type = .kConfChange
      · simp only [if_pos htype]
        have hconf : Applies r ({ r with lastApplied := idx }.applyConf idx (r.logAt idx))
            [r.logAt idx] :=
          (hon idx).trans (applies_applyConf ((hon idx).level h) hin htype hmembers)
        have hafter : Applies r
            (({ r with lastApplied := idx }.applyConf idx (r.logAt idx)).applyConfAfter now)
            [r.logAt idx] := hconf.trans_quiet (still_applyConfAfter _ now).quiet
        have hpart : (({ r with lastApplied := idx }.applyConf idx (r.logAt idx)).applyConfAfter
            now).stretchPart = r.stretchPart :=
          (applyConfAfter_stretchPart _ now).trans (applyConf_stretchPart _ idx _)
        have hasync : ({ r with lastApplied := idx }.applyConf idx (r.logAt idx)).persistAsync =
            r.persistAsync := congrArg (fun x => x.2.2.2) (applyConf_stretchPart _ idx _)
        rw [hasync]
        cases hp : r.persistAsync with
        | true => exact hconf
        | false =>
          have hrest := ih (hafter.level h) (hafter.lengths hmembers) (idx+1)
            (batch ++ [commandMsg idx (r.logAt idx)])
          rw [appliedConfs_congr hpart] at hrest
          exact hafter.trans hrest
      · simp only [if_neg htype]
        exact hnext idx _ _
    · simp only [hin, not_false_eq_true, ↓reduceIte]
      exact .of_quiet (Still.refl r).quiet

/-- Every conf entry that a stretch applies stands in the log. -/
theorem mem_of_appliedConfs (h : r.Level) {k : Nat} {idx : Int} {e : LogEntry}
    (he : e ∈ r.appliedConfs k idx) : e ∈ r.logs := by
  induction k generalizing idx with
  | zero => cases he
  | succ k ih =>
    rw [appliedConfs] at he
    split_ifs at he with hgate hsnap hin htype hasync
    · cases he
    · exact ih he
    · exact (List.mem_singleton.mp he) ▸ (h.logAt_mem hin).1
    · cases he with
      | head => exact (h.logAt_mem hin).1
      | tail _ he => exact ih he
    · exact ih he
    · cases he

theorem FreezeOK.applyRun (h : r.FreezeOK) {k : Nat} {idx : Int} (horder : r.AppliesInOrder k idx)
    (now : Int) (batch : List ApplyMsg) : (r.applyRun now k idx batch).1.FreezeOK := by
  have hmembers : r.isMember.length = r.removedAtIndex.length := h.members.trans h.points.symm
  have happ := applies_applyRun h.toLevel hmembers now k idx batch
  have hpeers : (r.applyRun now k idx batch).1.peers = r.peers := happ.quiet.peers
  have hlogs : (r.applyRun now k idx batch).1.logs = r.logs := happ.quiet.logs
  refine ⟨happ.level h.toLevel, happ.points.trans (h.points.trans hpeers.symm),
    happ.quiet.members.trans (h.members.trans hpeers.symm), fun hl s hs e' he' hrem => ?_⟩
  have hleader := happ.quiet.leader hl
  rw [hpeers] at hs
  rw [hlogs] at he'
  rw [happ.frozen s (hs.trans_eq h.points.symm)]
  cases hlast : lastConf s (r.appliedConfs k idx) with
  | none => exact h.frozen hleader s hs e' he' hrem
  | some e =>
    have hmem := mem_of_appliedConfs h.toLevel (mem_of_lastConf hlast).1
    rw [Option.map_some, Option.getD_some]
    by_cases hremoves : e.removes
    · rw [freezeAt_of_removes hremoves]
      exact ⟨h.toLevel.index_nonneg hmem, h.log.numbered.le_last he' hmem (mem_of_lastConf hlast).2⟩
    · exact absurd hrem (horder hleader s e hlast hremoves e' he')

/-- No entry beyond `c`, and no snapshot. -/
def Send.Capped (c : Int) : Send → Prop
  | .none => True
  | .append args => ∀ x ∈ args.entries, x.index ≤ c
  | .snapshot _ => False

instance (c : Int) (send : Send) : Decidable (send.Capped c) := by
  cases send <;> unfold Send.Capped <;> infer_instance

theorem Send.Capped.mono {send : Send} {c c' : Int} (h : send.Capped c) (hle : c ≤ c') :
    send.Capped c' := by
  cases send with
  | none => trivial
  | append args => exact fun x hx => (h x hx).trans hle
  | snapshot chunks => exact h

/-- A batch holds entries of the log, at indexes from `i` on. -/
theorem mem_batchEntries {r : Raft} {first : Int} {k : Nat} {i : Int} {bytes : Nat} {x : LogEntry}
    (hx : x ∈ (r.batchEntries first k i bytes).1) :
    ∃ j, i ≤ j ∧ j < i + k ∧ r.snapshotIndex < j ∧ x = r.logAt j := by
  induction k generalizing i bytes with
  | zero => cases hx
  | succ k ih =>
    rw [batchEntries] at hx
    dsimp only at hx
    split_ifs at hx with hsnap
    · obtain ⟨j, hle, hlt, hj⟩ := ih hx
      exact ⟨j, by omega, by omega, hj⟩
    · cases hx
    · cases hx with
      | head => exact ⟨i, le_refl i, by omega, not_le.mp hsnap, rfl⟩
      | tail _ hx =>
        obtain ⟨j, hle, hlt, hj⟩ := ih hx
        exact ⟨j, by omega, by omega, hj⟩

/-- A batch for a removed node ends at its freezing point. -/
theorem sendAppend_capped (h : r.Level) (s : Nat) (next : Int) (may : Bool) {cap : Int}
    (hcap : 0 ≤ cap) (now : Int) : (r.sendAppend s next may true cap now).2.Capped cap := by
  have hlast := h.log.lastIndexOf_eq
  rw [sendAppend]
  cases may with
  | false => exact fun x hx => absurd hx List.not_mem_nil
  | true =>
    intro x hx
    obtain ⟨j, hle, hlt, hsnap, rfl⟩ := mem_batchEntries hx
    have hj : j ≤ cap ∧ j ≤ r.lastLogIndexLocked := by
      simp only [true_and, hcap] at hlt
      split_ifs at hlt <;> omega
    rw [lastLogIndexLocked] at hj
    have hin : r.inLogs j := ⟨hsnap.le, by omega⟩
    exact (h.logAt_mem hin).2.trans_le hj.1

theorem freezeRemoved_level (h : r.Level) (s : Nat) {p : Progress} (hp : p.removed = true) :
    (r.freezeRemoved s p).1.Level ∧ (r.freezeRemoved s p).2.removed = true ∧
      (r.freezeRemoved s p).2.removedCap = p.removedCap := by
  rw [freezeRemoved, if_neg (by simp [hp])]
  dsimp only
  split_ifs
  · exact ⟨⟨h.pos, h.log⟩, hp, rfl⟩
  · exact ⟨h, hp, rfl⟩

/-- A removed node gets no snapshot, and its batch is capped. -/
theorem sendTo_capped (h : r.Level) (s : Nat) {p : Progress} (hp : p.removed = true)
    (hcap : 0 ≤ p.removedCap) (now : Int) : (r.sendTo s p now).2.Capped p.removedCap := by
  have hlevel : Level { r with lastHeartbeatSeq := r.lastHeartbeatSeq.set s r.heartbeatSeq } :=
    ⟨h.pos, h.log⟩
  rw [sendTo]
  simp only [hp, Bool.not_true, Bool.and_false, Bool.false_eq_true, false_and, ↓reduceIte]
  exact sendAppend_capped hlevel s _ _ hcap now

/-- What goes to a node that the last conf entry for it removes. -/
theorem FreezeOK.replicate (h : r.FreezeOK) (hleader : r.state = .kLeader) {s : Nat} (hs : s < r.peers)
    {e : LogEntry} (he : lastConf s r.logs = some e) (hrem : e.removes) (now : Int) :
    (r.replicate s now).2.Capped e.index := by
  obtain ⟨hpos, hle⟩ := h.frozen hleader s hs e he hrem
  have hfrozen : (r.progress s now).removed = true := by
    simp [progress, isRemovedFrozen, -List.getD_eq_getElem?_getD, hpos]
  obtain ⟨hlevel, hremoved, hcap⟩ := freezeRemoved_level h.toLevel s hfrozen
  have hsend := sendTo_capped hlevel s hremoved (hcap.trans_ge hpos) now
  rw [hcap] at hsend
  rw [Raft.replicate]
  split_ifs
  · trivial
  · trivial
  · trivial
  · dsimp only
    split_ifs
    · trivial
    · exact hsend.mono hle

end Raft

open Raft

namespace Process

/-- What keeps the freezing points: besides a steady log, no leader merges entries, nor applies a conf
entry that takes a server in again while a later one removes it. -/
def Freezing (p : Process) : ProcessEvent → Prop
  | .resume k now => p.Steady (.resume k now) ∧ ∀ t args, p.threads[k]? = some t →
      t.stretch = .append args → p.raft.state ≠ .kLeader
  | .applyLoop _ => p.raft.AppliesInOrder (p.raft.applyStop - p.raft.lastApplied).toNat
      (p.raft.lastApplied + 1)
  | .applyResume now => ∀ a, p.applier = some a →
      (p.raft.applyConfAfter now).AppliesInOrder a.left a.idx
  | e => p.Steady e

variable {p : Process} {e : ProcessEvent}

theorem Freezing.steady (h : p.Freezing e) : p.Steady e := by
  cases e with
  | resume k now => exact h.1
  | applyLoop now => trivial
  | applyResume now => trivial
  | _ => exact h

theorem Holds.survives_freezeOK (h : p.Holds FreezeOK) (he : p.Freezing e) : p.Survives FreezeOK e where
  appendEntries {args now r} _ hargs hr hst :=
    (h.raft.quiet hr.quiet).appendEntriesLocked (by simp [hst]) hargs {}
  append {k now t args} heq ht hst hargs := by
    subst heq
    exact h.raft.appendEntriesLocked (he.2 t args ht hst) hargs {}
  applyLoop {now} heq := by
    subst heq
    exact h.raft.applyRun he now []
  applyResume {now a} heq ha := by
    subst heq
    exact (h.raft.quiet (still_applyConfAfter p.raft now).quiet).applyRun (he a ha) now a.batch

/-- In every state of such a run, a leader sends to a node that the last conf entry for it removes
nothing beyond that entry, and no snapshot. -/
theorem removed_frozen (peers me : Nat) (d : Disk) (now : Int) (hd : d.Whole) (es : List ProcessEvent)
    (hes : Meets Freezing (boot peers me d now) es) :
    let r := ((boot peers me d now).run es).raft
    r.state = .kLeader → ∀ s < r.peers, ∀ c, lastConf s r.logs = some c → c.removes → ∀ t,
      (r.replicate s t).2.Capped c.index := by
  intro r hleader s hs c hc hrem t
  have hboot : (boot peers me d now).Holds FreezeOK :=
    ⟨freezeOK_make peers me now hd, fun _ ht => absurd ht List.not_mem_nil⟩
  have h : r.FreezeOK := (hboot.run kept_freezeOK (fun _ _ he => he.steady)
    (fun _ _ h he => h.survives_freezeOK he) hes).raft
  exact h.replicate hleader hs hc hrem t

end Process

def confAt (index : Int) (role : MemberRole) : LogEntry :=
  { term := 1, index := index, type := .kConfChange, confServer := 2, confRole := role.toInt }

/-- Node 0 of three gets `entries` from the leader of term 1, which has committed `commit`, and is
elected in term 2. -/
def electedWith (entries : List LogEntry) (commit : Int) : List ProcessEvent :=
  [.appendEntries { term := 1, leaderId := 1, leaderCommit := commit, entries := entries } 0,
    .resume 0 0, .electionTimeout 200,
    .prevoteReply { term := 1, candidateId := 0, lastLogIndex := entries.length, lastLogTerm := 1 } 1
      { term := 1, voteGranted := true } 200, .resume 0 200,
    .voteReply { term := 2, candidateId := 0, lastLogIndex := entries.length, lastLogTerm := 1 } 1
      { term := 2, voteGranted := true } 200]

open Process

theorem removed_frozen_unapplied :
    let r := ((boot 3 0 {} 0).run
      (electedWith [confAt 1 .kRemoved, { term := 1, index := 2 }] 0)).raft
    r.state = .kLeader ∧ lastConf 2 r.logs = some (confAt 1 .kRemoved) ∧
      (r.replicate 2 1000).2.Capped 1 := by
  have hleader : ((boot 3 0 {} 0).run
      (electedWith [confAt 1 .kRemoved, { term := 1, index := 2 }] 0)).raft.state = .kLeader := by
    decide +kernel
  have hlast : lastConf 2 ((boot 3 0 {} 0).run
      (electedWith [confAt 1 .kRemoved, { term := 1, index := 2 }] 0)).raft.logs =
        some (confAt 1 .kRemoved) := by
    decide +kernel
  refine ⟨hleader, hlast, removed_frozen 3 0 {} 0 ⟨fun _ => rfl, by simp, by simp, by simp⟩
    (electedWith [confAt 1 .kRemoved, { term := 1, index := 2 }] 0) ?_ hleader 2 (by decide +kernel)
    (confAt 1 .kRemoved) hlast (by decide) 1000⟩
  refine ⟨⟨rfl, rfl, trivial⟩, ⟨steady_resume (by decide +kernel), fun _ _ _ _ => by decide +kernel⟩,
    trivial, trivial, ⟨steady_resume (by decide +kernel), fun _ _ _ _ => by decide +kernel⟩, trivial,
    trivial⟩

/-- The last of three conf entries for node 2 removes it again. The leader has applied the second one,
which took it in: its freezing point is gone, and everything goes to node 2. -/
theorem removed_not_frozen :
    let r := ((boot 3 0 {} 0).run (electedWith [confAt 1 .kRemoved, confAt 2 .kVoter,
      confAt 3 .kRemoved, { term := 1, index := 4 }] 2 ++ [.applyLoop 300])).raft
    r.state = .kLeader ∧ lastConf 2 r.logs = some (confAt 3 .kRemoved) ∧
      ¬ (r.replicate 2 1000).2.Capped 3 := by
  decide +kernel

end ChonKV
