import ChonKV.Handler.Merge
import ChonKV.Raft.Service

/-!
What a request does whose arguments `Deserialize` refused: the handler runs on the fields that were read
and on the defaults of the others.
-/

set_option autoImplicit false

namespace ChonKV

/-- The entry of a request goes into the log. -/
def Adds (si : Int) (logs : List LogEntry) (e : LogEntry) : Prop :=
  0 < e.index ∧ novel si logs e = true

section Merge
variable {si : Int} {m : MergeState} {e : LogEntry} {es : List LogEntry}

theorem mergeEntry_of_not_adds (h : ¬ Adds si m.logs e) : mergeEntry si m e = m := by
  by_cases hpos : 0 < e.index
  · exact mergeEntry_of_not_novel (Bool.not_eq_true _ ▸ fun hn => h ⟨hpos, hn⟩)
  · rw [mergeEntry, if_pos (.inl (by omega))]

theorem foldl_mergeEntry_of_not_adds (h : ∀ e ∈ es, ¬ Adds si m.logs e) :
    es.foldl (mergeEntry si) m = m := by
  induction es with
  | nil => rfl
  | cons e es ih =>
    rw [List.foldl_cons, mergeEntry_of_not_adds (h e (by simp))]
    exact ih fun e he => h e (by simp [he])

theorem mergeEntry_of_adds (h : Adds si m.logs e) : ∃ k, (mergeEntry si m e).logs = m.logs.take k ++ [e] ∧
    (k < m.logs.length → k = (e.index - si).toNat ∧ (entryAt si m.logs e.index).term ≠ e.term) := by
  obtain ⟨hpos, hn⟩ := h
  simp only [novel, Bool.and_eq_true, Bool.or_eq_true, decide_eq_true_eq] at hn
  rw [mergeEntry, if_neg (by omega)]
  by_cases hle : e.index ≤ lastIndexOf m.logs
  · have hterm := hn.2.resolve_left (by omega)
    rw [if_pos hle, if_pos hterm]
    exact ⟨_, rfl, fun _ => ⟨rfl, hterm⟩⟩
  · rw [if_neg hle]
    exact ⟨m.logs.length, by rw [List.take_length], fun hlt => absurd hlt (lt_irrefl _)⟩

/-- Entries with growing indexes behind the end of the log are appended. -/
theorem foldl_mergeEntry_appends (hes : es.Pairwise fun a b => a.index < b.index)
    (h : ∀ e ∈ es, 0 < e.index ∧ si < e.index ∧ lastIndexOf m.logs < e.index) :
    (es.foldl (mergeEntry si) m).logs = m.logs ++ es := by
  induction es generalizing m with
  | nil => simp
  | cons e es ih =>
    obtain ⟨hpos, hsi, hlast⟩ := h e (by simp)
    obtain ⟨hgrow, hes⟩ := List.pairwise_cons.mp hes
    have hmerge : mergeEntry si m e =
        { logs := m.logs ++ [e], logStore := m.logStore.append e, changed := true } := by
      rw [mergeEntry, if_neg (by omega), if_neg (by omega)]
    rw [List.foldl_cons, hmerge, ih hes]
    · simp
    · intro x hx
      have hlt := hgrow x hx
      have hend : lastIndexOf (m.logs ++ [e]) = e.index := by simp [lastIndexOf]
      dsimp only
      omega

/-- Entries with growing indexes, one of which is new, leave another log. -/
theorem foldl_mergeEntry_ne (hes : es.Pairwise fun a b => a.index < b.index)
    (h : ∃ e ∈ es, Adds si m.logs e) : (es.foldl (mergeEntry si) m).logs ≠ m.logs := by
  induction es with
  | nil => simp at h
  | cons e es ih =>
    obtain ⟨hgrow, hes⟩ := List.pairwise_cons.mp hes
    rw [List.foldl_cons]
    by_cases hadds : Adds si m.logs e
    · obtain ⟨k, hlogs, hk⟩ := mergeEntry_of_adds hadds
      have hend : lastIndexOf (mergeEntry si m e).logs = e.index := by
        rw [hlogs]
        simp [lastIndexOf]
      have hsi : si < e.index := by
        have hn := hadds.2
        simp only [novel, Bool.and_eq_true, decide_eq_true_eq] at hn
        exact hn.1
      have hpos := hadds.1
      rw [foldl_mergeEntry_appends hes fun x hx => by have := hgrow x hx; omega, hlogs]
      intro heq
      have hlen := congrArg List.length heq
      simp only [List.length_append, List.length_take, List.length_singleton] at hlen
      obtain ⟨hpk, hterm⟩ := hk (by omega)
      have hget : m.logs[k]? = some e := by
        rw [← heq, List.append_assoc, List.getElem?_append_right (by simp), List.length_take,
          Nat.min_eq_left (by omega), Nat.sub_self]
        rfl
      refine hterm ?_
      rw [entryAt, ← hpk, List.getD_eq_getElem?_getD, hget, Option.getD_some]
    · rw [mergeEntry_of_not_adds hadds]
      refine ih hes ?_
      obtain ⟨x, hx, hxadds⟩ := h
      rcases List.mem_cons.mp hx with rfl | hx
      · exact absurd hxadds hadds
      · exact ⟨x, hx, hxadds⟩

end Merge

namespace Raft

variable {r : Raft} {now : Int}

/-- Term, vote, office, log, commit and snapshot index, and members. -/
def served (r : Raft) : Int × Int × ServerState × List LogEntry × Int × Int × List MemberRole :=
  (r.currentTerm, r.votedFor, r.state, r.logs, r.commitIndex, r.snapshotIndex, r.isMember)

/-- The vote goes to the candidate. -/
def Grants (r : Raft) (a : RequestVoteArgs) : Prop :=
  r.mayVoteFor a.candidateId = true ∧ r.votedFor = -1 ∧
    r.logUpToDate a.lastLogTerm a.lastLogIndex = true

/-- The commit index follows the request. -/
def Commits (r : Raft) (a : AppendEntriesArgs) : Prop :=
  r.commitIndex < a.leaderCommit ∧ r.commitIndex < a.prevLogIndex + a.entries.length

/-- The chunk belongs to the snapshot that is put together, or to a later one. -/
def TakesChunk (r : Raft) (a : InstallSnapshotArgs) : Prop :=
  if r.recvSnapIndex = a.lastIncludedIndex ∧ r.recvSnapLastTerm = a.lastIncludedTerm then
    a.offset = 0 ∨ r.recvSnapEpoch ≤ a.epoch
  else r.recvSnapIndex < 0 ∨ r.recvSnapIndex < a.lastIncludedIndex ∨
    (a.lastIncludedIndex = r.recvSnapIndex ∧ r.recvSnapLastTerm < a.lastIncludedTerm)

/-- The bytes that were put together before the chunk. -/
def keptBuf (r : Raft) (a : InstallSnapshotArgs) : Bytes :=
  if r.recvSnapIndex = a.lastIncludedIndex ∧ r.recvSnapLastTerm = a.lastIncludedTerm ∧ a.offset ≠ 0 ∧
    a.epoch = r.recvSnapEpoch then r.recvSnapBuf else []

/-- The chunk is the last one of a snapshot that is new to the node. -/
structure Completes (r : Raft) (a : InstallSnapshotArgs) : Prop where
  behind : r.lastApplied < a.lastIncludedIndex
  taken : r.TakesChunk a
  offset : 0 ≤ a.offset
  chunk : a.data.length ≤ kSnapshotChunkSize
  room : a.offset.toNat + a.data.length ≤ kMaxRecvSnapBuf
  done : a.done = true
  whole : (r.keptBuf a).length ≤ a.offset.toNat + a.data.length
  crc : crc32 (writeAt (r.keptBuf a) a.offset.toNat a.data) = a.crc

/-- What the fields that were read are to be, for the request to leave the node alone. -/
def Harmless (r : Raft) (s : Bytes) : RaftMethod → Prop
  | .requestVote =>
    let a := RequestVoteArgs.filled s
    r.killed = true ∨ a.term < r.currentTerm ∨ (a.term = r.currentTerm ∧ ¬ r.Grants a)
  | .appendEntries =>
    let a := AppendEntriesArgs.filled s
    r.killed = true ∨ a.term < r.currentTerm ∨ (a.term = r.currentTerm ∧ r.state = .kFollower ∧
      (r.Accepts a → (∀ e ∈ a.entries, ¬ Adds r.snapshotIndex r.logs e) ∧ ¬ r.Commits a))
  | .installSnapshot =>
    let a := InstallSnapshotArgs.filled s
    a.term < r.currentTerm ∨ (a.term = r.currentTerm ∧ ¬ r.Completes a)
  | .requestPreVote => True
  | .readIndex => True

@[simp] theorem served_persistLocked (r : Raft) : r.persistLocked.served = r.served := by
  rw [persistLocked]
  split <;> rfl

theorem served_convertToFollowerLocked (r : Raft) (term : Int) :
    (r.convertToFollowerLocked term).served =
      (term, -1, .kFollower, r.logs, r.commitIndex, r.snapshotIndex, r.isMember) := by
  rw [convertToFollowerLocked, served_persistLocked]
  rfl

theorem currentTerm_of_served {r r' : Raft} (h : r'.served = r.served) : r'.currentTerm = r.currentTerm :=
  congrArg Prod.fst h

section Vote
variable {a : RequestVoteArgs} {reply : RequestVoteReply}

theorem decideVote_served : (r.decideVote a reply now).1.served = r.served ↔ ¬ r.Grants a := by
  rw [decideVote]
  split_ifs with hmay hvoted hlog
  · exact iff_of_true rfl fun h => hvoted.1 h.2.1
  · have hcand : 0 ≤ a.candidateId := by
      simp only [mayVoteFor, Bool.and_eq_true, decide_eq_true_eq] at hmay
      exact hmay.1.1.1
    rw [served_persistLocked]
    by_cases hnew : r.votedFor = -1
    · refine iff_of_false (fun h => ?_) fun h => h ⟨hmay, hnew, hlog⟩
      have hvote : a.candidateId = r.votedFor := congrArg (·.2.1) h
      omega
    · have hsame : r.votedFor = a.candidateId := by
        by_contra hne
        exact hvoted ⟨hnew, hne⟩
      refine iff_of_true ?_ fun h => hnew h.2.1
      simp [served, hsame]
  · exact iff_of_true rfl fun h => hlog h.2.2
  · exact iff_of_true rfl fun h => hmay h.1

theorem currentTerm_decideVote : (r.decideVote a reply now).1.currentTerm = r.currentTerm := by
  rw [decideVote]
  split_ifs
  · rfl
  · exact congrArg Prod.fst (served_persistLocked _)
  · rfl
  · rfl

theorem requestVote_served : (r.requestVote a now).1.served = r.served ↔
    r.killed = true ∨ a.term < r.currentTerm ∨ (a.term = r.currentTerm ∧ ¬ r.Grants a) := by
  rw [requestVote]
  by_cases hold : r.killed = true ∨ a.term < r.currentTerm
  · rw [if_pos hold]
    exact iff_of_true rfl (by tauto)
  rw [if_neg hold]
  by_cases hnew : r.currentTerm < a.term
  · rw [if_pos hnew]
    refine iff_of_false (fun h => ?_) fun h => ?_
    · have hterm := currentTerm_of_served h
      rw [currentTerm_decideVote] at hterm
      have hconv : (r.convertToFollowerLocked a.term).currentTerm = a.term :=
        congrArg Prod.fst (r.served_convertToFollowerLocked a.term)
      omega
    · rcases h with h | h | h
      · exact hold (.inl h)
      · exact hold (.inr h)
      · omega
  · have hterm : a.term = r.currentTerm := by omega
    rw [if_neg hnew, decideVote_served]
    tauto

end Vote

section Append
variable {a : AppendEntriesArgs} {reply : AppendEntriesReply}

/-- The indexes of the entries grow, as those of a leader do. -/
def Growing (a : AppendEntriesArgs) : Prop := a.entries.Pairwise fun e e' => e.index < e'.index

theorem mergeLocked_served : (r.mergeLocked a).served = (r.currentTerm, r.votedFor, r.state,
    (a.entries.foldl (mergeEntry r.snapshotIndex) { logs := r.logs, logStore := r.logStore }).logs,
    r.commitIndex, r.snapshotIndex, r.isMember) := by
  rw [mergeLocked]
  dsimp only
  split_ifs
  · exact served_persistLocked _
  · rfl

theorem accepted_served : ((r.mergeLocked a).followCommit a).served = (r.currentTerm, r.votedFor, r.state,
    (a.entries.foldl (mergeEntry r.snapshotIndex) { logs := r.logs, logStore := r.logStore }).logs,
    max r.commitIndex (min a.leaderCommit (a.prevLogIndex + a.entries.length)), r.snapshotIndex,
    r.isMember) := by
  have hmerge := r.mergeLocked_served (a := a)
  simp only [served, Prod.mk.injEq] at hmerge
  obtain ⟨hterm, hvoted, hstate, hlogs, hcommit, hsnap, hmember⟩ := hmerge
  rw [followCommit_eq]
  simp only [served, hterm, hvoted, hstate, hlogs, hcommit, hsnap, hmember]

theorem appendEntriesLocked_office (r : Raft) (a : AppendEntriesArgs) (reply : AppendEntriesReply) :
    (r.appendEntriesLocked a reply).1.currentTerm = r.currentTerm ∧
      (r.appendEntriesLocked a reply).1.state = r.state := by
  by_cases hacc : r.Accepts a
  · rw [appendEntriesLocked_of_accepts hacc]
    have haccepted := r.accepted_served (a := a)
    exact ⟨congrArg Prod.fst haccepted, congrArg (·.2.2.1) haccepted⟩
  · rw [(appendEntriesLocked_of_not_accepts hacc reply).1]
    exact ⟨rfl, rfl⟩

theorem appendEntriesLocked_served (h : r.Accepts a →
    (∀ e ∈ a.entries, ¬ Adds r.snapshotIndex r.logs e) ∧ ¬ r.Commits a) :
    (r.appendEntriesLocked a reply).1.served = r.served := by
  by_cases hacc : r.Accepts a
  · obtain ⟨hadds, hcommits⟩ := h hacc
    have hmax : max r.commitIndex (min a.leaderCommit (a.prevLogIndex + a.entries.length)) =
        r.commitIndex := by
      rw [Commits] at hcommits
      omega
    have hfold := foldl_mergeEntry_of_not_adds (m := { logs := r.logs, logStore := r.logStore }) hadds
    rw [appendEntriesLocked_of_accepts hacc, accepted_served, hmax, hfold]
    rfl
  · rw [(appendEntriesLocked_of_not_accepts hacc reply).1]

theorem appendEntriesLocked_served_iff (hgrow : Growing a) :
    (r.appendEntriesLocked a reply).1.served = r.served ↔
      (r.Accepts a → (∀ e ∈ a.entries, ¬ Adds r.snapshotIndex r.logs e) ∧ ¬ r.Commits a) := by
  refine ⟨fun h hacc => ?_, appendEntriesLocked_served⟩
  rw [appendEntriesLocked_of_accepts hacc, accepted_served] at h
  simp only [served, Prod.mk.injEq] at h
  obtain ⟨-, -, -, hlogs, hcommit, -⟩ := h
  refine ⟨fun e he hadds => ?_, fun hcommits => ?_⟩
  · exact foldl_mergeEntry_ne (m := { logs := r.logs, logStore := r.logStore }) hgrow ⟨e, he, hadds⟩ hlogs
  · rw [Commits] at hcommits
    omega

/-- In the term of a follower the handler comes to the log as it is. -/
theorem appendEntries_of_follower (hlive : r.killed = false) (hterm : a.term = r.currentTerm)
    (hstate : r.state = .kFollower) (now : Int) : ∃ reply,
      r.appendEntries a now = (r.heardLeader a now).appendEntriesLocked a reply := by
  have hstale : ¬ (r.killed = true ∨ a.term < r.currentTerm) := by simp [hlive, hterm]
  have hstay : ¬ ((r.heardLeader a now).currentTerm < a.term ∨ (r.heardLeader a now).state ≠ .kFollower) := by
    simp [heardLeader, hterm, hstate]
  rw [appendEntries, if_neg hstale]
  dsimp only
  rw [if_neg hstay]
  exact ⟨_, rfl⟩

/-- In every other case the handler, if it runs, leaves another term or office. -/
theorem appendEntries_of_other (hlive : r.killed = false) (hterm : r.currentTerm ≤ a.term)
    (hother : ¬ (a.term = r.currentTerm ∧ r.state = .kFollower)) :
    (r.appendEntries a now).1.served ≠ r.served := by
  have hstale : ¬ (r.killed = true ∨ a.term < r.currentTerm) := by simp [hlive]; omega
  have hleave : (r.heardLeader a now).currentTerm < a.term ∨ (r.heardLeader a now).state ≠ .kFollower := by
    by_cases heq : a.term = r.currentTerm
    · exact .inr fun hstate => hother ⟨heq, hstate⟩
    · exact .inl (lt_of_le_of_ne hterm (Ne.symm heq))
  rw [appendEntries, if_neg hstale]
  dsimp only
  rw [if_pos hleave]
  intro h
  have hconv := served_convertToFollowerLocked (r.heardLeader a now) a.term
  obtain ⟨hct, hst⟩ := appendEntriesLocked_office ((r.heardLeader a now).convertToFollowerLocked a.term) a
    { term := ((r.heardLeader a now).convertToFollowerLocked a.term).currentTerm, readCtx := a.readCtx }
  refine hother ⟨?_, ?_⟩
  · exact (congrArg Prod.fst hconv).symm.trans (hct.symm.trans (congrArg Prod.fst h))
  · exact ((congrArg (·.2.2.1) h).symm.trans hst).trans (congrArg (·.2.2.1) hconv)

theorem appendEntries_served (h : r.killed = true ∨ a.term < r.currentTerm ∨
    (a.term = r.currentTerm ∧ r.state = .kFollower ∧ (r.Accepts a →
      (∀ e ∈ a.entries, ¬ Adds r.snapshotIndex r.logs e) ∧ ¬ r.Commits a))) :
    (r.appendEntries a now).1.served = r.served := by
  by_cases hstale : r.killed = true ∨ a.term < r.currentTerm
  · rw [appendEntries, if_pos hstale]
  · obtain ⟨hlive, hterm⟩ := not_or.mp hstale
    obtain ⟨hterm, hstate, hlog⟩ := (h.resolve_left hlive).resolve_left hterm
    obtain ⟨reply, heq⟩ := appendEntries_of_follower (Bool.not_eq_true _ ▸ hlive) hterm hstate now
    rw [heq]
    exact appendEntriesLocked_served (r := r.heardLeader a now) hlog

theorem appendEntries_served_iff (hgrow : Growing a) :
    (r.appendEntries a now).1.served = r.served ↔ r.killed = true ∨ a.term < r.currentTerm ∨
      (a.term = r.currentTerm ∧ r.state = .kFollower ∧ (r.Accepts a →
        (∀ e ∈ a.entries, ¬ Adds r.snapshotIndex r.logs e) ∧ ¬ r.Commits a)) := by
  refine ⟨fun h => ?_, appendEntries_served⟩
  by_cases hstale : r.killed = true ∨ a.term < r.currentTerm
  · tauto
  · obtain ⟨hlive, hterm⟩ := not_or.mp hstale
    have hlive : r.killed = false := Bool.not_eq_true _ ▸ hlive
    by_cases hfollow : a.term = r.currentTerm ∧ r.state = .kFollower
    · obtain ⟨reply, heq⟩ := appendEntries_of_follower hlive hfollow.1 hfollow.2 now
      rw [heq] at h
      exact .inr (.inr ⟨hfollow.1, hfollow.2,
        (appendEntriesLocked_served_iff (r := r.heardLeader a now) hgrow).mp h⟩)
    · exact absurd h (appendEntries_of_other hlive (by omega) hfollow)

end Append

section Install
variable {a : InstallSnapshotArgs} {reply : InstallSnapshotReply} {blob : Bytes}

theorem openBuffer_of_takes (h : r.TakesChunk a) : r.openBuffer a = some { r with
    recvSnapBuf := r.keptBuf a
    recvSnapIndex := a.lastIncludedIndex
    recvSnapLastTerm := a.lastIncludedTerm
    recvSnapEpoch := a.epoch } := by
  rw [openBuffer]
  by_cases hkey : r.recvSnapIndex = a.lastIncludedIndex ∧ r.recvSnapLastTerm = a.lastIncludedTerm
  · rw [TakesChunk, if_pos hkey] at h
    rw [if_neg (by tauto), keptBuf]
    by_cases hoff : a.offset = 0
    · simp [hoff, hkey.1, hkey.2]
    · by_cases hepoch : a.epoch = r.recvSnapEpoch
      · rw [if_neg hoff, if_pos hepoch, if_pos ⟨hkey.1, hkey.2, hoff, hepoch⟩, ← hkey.1, ← hkey.2, hepoch]
      · have hlt : r.recvSnapEpoch < a.epoch := by omega
        simp [hoff, hepoch, hlt, hkey.1, hkey.2]
  · rw [TakesChunk, if_neg hkey] at h
    have hkept : r.keptBuf a = [] := if_neg fun hk => hkey ⟨hk.1, hk.2.1⟩
    rw [if_pos (not_and_or.mp hkey), if_pos h, hkept]

theorem openBuffer_of_not_takes (h : ¬ r.TakesChunk a) : r.openBuffer a = none := by
  rw [openBuffer]
  by_cases hkey : r.recvSnapIndex = a.lastIncludedIndex ∧ r.recvSnapLastTerm = a.lastIncludedTerm
  · rw [TakesChunk, if_pos hkey] at h
    rw [if_neg (by tauto), if_neg (by tauto), if_neg (by omega), if_neg (by omega)]
  · rw [TakesChunk, if_neg hkey] at h
    rw [if_pos (not_and_or.mp hkey), if_neg h]

theorem writeAt_size (buf : Bytes) (off : Nat) (data : Bytes) :
    (writeAt buf off data).length = max buf.length (off + data.length) := by
  simp only [writeAt]
  split_ifs with h
  · simp
    omega
  · simp
    omega

theorem addChunk_served (r : Raft) (a : InstallSnapshotArgs) : (r.addChunk a).1.served = r.served := by
  simp only [addChunk]
  split_ifs <;> rfl

/-- The blob comes out with the last chunk of a snapshot that is put together rightly. -/
theorem addChunk_isSome : (r.addChunk a).2.isSome = true ↔ 0 ≤ a.offset ∧
    a.data.length ≤ kSnapshotChunkSize ∧ a.offset.toNat + a.data.length ≤ kMaxRecvSnapBuf ∧
    a.done = true ∧ r.recvSnapBuf.length ≤ a.offset.toNat + a.data.length ∧
    crc32 (writeAt r.recvSnapBuf a.offset.toNat a.data) = a.crc := by
  simp only [addChunk, writeAt_size]
  split_ifs with hbad hdone hfit
  · refine iff_of_false (by simp) fun h => ?_
    omega
  · refine iff_of_true rfl ⟨by omega, by omega, by omega, hdone, by omega, hfit.2⟩
  · refine iff_of_false (by simp) fun h => hfit ⟨by omega, h.2.2.2.2.2⟩
  · exact iff_of_false (by simp) fun h => hdone h.2.2.2.1

theorem installReceive_blob (r : Raft) (a : InstallSnapshotArgs) (reply : InstallSnapshotReply) (now : Int) :
    (r.installReceive a reply now).2.2.isSome = true ↔ r.Completes a := by
  rw [installReceive]
  dsimp only
  by_cases happlied : a.lastIncludedIndex ≤ r.lastApplied
  · rw [if_pos happlied]
    refine iff_of_false (by simp) fun h => ?_
    have hlt := h.behind
    omega
  rw [if_neg happlied]
  by_cases htakes : r.TakesChunk a
  · rw [openBuffer_of_takes (r := { r with lastHeartbeat := now, leaderId := a.leaderId }) htakes]
    dsimp only
    rw [addChunk_isSome]
    constructor
    · rintro ⟨hoff, hchunk, hroom, hdone, hwhole, hcrc⟩
      exact ⟨by omega, htakes, hoff, hchunk, hroom, hdone, hwhole, hcrc⟩
    · rintro ⟨-, -, hoff, hchunk, hroom, hdone, hwhole, hcrc⟩
      exact ⟨hoff, hchunk, hroom, hdone, hwhole, hcrc⟩
  · rw [openBuffer_of_not_takes (r := { r with lastHeartbeat := now, leaderId := a.leaderId }) htakes]
    exact iff_of_false (by simp) fun h => htakes h.taken

theorem installReceive_served (r : Raft) (a : InstallSnapshotArgs) (reply : InstallSnapshotReply)
    (now : Int) : (r.installReceive a reply now).1.served = r.served ∧
    (r.installReceive a reply now).1.lastApplied = r.lastApplied := by
  rw [installReceive]
  dsimp only
  split_ifs
  · exact ⟨rfl, rfl⟩
  · by_cases htakes : r.TakesChunk a
    · rw [openBuffer_of_takes (r := { r with lastHeartbeat := now, leaderId := a.leaderId }) htakes]
      refine ⟨addChunk_served _ a, ?_⟩
      simp only [addChunk]
      split_ifs <;> rfl
    · rw [openBuffer_of_not_takes (r := { r with lastHeartbeat := now, leaderId := a.leaderId }) htakes]
      exact ⟨rfl, rfl⟩

/-- Phase 2 puts the snapshot in place unless it came too late. -/
theorem installCommit_snapshotIndex (h : r.installStale a = false) :
    (r.installCommit a blob).1.snapshotIndex = a.lastIncludedIndex := by
  rw [installCommit, if_neg (by simp [h])]
  have hlogs : ∀ (r : Raft) (old : Int), (r.installLogs a old).snapshotIndex = r.snapshotIndex :=
    fun r old => congrArg (·.2.2.2.2.2.1) (served_persistLocked _)
  show ((if (r.installBegin a blob).installDeposed a then _ else _ : Raft).installLogs a _).snapshotIndex = _
  rw [hlogs]
  split_ifs
  · exact congrArg (·.2.2.2.2.2.1) (served_convertToFollowerLocked _ _)
  · rfl

theorem saveSnapshotBlob_parts (r : Raft) (index term : Int) (raw : Bytes) :
    (r.saveSnapshotBlob index term raw).served = r.served ∧
      (r.saveSnapshotBlob index term raw).lastApplied = r.lastApplied := by
  rw [saveSnapshotBlob]
  split_ifs <;> exact ⟨rfl, rfl⟩

theorem installCommit_currentTerm : (r.installCommit a blob).1.currentTerm = r.currentTerm := by
  rw [installCommit]
  split_ifs
  · rfl
  have hlogs : ∀ (r : Raft) (old : Int), (r.installLogs a old).currentTerm = r.currentTerm :=
    fun r old => congrArg Prod.fst (served_persistLocked _)
  show ((if (r.installBegin a blob).installDeposed a then _ else _ : Raft).installLogs a _).currentTerm = _
  rw [hlogs]
  split_ifs
  · exact congrArg Prod.fst (served_convertToFollowerLocked _ _)
  · rfl

theorem installSnapshotRPC_of_none {r' : Raft} (h : r.installSnapshot a now = (r', reply, none)) :
    r.installSnapshotRPC a now = (r', reply) := by rw [installSnapshotRPC, h]

theorem installSnapshotRPC_of_some {r' : Raft} (h : r.installSnapshot a now = (r', reply, some blob)) :
    r.installSnapshotRPC a now =
      (r'.saveSnapshotBlob a.lastIncludedIndex a.lastIncludedTerm blob).installCommit a blob := by
  rw [installSnapshotRPC, h]

/-- In its own term the handler starts with the chunk. -/
theorem installSnapshot_of_term (hterm : a.term = r.currentTerm) (now : Int) :
    ∃ reply, r.installSnapshot a now = r.installReceive a reply now := by
  rw [installSnapshot, if_neg (by omega), if_neg (by omega)]
  exact ⟨_, rfl⟩

/-- In a later term the handler leaves that term. -/
theorem installSnapshot_of_later (hterm : r.currentTerm < a.term) (now : Int) :
    (r.installSnapshot a now).1.currentTerm = a.term := by
  rw [installSnapshot, if_neg (by omega), if_pos hterm]
  have hconv := congrArg Prod.fst (served_convertToFollowerLocked r a.term)
  exact (congrArg Prod.fst (installReceive_served _ a _ now).1).trans hconv

theorem installSnapshotRPC_served (h : a.term < r.currentTerm ∨
    (a.term = r.currentTerm ∧ ¬ r.Completes a)) : (r.installSnapshotRPC a now).1.served = r.served := by
  rcases h with hold | ⟨hterm, hincomplete⟩
  · rw [installSnapshotRPC, installSnapshot, if_pos hold]
  · obtain ⟨reply, heq⟩ := installSnapshot_of_term hterm now
    have hblob := (installReceive_blob r a reply now).not.mpr hincomplete
    rw [installSnapshotRPC, heq]
    rcases hres : r.installReceive a reply now with ⟨r', reply', _ | blob⟩
    · exact (congrArg (fun res => res.1.served) hres).symm.trans (installReceive_served r a reply now).1
    · rw [hres] at hblob
      exact absurd rfl hblob

theorem installSnapshotRPC_served_iff (hsnap : r.snapshotIndex ≤ r.lastApplied) :
    (r.installSnapshotRPC a now).1.served = r.served ↔
      a.term < r.currentTerm ∨ (a.term = r.currentTerm ∧ ¬ r.Completes a) := by
  refine ⟨fun h => ?_, installSnapshotRPC_served⟩
  rcases lt_trichotomy a.term r.currentTerm with hterm | hterm | hterm
  · exact .inl hterm
  · refine .inr ⟨hterm, fun hcomplete => ?_⟩
    obtain ⟨reply, heq⟩ := installSnapshot_of_term hterm now
    have hblob := (installReceive_blob r a reply now).mpr hcomplete
    obtain ⟨hserved, happlied⟩ := installReceive_served r a reply now
    rcases hres : r.installReceive a reply now with ⟨r', reply', _ | blob⟩
    · rw [hres] at hblob
      cases hblob
    · rw [hres] at hserved happlied
      rw [installSnapshotRPC_of_some (heq.trans hres)] at h
      obtain ⟨hsaved, hsavedApplied⟩ := saveSnapshotBlob_parts r' a.lastIncludedIndex a.lastIncludedTerm blob
      have hct := congrArg Prod.fst (hsaved.trans hserved)
      have hbehind := hcomplete.behind
      have hstale : (r'.saveSnapshotBlob a.lastIncludedIndex a.lastIncludedTerm blob).installStale a = false := by
        simp only [served] at hct happlied
        simp only [installStale, Bool.or_eq_false_iff, decide_eq_false_iff_not, hct, hsavedApplied, happlied]
        omega
      have hindex := (installCommit_snapshotIndex hstale).symm.trans
        (congrArg (·.2.2.2.2.2.1) h)
      simp only [served] at hindex
      omega
  · exfalso
    have hlater := installSnapshot_of_later hterm now
    have hct := congrArg Prod.fst h
    rcases hres : r.installSnapshot a now with ⟨r', reply', _ | blob⟩
    · rw [hres] at hlater
      rw [installSnapshotRPC_of_none hres] at hct
      simp only [served] at hct hlater
      omega
    · rw [hres] at hlater
      rw [installSnapshotRPC_of_some hres] at hct
      simp only [served, installCommit_currentTerm] at hct
      have hsaved := congrArg Prod.fst
        (saveSnapshotBlob_parts r' a.lastIncludedIndex a.lastIncludedTerm blob).1
      simp only [served] at hsaved hlater
      omega

end Install

section ReadIndex

theorem readIndexOpen_served (r : Raft) (now : Int) : (r.readIndexOpen now).1.served = r.served := by
  rw [readIndexOpen]
  split_ifs
  · rfl
  · rfl
  · rfl
  · rfl
  · rfl
  · split <;> rfl

theorem readIndexPoll_served (r : Raft) (ctx : Nat) (term readIndex deadline now : Int) :
    (r.readIndexPoll ctx term readIndex deadline now).1.served = r.served := by
  rw [readIndexPoll]
  dsimp only
  split_ifs <;> rfl

theorem readIndex_served (r : Raft) (now : Int) : (r.readIndex now).1.served = r.served := by
  have hopen := r.readIndexOpen_served now
  rw [readIndex]
  rcases hres : r.readIndexOpen now with ⟨r', _ | _ | ⟨ctx, term, readIndex, starter⟩⟩
  all_goals rw [hres] at hopen
  · exact hopen
  · exact hopen
  · exact (readIndexPoll_served r' ctx term readIndex _ _).trans hopen

end ReadIndex

/-- The requests for which more is known than that harmless ones are harmless: those whose entries cannot be
taken off the log and put back, and those of a node whose snapshot is applied. -/
def Ordinary (r : Raft) (s : Bytes) : RaftMethod → Prop
  | .appendEntries => Growing (AppendEntriesArgs.filled s)
  | .installSnapshot => r.snapshotIndex ≤ r.lastApplied
  | .requestVote => True
  | .requestPreVote => True
  | .readIndex => True

/-- A rejected request leaves the node alone when what was read of it is harmless, and, an odd one apart,
only then. -/
theorem malformed_requests (r : Raft) (s : Bytes) (now : Int) (m : RaftMethod) (_hs : m.Rejects s) :
    (r.Harmless s m → (r.serve s now m).1.served = r.served) ∧
      (r.Ordinary s m → (r.serve s now m).1.served = r.served → r.Harmless s m) := by
  cases m with
  | requestVote => exact ⟨requestVote_served.mpr, fun _ => requestVote_served.mp⟩
  | requestPreVote => exact ⟨fun _ => rfl, fun _ _ => trivial⟩
  | appendEntries => exact ⟨appendEntries_served, fun hgrow => (appendEntries_served_iff hgrow).mp⟩
  | installSnapshot =>
    exact ⟨installSnapshotRPC_served, fun hsnap => (installSnapshotRPC_served_iff hsnap).mp⟩
  | readIndex =>
    refine ⟨fun _ => ?_, fun _ _ => trivial⟩
    simp only [serve]
    split_ifs
    · exact readIndex_served r now
    · exact readIndex_served r now
    · rfl

/-- An `AppendEntries` without a payload, at a node that has left term 0. -/
theorem malformed_requests_empty :
    ((({ make 3 0 {} 0 with currentTerm := 1 } : Raft).serve [] 0 .appendEntries).1.served =
      ({ make 3 0 {} 0 with currentTerm := 1 } : Raft).served) :=
  (malformed_requests { make 3 0 {} 0 with currentTerm := 1 } [] 0 .appendEntries (by decide)).1
    (.inr (.inl (by decide)))

/-- One byte, a term of 5, and the node is in term 5. -/
theorem malformed_vote_raises_term : ¬ ∀ (peers me : Nat) (d : Disk) (start : Int)
    (es : List ProcessEvent) (s : Bytes) (now : Int) (m : RaftMethod), m.Rejects s →
      ((((Process.boot peers me d start).run es).raft.serve s now m).1.served =
        ((Process.boot peers me d start).run es).raft.served) := by
  intro h
  have hserved := h 3 0 {} 0 [] [10] 0 .requestVote (by decide)
  have hterm := congrArg Prod.fst hserved
  revert hterm
  decide

end Raft

end ChonKV
