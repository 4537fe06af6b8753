import ChonKV.Assoc.Numbered
import ChonKV.Durable.Via

/-!
The log of one process and its mirror in the segment store: both are numbered from the snapshot on,
wherever `mu_` is free.
-/

set_option autoImplicit false

namespace ChonKV

open Assoc

namespace SegmentLogStorage

theorem foldl_writeRecord (l : List LogEntry) (s : SegmentLogStorage) :
    (l.foldl writeRecord s).entries = s.entries ∧ (l.foldl writeRecord s).aborted = s.aborted := by
  induction l generalizing s with
  | nil => exact ⟨rfl, rfl⟩
  | cons e l ih => exact ih (s.writeRecord e)

@[simp] theorem rewriteFile_entries (s : SegmentLogStorage) : s.rewriteFile.entries = s.entries :=
  (foldl_writeRecord s.entries { s with file := [], offsets := [] }).1

@[simp] theorem rewriteFile_aborted (s : SegmentLogStorage) : s.rewriteFile.aborted = s.aborted :=
  (foldl_writeRecord s.entries { s with file := [], offsets := [] }).2

/-- An entry that follows the last one is taken. -/
theorem append_of_next {s : SegmentLogStorage} {e : LogEntry}
    (h : ∀ l, s.entries.getLast? = some l → e.index = l.index + 1) :
    (s.append e).entries = s.entries ++ [e] ∧ (s.append e).aborted = s.aborted := by
  have hopen : ∀ s' : SegmentLogStorage, s'.entries = s.entries →
      (s'.entries.getLast?.map fun l => decide (e.index ≠ l.index + 1)).getD false = false := by
    intro s' heq
    rw [heq]
    cases hl : s.entries.getLast? with
    | none => rfl
    | some l => simp [h l hl]
  unfold append
  by_cases hempty : s.entries.isEmpty ∧ s.file ≠ []
  · simp only [if_pos hempty, hopen _ (rewriteFile_entries s)]
    simp [writeRecord]
  · simp only [if_neg hempty, hopen s rfl]
    simp [writeRecord]

end SegmentLogStorage

/-- The log is numbered from its sentinel on. -/
structure Leveled (snapshotIndex : Int) (logs : List LogEntry) : Prop where
  held : logs ≠ []
  numbered : Numbered LogEntry.index snapshotIndex logs

/-- The mirror holds the log above its sentinel, behind entries that the snapshot covers. -/
structure Mirrored (snapshotIndex : Int) (logs : List LogEntry) (s : SegmentLogStorage) : Prop where
  mirror : ∃ first, first ≤ snapshotIndex + 1 ∧ Numbered LogEntry.index first s.entries ∧
    s.entries.drop (snapshotIndex + 1 - first).toNat = logs.tail ∧
    (snapshotIndex + 1 - first).toNat ≤ s.entries.length
  sound : s.aborted = false

section

variable {si i : Int} {logs : List LogEntry} {s : SegmentLogStorage} {e : LogEntry}

namespace Leveled

theorem length_pos (h : Leveled si logs) : 0 < logs.length := List.length_pos_iff.mpr h.held

theorem lastIndexOf_eq (h : Leveled si logs) : lastIndexOf logs = si + logs.length - 1 := by
  obtain ⟨a, l, rfl⟩ := List.exists_cons_of_ne_nil h.held
  rw [lastIndexOf, List.getLast?_eq_some_getLast (List.cons_ne_nil a l)]
  exact h.numbered.getLast (List.getLast?_eq_some_getLast (List.cons_ne_nil a l))

theorem push (h : Leveled si logs) (he : e.index = lastIndexOf logs + 1) :
    Leveled si (logs ++ [e]) := by
  have hlast := h.lastIndexOf_eq
  exact ⟨by simp, h.numbered.push (by omega)⟩

theorem take (h : Leveled si logs) (hi : si ≤ i) : Leveled si (logs.take (i + 1 - si).toNat) := by
  have hpos := h.length_pos
  refine ⟨?_, h.numbered.take _⟩
  rw [← List.length_pos_iff, List.length_take]
  omega

/-- The snapshot moves up. -/
theorem cut (h : Leveled si logs) (hi : si ≤ i) (t : Int) :
    Leveled i (cutLogs logs (i - si).toNat t i) := by
  refine ⟨List.cons_ne_nil _ _, rfl, ?_⟩
  convert h.numbered.drop ((i - si).toNat + 1) using 1
  omega

end Leveled

namespace Mirrored

/-- The mirror above the snapshot is the log above its sentinel. -/
theorem filter_eq (h : Mirrored si logs s) :
    s.entries.filter (fun e => decide (si < e.index)) = logs.tail := by
  obtain ⟨first, -, hnum, hdrop, -⟩ := h.mirror
  rw [hnum.filter_gt, hdrop]

theorem push (h : Mirrored si logs s) (hl : Leveled si logs) (he : e.index = lastIndexOf logs + 1) :
    Mirrored si (logs ++ [e]) (s.append e) := by
  obtain ⟨first, hle, hnum, hdrop, hlen⟩ := h.mirror
  have hlast := hl.lastIndexOf_eq
  have hpos := hl.length_pos
  have hends : first + s.entries.length = si + logs.length := by
    have hl := congrArg List.length hdrop
    simp only [List.length_drop, List.length_tail] at hl
    omega
  have hnext : ∀ l, s.entries.getLast? = some l → e.index = l.index + 1 := by
    intro l hl
    have hidx := hnum.getLast hl
    omega
  obtain ⟨hentries, haborted⟩ := SegmentLogStorage.append_of_next hnext
  refine ⟨⟨first, hle, ?_, ?_, ?_⟩, haborted.trans h.sound⟩
  · rw [hentries]
    exact hnum.push (by omega)
  · rw [hentries, List.drop_append_of_le_length hlen, hdrop, List.tail_append_of_ne_nil hl.held]
  · rw [hentries, List.length_append]
    omega

/-- A conflict above the snapshot cuts both. -/
theorem truncateSuffix (h : Mirrored si logs s) (hl : Leveled si logs) (hi : si ≤ i) :
    Mirrored si (logs.take (i + 1 - si).toNat) (s.truncateSuffix i) := by
  obtain ⟨first, hle, hnum, hdrop, hlen⟩ := h.mirror
  have hpos := hl.length_pos
  have hkeep := hnum.takeWhile_le i
  refine ⟨⟨first, hle, hnum.take _, ?_, ?_⟩, h.sound⟩
  · dsimp only [SegmentLogStorage.truncateSuffix]
    rw [← List.drop_one (l := logs.take _), List.drop_take, List.drop_take, List.drop_one, ← hdrop,
      hkeep, List.take_eq_take_iff, List.length_drop]
    omega
  · dsimp only [SegmentLogStorage.truncateSuffix]
    rw [hkeep, List.length_take]
    omega

/-- The snapshot moves up within the log; what it covers may stay in the mirror. -/
theorem cut (h : Mirrored si logs s) (hi : si ≤ i) (hlt : i - si < logs.length) (t : Int) :
    Mirrored i (cutLogs logs (i - si).toNat t i) s := by
  obtain ⟨first, hle, hnum, hdrop, hlen⟩ := h.mirror
  have hends := congrArg List.length hdrop
  simp only [List.length_drop, List.length_tail] at hends
  have hsum : (i + 1 - first).toNat = (si + 1 - first).toNat + (i - si).toNat := by omega
  refine ⟨⟨first, by omega, hnum, ?_, by omega⟩, h.sound⟩
  rw [hsum, ← List.drop_drop, hdrop, List.drop_tail]
  rfl

/-- The mirror drops entries that the snapshot covers. -/
theorem dropPrefix (h : Mirrored si logs s) (hi : i ≤ si) : Mirrored si logs (s.dropPrefix i) := by
  obtain ⟨first, hle, hnum, hdrop, hlen⟩ := h.mirror
  have hgone := hnum.takeWhile_le i
  refine ⟨⟨_, ?_, hnum.drop _, ?_, ?_⟩, h.sound⟩
  · omega
  · dsimp only [SegmentLogStorage.dropPrefix]
    rw [List.drop_drop, ← hdrop]
    congr 1
    omega
  · dsimp only [SegmentLogStorage.dropPrefix]
    rw [List.length_drop]
    omega

theorem truncatePrefix (h : Mirrored si logs s) (hi : i ≤ si) :
    Mirrored si logs (s.truncatePrefix i) := by
  obtain ⟨hmirror, hsound⟩ := h.dropPrefix hi
  rw [SegmentLogStorage.truncatePrefix]
  refine ⟨?_, ?_⟩
  · rw [SegmentLogStorage.rewriteFile_entries]
    exact hmirror
  · rw [SegmentLogStorage.rewriteFile_aborted]
    exact hsound

/-- The snapshot moves past the log. -/
theorem clear (h : Mirrored si logs s) (hl : Leveled si logs) (hi : logs.length ≤ i - si) (e : LogEntry) :
    Mirrored i [e] (s.dropPrefix i) := by
  obtain ⟨first, hle, hnum, hdrop, hlen⟩ := h.mirror
  have hgone := hnum.takeWhile_le i
  have hends := congrArg List.length hdrop
  have hpos := hl.length_pos
  simp only [List.length_drop, List.length_tail] at hends
  have hempty : (s.dropPrefix i).entries = [] := by
    dsimp only [SegmentLogStorage.dropPrefix]
    rw [hgone]
    exact List.drop_eq_nil_of_le (by omega)
  refine ⟨⟨i + 1, le_refl _, ?_, ?_, ?_⟩, h.sound⟩
  all_goals simp [hempty]

/-- A log that is laid down in the store anew. -/
theorem reset (hl : Leveled si logs) (hsound : s.aborted = false) :
    Mirrored si logs (s.resetFromLogs logs) := by
  have htail := hl.numbered.drop 1
  rw [List.drop_one] at htail
  have hentries : (s.resetFromLogs logs).entries = logs.tail ∧
      (s.resetFromLogs logs).aborted = false := by
    rw [SegmentLogStorage.resetFromLogs]
    split_ifs with hsame
    · exact ⟨hsame.2, hsound⟩
    · simp [hsound]
  refine ⟨⟨si + 1, le_refl _, ?_, ?_, ?_⟩, hentries.2⟩
  · rw [hentries.1]
    exact htail
  · simp [hentries.1]
  · simp

end Mirrored

/-- The loop of `AppendEntries` over entries without a gap. -/
theorem Leveled.mergeEntry (hpos : 0 ≤ si) {m : MergeState} (h : Leveled si m.logs)
    (he : e.index ≤ lastIndexOf m.logs + 1) :
    Leveled si (mergeEntry si m e).logs ∧ e.index ≤ lastIndexOf (mergeEntry si m e).logs := by
  have hlast := h.lastIndexOf_eq
  have hlen := h.length_pos
  rw [ChonKV.mergeEntry]
  split_ifs with hskip hheld hterm
  · exact ⟨h, by omega⟩
  · have hcut := h.take (i := e.index - 1) (by omega)
    rw [Int.sub_add_cancel] at hcut
    have hnext : e.index = lastIndexOf (m.logs.take (e.index - si).toNat) + 1 := by
      rw [hcut.lastIndexOf_eq, List.length_take]
      omega
    have hpush := hcut.push hnext
    refine ⟨hpush, ?_⟩
    rw [hpush.lastIndexOf_eq, List.length_append, List.length_take]
    dsimp only [List.length_singleton]
    omega
  · exact ⟨h, hheld⟩
  · have hpush := h.push (e := e) (by omega)
    refine ⟨hpush, ?_⟩
    rw [hpush.lastIndexOf_eq, List.length_append]
    dsimp only [List.length_singleton]
    omega

theorem Mirrored.mergeEntry {m : MergeState} (h : Mirrored si m.logs s)
    (hl : Leveled si m.logs) (hs : m.logStore = .segment s) (he : e.index ≤ lastIndexOf m.logs + 1) :
    ∃ s', (mergeEntry si m e).logStore = .segment s' ∧ Mirrored si (mergeEntry si m e).logs s' := by
  have hlast := hl.lastIndexOf_eq
  rw [ChonKV.mergeEntry]
  split_ifs with hskip hheld hterm
  · exact ⟨s, hs, h⟩
  · have hcut := h.truncateSuffix hl (i := e.index - 1) (by omega)
    have hlcut := hl.take (i := e.index - 1) (by omega)
    rw [Int.sub_add_cancel] at hcut hlcut
    have hnext : e.index = lastIndexOf (m.logs.take (e.index - si).toNat) + 1 := by
      rw [hlcut.lastIndexOf_eq, List.length_take]
      omega
    refine ⟨_, ?_, hcut.push hlcut hnext⟩
    rw [hs]
    rfl
  · exact ⟨s, hs, h⟩
  · refine ⟨_, ?_, h.push hl (by omega)⟩
    rw [hs]
    rfl

theorem Leveled.foldl_mergeEntry {first : Int} (hpos : 0 ≤ si) {es : List LogEntry}
    (hes : Numbered LogEntry.index first es) {m : MergeState} (h : Leveled si m.logs)
    (hfirst : first ≤ lastIndexOf m.logs + 1) :
    Leveled si (es.foldl (ChonKV.mergeEntry si) m).logs := by
  induction es generalizing first m with
  | nil => exact h
  | cons e es ih =>
    have hidx := hes.1
    obtain ⟨h', hle⟩ := h.mergeEntry hpos (e := e) (by omega)
    exact ih hes.2 h' (by omega)

theorem Mirrored.foldl_mergeEntry {first : Int} (hpos : 0 ≤ si) {es : List LogEntry}
    (hes : Numbered LogEntry.index first es) {m : MergeState} (h : Mirrored si m.logs s)
    (hl : Leveled si m.logs) (hs : m.logStore = .segment s)
    (hfirst : first ≤ lastIndexOf m.logs + 1) :
    ∃ s', (es.foldl (ChonKV.mergeEntry si) m).logStore = .segment s' ∧
      Mirrored si (es.foldl (ChonKV.mergeEntry si) m).logs s' := by
  induction es generalizing first m s with
  | nil => exact ⟨s, hs, h⟩
  | cons e es ih =>
    have hidx := hes.1
    obtain ⟨hl', hle⟩ := hl.mergeEntry hpos (e := e) (by omega)
    obtain ⟨s', hs', h'⟩ := h.mergeEntry hl hs (e := e) (by omega)
    exact ih hes.2 h' hl' hs' (by omega)

end

/-- The entries of the request follow its `prev_log_index` one by one. -/
def AppendEntriesArgs.Contiguous (args : AppendEntriesArgs) : Prop :=
  Numbered LogEntry.index (args.prevLogIndex + 1) args.entries

/-- What a restart relies on: a log without a gap, that reaches back to the saved snapshot, and none
without a saved state. -/
structure Disk.Whole (d : Disk) : Prop where
  fresh : d.persister.raftState = none → d.segFile = []
  pos : ∀ st, d.persister.raftState = some st → 0 ≤ st.snapshotIndex
  file : ∀ st, d.persister.raftState = some st → d.persister.fileBacked = true →
    ∃ first, first ≤ st.snapshotIndex + 1 ∧ Numbered LogEntry.index first d.segFile
  blob : ∀ st, d.persister.raftState = some st → d.persister.fileBacked = false →
    Leveled st.snapshotIndex st.logs

namespace Raft

/-- The log of a node is numbered from its snapshot on. -/
structure Level (r : Raft) : Prop where
  pos : 0 ≤ r.snapshotIndex
  log : Leveled r.snapshotIndex r.logs

instance (r : Raft) : Decidable r.Level :=
  decidable_of_iff (0 ≤ r.snapshotIndex ∧ r.logs ≠ [] ∧ Numbered LogEntry.index r.snapshotIndex r.logs)
    ⟨fun h => ⟨h.1, h.2.1, h.2.2⟩, fun h => ⟨h.pos, h.log.held, h.log.numbered⟩⟩

/-- In file mode, it is in step with its mirror besides. -/
structure MirrorOK (r : Raft) : Prop extends Level r where
  segment : ∃ s, r.logStore = .segment s ∧ Mirrored r.snapshotIndex r.logs s

variable {r r' : Raft}

theorem Level.sameLog (h : r.Level) (hs : SameLog r r') : r'.Level := by
  refine ⟨hs.index ▸ h.pos, ?_⟩
  rw [hs.index, hs.logs]
  exact h.log

theorem MirrorOK.sameLog (h : r.MirrorOK) (hs : SameLog r r') : r'.MirrorOK := by
  refine ⟨h.toLevel.sameLog hs, ?_⟩
  rw [hs.index, hs.logs, hs.logStore]
  exact h.segment

theorem Level.edit (h : r.Level) (he : Edit r r') : r'.Level := by
  cases he with
  | push e hindex _ => exact ⟨h.pos, h.log.push hindex⟩
  | propose e hindex _ _ => exact ⟨h.pos, h.log.push hindex⟩
  | elect => exact ⟨h.pos, h.log⟩

theorem MirrorOK.edit (h : r.MirrorOK) (he : Edit r r') : r'.MirrorOK := by
  have hpush : ∀ e : LogEntry, e.index = r.lastLogIndexLocked + 1 →
      ∃ s, r.logStore.append e = .segment s ∧ Mirrored r.snapshotIndex (r.logs ++ [e]) s := by
    intro e hindex
    obtain ⟨s, hs, hm⟩ := h.segment
    refine ⟨s.append e, ?_, hm.push h.log hindex⟩
    rw [hs]
    rfl
  refine ⟨h.toLevel.edit he, ?_⟩
  cases he with
  | push e hindex _ => exact hpush e hindex
  | propose e hindex _ _ => exact hpush e hindex
  | elect => exact h.segment

theorem Level.edited (h : r.Level) (hg : Edited r r') : r'.Level := by
  induction hg with
  | still hs => exact h.sameLog hs.toSameLog
  | edit _ he hs ih => exact (ih.edit he).sameLog hs.toSameLog

theorem Level.mergeLocked (h : r.Level) {args : AppendEntriesArgs} (hargs : args.Contiguous)
    (hprev : ¬ r.lastLogIndexLocked < args.prevLogIndex) : (r.mergeLocked args).Level := by
  rw [lastLogIndexLocked] at hprev
  have hm := h.log.foldl_mergeEntry h.pos hargs (m := { logs := r.logs, logStore := r.logStore })
    (by dsimp only; omega)
  rw [Raft.mergeLocked]
  split_ifs
  · refine Level.sameLog ?_ (still_persistLocked _).toSameLog
    exact ⟨h.pos, hm⟩
  · exact ⟨h.pos, hm⟩

theorem MirrorOK.mergeLocked (h : r.MirrorOK) {args : AppendEntriesArgs} (hargs : args.Contiguous)
    (hprev : ¬ r.lastLogIndexLocked < args.prevLogIndex) : (r.mergeLocked args).MirrorOK := by
  obtain ⟨s, hs, hm⟩ := h.segment
  refine ⟨h.toLevel.mergeLocked hargs hprev, ?_⟩
  rw [lastLogIndexLocked] at hprev
  have hm' := hm.foldl_mergeEntry h.pos hargs (m := { logs := r.logs, logStore := r.logStore }) h.log
    hs (by dsimp only; omega)
  rw [Raft.mergeLocked]
  split_ifs
  · have hp := still_persistLocked { r with
      logs := (args.entries.foldl (mergeEntry r.snapshotIndex)
        { logs := r.logs, logStore := r.logStore }).logs
      logStore := (args.entries.foldl (mergeEntry r.snapshotIndex)
        { logs := r.logs, logStore := r.logStore }).logStore }
    rw [hp.index, hp.logs, hp.logStore]
    exact hm'
  · exact hm'

theorem Level.appendEntriesLocked (h : r.Level) {args : AppendEntriesArgs}
    (hargs : args.Contiguous) (reply : AppendEntriesReply) :
    (r.appendEntriesLocked args reply).1.Level := by
  rw [Raft.appendEntriesLocked]
  split_ifs with hshort
  · exact h
  · exact h
  · exact (h.mergeLocked hargs hshort).sameLog (still_followCommit _ args).toSameLog

theorem MirrorOK.appendEntriesLocked (h : r.MirrorOK) {args : AppendEntriesArgs}
    (hargs : args.Contiguous) (reply : AppendEntriesReply) :
    (r.appendEntriesLocked args reply).1.MirrorOK := by
  rw [Raft.appendEntriesLocked]
  split_ifs with hshort
  · exact h
  · exact h
  · exact (h.mergeLocked hargs hshort).sameLog (still_followCommit _ args).toSameLog

/-- A log that is cut where it is numbered ends where it ended, or later. -/
theorem lastIndexOf_cutLogs {si : Int} {logs : List LogEntry} (h : Leveled si logs) {index : Int}
    (hle : si ≤ index) (term : Int) :
    lastIndexOf logs ≤ lastIndexOf (cutLogs logs (index - si).toNat term index) := by
  have hcut := (h.cut hle term).lastIndexOf_eq
  have hlast := h.lastIndexOf_eq
  rw [hcut, hlast, cutLogs, List.length_cons, List.length_drop]
  omega

theorem Level.snapshotCut (h : r.Level) {index : Int} (hlt : r.snapshotIndex < index) (term : Int)
    (data : Bytes) : (r.snapshotCut index term data).Level :=
  ⟨h.pos.trans hlt.le, h.log.cut hlt.le term⟩

theorem MirrorOK.snapshotCut (h : r.MirrorOK) {index : Int} (hlt : r.snapshotIndex < index)
    (hin : r.inLogs index) (term : Int) (data : Bytes) : (r.snapshotCut index term data).MirrorOK := by
  obtain ⟨s, hs, hm⟩ := h.segment
  refine ⟨h.toLevel.snapshotCut hlt term data, s.dropPrefix index, ?_,
    (hm.cut hlt.le hin.2 term).dropPrefix (le_refl index)⟩
  rw [Raft.snapshotCut, hs]
  rfl

theorem MirrorOK.truncatePrefix (h : r.MirrorOK) {index : Int} (hle : index ≤ r.snapshotIndex)
    (hi : r'.snapshotIndex = r.snapshotIndex) (hl : r'.logs = r.logs)
    (hst : r'.logStore = r.logStore.truncatePrefix index) : r'.MirrorOK := by
  obtain ⟨s, hs, hm⟩ := h.segment
  refine ⟨⟨hi ▸ h.pos, ?_⟩, s.truncatePrefix index, ?_, ?_⟩
  · rw [hi, hl]
    exact h.log
  · rw [hst, hs]
    rfl
  · rw [hi, hl]
    exact hm.truncatePrefix hle

/-- Phase 2 of `InstallSnapshot` up to its `PersistLocked`, where no leader is deposed. -/
theorem Level.installLogs (h : r.Level) {args : InstallSnapshotArgs} {blob : Bytes}
    (hle : r.snapshotIndex ≤ args.lastIncludedIndex) :
    ((r.installBegin args blob).installLogs args r.snapshotIndex).Level := by
  rw [Raft.installLogs, installPos_of_le hle]
  refine Level.sameLog ?_ (still_persistLocked _).toSameLog
  exact ⟨h.pos.trans hle, h.log.cut hle args.lastIncludedTerm⟩

theorem MirrorOK.installLogs (h : r.MirrorOK) {args : InstallSnapshotArgs} {blob : Bytes}
    (hle : r.snapshotIndex ≤ args.lastIncludedIndex) :
    ((r.installBegin args blob).installLogs args r.snapshotIndex).MirrorOK := by
  obtain ⟨s, hs, hm⟩ := h.segment
  rw [Raft.installLogs, installPos_of_le hle]
  refine MirrorOK.sameLog ?_ (still_persistLocked _).toSameLog
  refine ⟨⟨h.pos.trans hle, h.log.cut hle args.lastIncludedTerm⟩, ?_⟩
  by_cases hkeep : (args.lastIncludedIndex - r.snapshotIndex).toNat < r.logs.length
  · have hcut := (hm.cut hle (by omega) args.lastIncludedTerm).dropPrefix
      (i := args.lastIncludedIndex - 1) (by omega)
    refine ⟨_, ?_, hcut⟩
    simp only [installBegin, hs, hkeep, ↓reduceIte]
    rfl
  · have hclear := hm.clear h.log (i := args.lastIncludedIndex) (by omega)
      (sentinel args.lastIncludedTerm args.lastIncludedIndex)
    refine ⟨s.dropPrefix args.lastIncludedIndex, ?_, ?_⟩
    · simp only [installBegin, hs, hkeep, ↓reduceIte]
      rfl
    · have hdrop : r.logs.drop ((args.lastIncludedIndex - r.snapshotIndex).toNat + 1) = [] :=
        List.drop_eq_nil_of_le (by omega)
      simpa only [installBegin, cutLogs, hdrop] using hclear

theorem Level.adoptBlob (h : r.Level) (b : SnapshotBlob) : (r.adoptBlob b).Level := by
  rw [Raft.adoptBlob]
  split_ifs with hlt
  · exact ⟨h.pos.trans hlt.le, h.log.cut hlt.le b.term⟩
  · exact ⟨h.pos.trans hlt.le, h.log.cut hlt.le b.term⟩
  · exact ⟨h.pos, h.log⟩
  · exact h

theorem adoptBlob_logStore (r : Raft) (b : SnapshotBlob) : (r.adoptBlob b).logStore = r.logStore := by
  rw [adoptBlob]
  split_ifs <;> rfl

/-- The log that a restart reads, before a later blob cuts it. -/
theorem level_restoreState {d : Disk} (hd : d.Whole) {st : RaftState}
    (hst : d.persister.raftState = some st) (peers me : Nat) (now : Int) :
    ((blank peers me d now).restoreState st).Level := by
  refine ⟨hd.pos st hst, ?_⟩
  cases hfile : d.persister.fileBacked with
  | false =>
    have hlogs : ((blank peers me d now).restoreState st).logs = st.logs := by
      simp [restoreState, blank, hfile, LogStorage.keepsLogExternally]
    rw [hlogs]
    exact hd.blob st hst hfile
  | true =>
    have hlogs : ((blank peers me d now).restoreState st).logs =
        (SegmentLogStorage.rebuild d.segFile).replay st.snapshotTerm st.snapshotIndex := by
      simp [restoreState, blank, hfile, LogStorage.keepsLogExternally, LogStorage.replay]
    obtain ⟨first, hfirst, hnum⟩ := hd.file st hst hfile
    rw [hlogs]
    refine ⟨List.cons_ne_nil _ _, rfl, ?_⟩
    have hidx : ((blank peers me d now).restoreState st).snapshotIndex = st.snapshotIndex := rfl
    have hopen : (SegmentLogStorage.rebuild d.segFile).entries = d.segFile := rfl
    simp only [not_le]
    rw [hopen, hnum.filter_gt]
    convert hnum.drop _ using 1
    omega

/-- The members that `make` sets at last have no part in the log. -/
theorem sameLog_make (peers me : Nat) (d : Disk) (now : Int) :
    SameLog (match d.persister.raftState with
      | some st => (blank peers me d now).readPersist st
      | none => blank peers me d now) (make peers me d now) :=
  ⟨.of_part rfl, rfl, rfl, rfl, rfl⟩

theorem level_make (peers me : Nat) {d : Disk} (now : Int) (hd : d.Whole) :
    (make peers me d now).Level := by
  refine Level.sameLog ?_ (sameLog_make peers me d now)
  cases hst : d.persister.raftState with
  | none => exact ⟨le_refl 0, List.cons_ne_nil _ _, rfl, trivial⟩
  | some st =>
    have h := level_restoreState hd hst peers me now
    dsimp only
    rw [readPersist]
    cases ((blank peers me d now).restoreState st).persister.snapshot with
    | none => exact ⟨h.pos, h.log⟩
    | some b => exact ⟨(h.adoptBlob b).pos, (h.adoptBlob b).log⟩

theorem mirrorOK_make (peers me : Nat) {d : Disk} (now : Int) (hfile : d.persister.fileBacked = true)
    (hd : d.Whole) : (make peers me d now).MirrorOK := by
  have hblank : (blank peers me d now).logStore = .segment (.rebuild d.segFile) := by
    rw [blank, hfile]
    rfl
  have hsound : ∀ first, Numbered LogEntry.index first d.segFile →
      (SegmentLogStorage.rebuild d.segFile).aborted = false := by
    intro first hnum
    simp only [SegmentLogStorage.rebuild, Bool.not_eq_false', decide_eq_true_eq]
    exact hnum.isChain
  refine MirrorOK.sameLog ?_ (sameLog_make peers me d now)
  cases hst : d.persister.raftState with
  | none =>
    have hnil := hd.fresh hst
    refine ⟨⟨le_refl 0, List.cons_ne_nil _ _, rfl, trivial⟩, .rebuild d.segFile, hblank,
      ⟨1, le_refl _, ?_, ?_, ?_⟩, hsound 0 ?_⟩
    all_goals simp [hnil, SegmentLogStorage.rebuild, blank]
  | some st =>
    obtain ⟨first, hfirst, hnum⟩ := hd.file st hst hfile
    have h := level_restoreState hd hst peers me now
    have hlaid : ∀ r : Raft, r.Level → r.logStore = .segment (.rebuild d.segFile) →
        (r.restoreRest st).MirrorOK := by
      intro r hr hs
      refine ⟨⟨hr.pos, hr.log⟩, (SegmentLogStorage.rebuild d.segFile).resetFromLogs r.logs, ?_,
        .reset hr.log (hsound first hnum)⟩
      rw [restoreRest, hs]
      rfl
    dsimp only
    rw [readPersist]
    cases ((blank peers me d now).restoreState st).persister.snapshot with
    | none => exact hlaid _ h hblank
    | some b => exact hlaid _ (h.adoptBlob b) ((adoptBlob_logStore _ b).trans hblank)

end Raft
end ChonKV
