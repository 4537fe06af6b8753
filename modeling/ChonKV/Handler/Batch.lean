import ChonKV.Durable.Transfers

/-!
What one turn of `ReplicateLoop` sends: a batch is a slice of the leader's log, within the two limits.
-/

set_option autoImplicit false

namespace ChonKV

/-- The command bytes of a batch. -/
def commandBytes (es : List LogEntry) : Nat := (es.map fun e => e.command.length).sum

namespace Raft

/-- The indexes at which the loop of a batch reads `logs_`. -/
def batchReads (r : Raft) (first : Int) : Nat → Int → Nat → List Int
  | 0, _, _ => []
  | k+1, i, bytes =>
    if i ≤ r.snapshotIndex then r.batchReads first k (i+1) bytes
    else
      let size := (r.logAt i).command.length
      i :: if first < i ∧ kMaxBytesPerRpc < bytes + size then []
        else r.batchReads first k (i+1) (bytes + size)

variable {r : Raft} {s : Nat} {first i : Int} {k bytes : Nat}

theorem mem_batchReads {j : Int} (h : j ∈ r.batchReads first k i bytes) :
    i ≤ j ∧ j < i + k ∧ r.snapshotIndex < j := by
  induction k generalizing i bytes with
  | zero => cases h
  | succ k ih =>
    rw [batchReads] at h
    dsimp only at h
    split_ifs at h with hsnap
    · obtain ⟨hlo, hhi, hj⟩ := ih h
      omega
    · rw [List.mem_singleton.mp h]
      omega
    · cases h with
      | head => omega
      | tail _ h =>
        obtain ⟨hlo, hhi, hj⟩ := ih h
        omega

/-- A batch that starts after the snapshot is a slice of the log. -/
theorem batchEntries_slice (hi : r.snapshotIndex < i) :
    ∃ n ≤ k, (r.batchEntries first k i bytes).1 = (List.range n).map fun j : Nat => r.logAt (i + j) := by
  induction k generalizing i bytes with
  | zero => exact ⟨0, le_rfl, rfl⟩
  | succ k ih =>
    rw [batchEntries, if_neg (by omega)]
    dsimp only
    split_ifs
    · exact ⟨0, Nat.zero_le _, rfl⟩
    · obtain ⟨n, hn, heq⟩ := @ih (i + 1) (bytes + (r.logAt i).command.length) (by omega)
      refine ⟨n + 1, Nat.succ_le_succ hn, ?_⟩
      rw [heq, List.range_succ_eq_map]
      simp [Function.comp_def, add_comm, add_left_comm]

/-- After its first entry, a batch stays within the byte limit. -/
theorem batchEntries_rest (hi : r.snapshotIndex < i) (hfirst : first < i) :
    (r.batchEntries first k i bytes).1 = [] ∨
      bytes + commandBytes (r.batchEntries first k i bytes).1 ≤ kMaxBytesPerRpc := by
  induction k generalizing i bytes with
  | zero => exact .inl rfl
  | succ k ih =>
    rw [batchEntries, if_neg (by omega)]
    dsimp only
    split_ifs with hcut
    · exact .inl rfl
    · have hfits : bytes + (r.logAt i).command.length ≤ kMaxBytesPerRpc := by omega
      obtain hnil | hle := @ih (i + 1) (bytes + (r.logAt i).command.length) (by omega) (by omega)
      · right
        rw [hnil]
        simpa [commandBytes] using hfits
      · right
        simpa [commandBytes, add_assoc] using hle

theorem batchEntries_bytes (hi : r.snapshotIndex < first) :
    (r.batchEntries first k first 0).1.length ≤ 1 ∨
      commandBytes (r.batchEntries first k first 0).1 ≤ kMaxBytesPerRpc := by
  cases k with
  | zero => exact .inl (Nat.zero_le _)
  | succ k =>
    rw [batchEntries, if_neg (by omega)]
    dsimp only
    rw [if_neg (fun h => absurd h.1 (lt_irrefl _))]
    dsimp only
    have hrest : (r.batchEntries first k (first + 1) (0 + (r.logAt first).command.length)).1 = [] ∨ _ :=
      batchEntries_rest (by omega) (by omega)
    obtain hnil | hle := hrest
    · left
      rw [hnil]
      rfl
    · right
      simpa [commandBytes] using hle

/-- However long its first entry is, a batch holds it. -/
theorem batchEntries_ne_nil (hi : r.snapshotIndex < first) (hk : 0 < k) :
    (r.batchEntries first k first 0).1 ≠ [] := by
  obtain ⟨k, rfl⟩ := Nat.exists_eq_succ_of_ne_zero hk.ne'
  rw [batchEntries, if_neg (by omega)]
  dsimp only
  rw [if_neg (fun h => absurd h.1 (lt_irrefl _))]
  exact List.cons_ne_nil _ _

/-- The cursors of `s` lie in the log. -/
structure Capped (r : Raft) (s : Nat) : Prop where
  next : s < r.nextIndex.length
  matched : s < r.matchIndex.length
  match_lo : 0 ≤ r.matchIndex.getD s 0
  match_hi : r.matchIndex.getD s 0 ≤ r.lastLogIndexLocked
  next_lo : 1 ≤ r.nextIndex.getD s 0
  next_hi : r.nextIndex.getD s 0 ≤ r.lastLogIndexLocked + 1

/-- A request carries a slice of the log of `r`. `n` counts the indexes that the loop goes over. -/
structure Slice (r : Raft) (args : AppendEntriesArgs) : Prop where
  term : args.term = r.currentTerm
  prev_lo : 0 ≤ args.prevLogIndex
  prevTerm : r.snapshotIndex ≤ args.prevLogIndex →
    r.inLogs args.prevLogIndex ∧ args.prevLogTerm = (r.logAt args.prevLogIndex).term
  entries : args.entries =
    (List.range args.entries.length).map fun k : Nat => r.logAt (args.prevLogIndex + 1 + k)
  last : args.prevLogIndex + args.entries.length ≤ r.lastLogIndexLocked
  reads : ∃ n : Nat,
    args.entries = (r.batchEntries (args.prevLogIndex + 1) n (args.prevLogIndex + 1) 0).1 ∧
      ∀ j ∈ r.batchReads (args.prevLogIndex + 1) n (args.prevLogIndex + 1) 0, r.inLogs j
  count : (args.entries.length : Int) ≤ kMaxEntriesPerRpc
  bytes : args.entries.length ≤ 1 ∨ commandBytes args.entries ≤ kMaxBytesPerRpc

theorem Level.inLogs_of_le (h : r.Level) (hlo : r.snapshotIndex ≤ i) (hhi : i ≤ r.lastLogIndexLocked) :
    r.inLogs i := by
  have hlen := h.log.lastIndexOf_eq
  rw [lastLogIndexLocked] at hhi
  exact ⟨hlo, by omega⟩

/-- A request that starts at `next`, with what the loop gathers from there on. -/
theorem slice_of_batch (h : r.Level) {args : AppendEntriesArgs} {next : Int} {n : Nat} (hlo : 1 ≤ next)
    (hhi : next ≤ r.lastLogIndexLocked + 1) (hterm : args.term = r.currentTerm)
    (hprev : args.prevLogIndex = next - 1)
    (hprevTerm : args.prevLogTerm =
      if r.inLogs (next - 1) then (r.logAt (next - 1)).term else r.snapshotTerm)
    (hentries : args.entries = (r.batchEntries next n next 0).1)
    (hn : n ≠ 0 → r.snapshotIndex < next ∧ next + n ≤ r.lastLogIndexLocked + 1 ∧
      (n : Int) ≤ kMaxEntriesPerRpc) : Slice r args := by
  have hstart : args.prevLogIndex + 1 = next := by omega
  have hmap : args.entries = ((List.range args.entries.length).map fun k : Nat => r.logAt (next + k)) ∧
      args.entries.length ≤ n := by
    by_cases hzero : n = 0
    · rw [hentries, hzero]
      exact ⟨rfl, le_rfl⟩
    · have hslice : ∃ m ≤ n, (r.batchEntries next n next 0).1 = _ := batchEntries_slice (hn hzero).1
      obtain ⟨m, hm, heq⟩ := hslice
      rw [hentries, heq, List.length_map, List.length_range]
      exact ⟨rfl, hm⟩
  have hlen : args.prevLogIndex + args.entries.length ≤ r.lastLogIndexLocked ∧
      (args.entries.length : Int) ≤ kMaxEntriesPerRpc := by
    by_cases hzero : n = 0
    · have hnone : args.entries.length = 0 := Nat.le_zero.mp (hzero ▸ hmap.2)
      rw [hnone]
      exact ⟨by omega, by decide⟩
    · obtain ⟨-, hend, hcount⟩ := hn hzero
      omega
  refine ⟨hterm, by omega, fun hsnap => ?_, ?_, hlen.1, ⟨n, ?_, ?_⟩, hlen.2, ?_⟩
  · have hin : r.inLogs (next - 1) := h.inLogs_of_le (by omega) (by omega)
    rw [hprevTerm, if_pos hin, hprev]
    exact ⟨hin, rfl⟩
  · rw [hstart]
    exact hmap.1
  · rw [hstart]
    exact hentries
  · rw [hstart]
    intro j hj
    obtain ⟨hj₁, hj₂, hj₃⟩ := mem_batchReads hj
    have hzero : n ≠ 0 := by omega
    exact h.inLogs_of_le hj₃.le (by have := (hn hzero).2.1; omega)
  · by_cases hzero : n = 0
    · left
      rw [hentries, hzero]
      exact Nat.zero_le _
    · rw [hentries]
      exact batchEntries_bytes (hn hzero).1

theorem batch_congr {r' : Raft} (hlogs : r'.logs = r.logs) (hsnap : r'.snapshotIndex = r.snapshotIndex) :
    r'.batchEntries first k i bytes = r.batchEntries first k i bytes ∧
      r'.batchReads first k i bytes = r.batchReads first k i bytes := by
  have hat : ∀ j, r'.logAt j = r.logAt j := fun j => by rw [logAt, logAt, hlogs, hsnap]
  induction k generalizing i bytes with
  | zero => exact ⟨rfl, rfl⟩
  | succ k ih =>
    rw [batchEntries, batchEntries, batchReads, batchReads, hsnap, hat]
    simp only [ih, and_self]

/-- What a batch is depends on the log and the term alone. -/
theorem Slice.congr {r' : Raft} {args : AppendEntriesArgs} (h : Slice r' args) (hlogs : r'.logs = r.logs)
    (hsnap : r'.snapshotIndex = r.snapshotIndex) (hterm : r'.currentTerm = r.currentTerm) :
    Slice r args := by
  have hat : r'.logAt = r.logAt := by
    funext j
    rw [logAt, logAt, hlogs, hsnap]
  have hin : ∀ j, r'.inLogs j ↔ r.inLogs j := fun j => by rw [inLogs, inLogs, hlogs, hsnap]
  have hlast : r'.lastLogIndexLocked = r.lastLogIndexLocked := by
    rw [lastLogIndexLocked, lastLogIndexLocked, hlogs]
  obtain ⟨n, hn, hreads⟩ := h.reads
  refine ⟨h.term.trans hterm, h.prev_lo, fun hle => ?_, ?_, hlast ▸ h.last, ⟨n, ?_, fun j hj => ?_⟩,
    h.count, h.bytes⟩
  · rw [← hin, ← hat]
    exact h.prevTerm (hsnap.trans_le hle)
  · rw [← hat]
    exact h.entries
  · rw [← (batch_congr hlogs hsnap).1]
    exact hn
  · rw [← (batch_congr hlogs hsnap).2] at hj
    exact (hin j).mp (hreads j hj)

/-- `r` becomes `r'` as the cursors of `s` move to `n` and `m`. -/
structure Steered (r : Raft) (s : Nat) (n m : Int) (r' : Raft) : Prop where
  office : r'.officePart = r.officePart
  logs : r'.logs = r.logs
  cursors : r'.cursorPart = (r.nextIndex.set s n, r.matchIndex.set s m)

theorem set_getD (l : List Int) (s : Nat) (d : Int) : l.set s (l.getD s d) = l := by
  by_cases h : s < l.length
  · rw [List.getD_eq_getElem l d h, List.set_getElem_self]
  · rw [List.set_eq_of_length_le (not_lt.mp h)]

/-- No cursor moves. -/
theorem steered_stays {r' : Raft} (ho : r'.officePart = r.officePart) (hl : r'.logs = r.logs)
    (hc : r'.cursorPart = r.cursorPart) :
    Steered r s (r.nextIndex.getD s 0) (r.matchIndex.getD s 0) r' := by
  refine ⟨ho, hl, ?_⟩
  rw [set_getD, set_getD]
  exact hc

/-- What `ReplicateLoop` sends from `next` on, and what it takes for the next index. -/
theorem sendAppend_slice (h : r.Level) {next : Int} (hlo : 1 ≤ next)
    (hhi : next ≤ r.lastLogIndexLocked + 1) (may : Bool) (hmay : may = true → r.snapshotIndex < next)
    (removed : Bool) (cap now : Int) :
    ∃ args, (r.sendAppend s next may removed cap now).2 = .append args ∧ Slice r args ∧
      args.prevLogIndex = next - 1 ∧
      Steered r s (if may then next + args.entries.length else r.nextIndex.getD s 0)
        (r.matchIndex.getD s 0) (r.sendAppend s next may removed cap now).1 ∧
      (may = false → args.entries = []) ∧
      (may = true → removed = false → next ≤ r.lastLogIndexLocked → args.entries ≠ []) := by
  rw [sendAppend]
  cases may with
  | false =>
    exact ⟨_, rfl, slice_of_batch h hlo hhi rfl rfl rfl (n := 0) rfl (absurd rfl), rfl,
      steered_stays rfl rfl rfl, fun _ => rfl, fun hno => absurd hno (by decide)⟩
  | true =>
    have hsnap := hmay rfl
    dsimp only
    rw [if_pos rfl]
    refine ⟨_, rfl, slice_of_batch h hlo hhi rfl rfl rfl rfl fun hn => ⟨hsnap, ?_, ?_⟩, rfl,
      ⟨rfl, rfl, ?_⟩, fun hno => absurd hno (by decide), fun _ hkept hbehind => ?_⟩
    · split_ifs at hn ⊢ <;> omega
    · split_ifs at hn ⊢ <;> omega
    · rw [set_getD]
      rfl
    · refine batchEntries_ne_nil hsnap ?_
      simp only [hkept, Bool.false_eq_true, false_and, ↓reduceIte]
      split_ifs
      · rw [kMaxEntriesPerRpc]
        omega
      · omega

theorem sendFrom_capped (h : r.Level) (hc : Capped r s) (p : Progress) :
    1 ≤ r.sendFrom s p ∧ r.sendFrom s p ≤ r.lastLogIndexLocked + 1 := by
  obtain ⟨-, -, hmlo, hmhi, hnlo, hnhi⟩ := hc
  have hlen := h.log.lastIndexOf_eq
  have hheld := h.log.length_pos
  have hpos := h.pos
  rw [lastLogIndexLocked] at hmhi hnhi ⊢
  rw [sendFrom]
  split_ifs <;> omega

theorem sendFrom_ahead (hc : Capped r s) (p : Progress)
    (h : r.matchIndex.getD s 0 < r.nextIndex.getD s 0) : r.matchIndex.getD s 0 < r.sendFrom s p := by
  have hmlo := hc.match_lo
  rw [sendFrom]
  split_ifs <;> omega

/-- Entries go out from beyond the snapshot only. -/
theorem sendFrom_beyond {p : Progress}
    (h : (p.maySendLog && !(decide (r.sendFrom s p ≤ r.snapshotIndex) && !p.removed)) = true) :
    r.snapshotIndex < r.sendFrom s p := by
  simp only [Bool.and_eq_true, Bool.not_eq_true', Bool.and_eq_false_iff, decide_eq_false_iff_not,
    Bool.not_eq_false', not_le] at h
  obtain ⟨hmay, hlt | hremoved⟩ := h
  · exact hlt
  · rw [sendFrom]
    simp only [hremoved, hmay, true_and, and_true]
    split_ifs <;> omega

/-- What one turn sends to `s`, and where it leaves the next index: behind the last entry, if it sends
one. -/
structure Sends (r : Raft) (s : Nat) (p : Progress) (args : AppendEntriesArgs) (r' : Raft) : Prop where
  slice : Slice r args
  steered : ∃ n, Steered r s n (r.matchIndex.getD s 0) r' ∧ 1 ≤ n ∧ n ≤ r.lastLogIndexLocked + 1 ∧
    (args.entries ≠ [] → n = args.prevLogIndex + 1 + args.entries.length) ∧
    (r.matchIndex.getD s 0 < r.nextIndex.getD s 0 → r.matchIndex.getD s 0 < n)
  filled : p.removed = false → p.maySendLog = true → r.snapshotIndex < r.sendFrom s p →
    r.sendFrom s p ≤ r.lastLogIndexLocked → args.entries ≠ []

/-- The turn that sends has seen the newest heartbeat. -/
def beat (r : Raft) (s : Nat) : Raft :=
  { r with lastHeartbeatSeq := r.lastHeartbeatSeq.set s r.heartbeatSeq }

/-- The snapshot is sent to a follower that it is ahead of. -/
def lagging (r : Raft) (s : Nat) (p : Progress) : Bool :=
  decide (r.sendFrom s p ≤ r.snapshotIndex) && !p.removed

theorem sendTo_eq (r : Raft) (s : Nat) (p : Progress) (now : Int) : r.sendTo s p now =
    if r.lagging s p ∧ ¬ r.snapInFlight.getD s false then (r.beat s).sendSnapshot s now
    else (r.beat s).sendAppend s (r.sendFrom s p) (p.maySendLog && !r.lagging s p) p.removed
      p.removedCap now := rfl

theorem sendTo_sends (h : r.Level) (hc : Capped r s) {p : Progress} {now : Int} {args : AppendEntriesArgs}
    (hsend : (r.sendTo s p now).2 = .append args) : Sends r s p args (r.sendTo s p now).1 := by
  obtain ⟨hlo, hhi⟩ := sendFrom_capped h hc p
  have hbeat : Level (r.beat s) := ⟨h.pos, h.log⟩
  rw [sendTo_eq] at hsend ⊢
  split_ifs at hsend ⊢ with hlag
  · rw [sendSnapshot] at hsend
    cases hsend
  · obtain ⟨args', hargs', hslice, hprev, hsteered, hnone, hsome⟩ := sendAppend_slice (s := s) hbeat hlo
      hhi (p.maySendLog && !r.lagging s p) sendFrom_beyond p.removed p.removedCap now
    rw [hargs'] at hsend
    cases hsend
    have hlast := hslice.last
    refine ⟨hslice.congr rfl rfl rfl, ⟨_, ⟨hsteered.office, hsteered.logs, hsteered.cursors⟩, ?_⟩, ?_⟩
    · cases hmay : p.maySendLog && !r.lagging s p with
      | false => exact ⟨hc.next_lo, hc.next_hi, fun hne => absurd (hnone hmay) hne, id⟩
      | true =>
        have hlast := hslice.last
        have hbeat_last : (r.beat s).lastLogIndexLocked = r.lastLogIndexLocked := rfl
        rw [if_pos rfl]
        refine ⟨by omega, by omega, fun _ => by omega, fun hahead => ?_⟩
        have hfrom := sendFrom_ahead hc p hahead
        omega
    · intro hkept hmay hbeyond hbehind
      refine hsome ?_ hkept hbehind
      simp [hmay, lagging, hbeyond]

/-- A removed node's next index is taken past the snapshot. -/
theorem freezeRemoved_steered (h : r.Level) (hc : Capped r s) (p : Progress) :
    ∃ n, Steered r s n (r.matchIndex.getD s 0) (r.freezeRemoved s p).1 ∧ r.nextIndex.getD s 0 ≤ n ∧
      n ≤ r.lastLogIndexLocked + 1 ∧ (r.freezeRemoved s p).1.snapshotIndex = r.snapshotIndex ∧
      (r.freezeRemoved s p).2.removed = p.removed ∧
      (p.removed = false → r.freezeRemoved s p = (r, p)) := by
  have hlen := h.log.lastIndexOf_eq
  have hheld := h.log.length_pos
  have hpos := h.pos
  have hhi := hc.next_hi
  have hstays : Steered r s (r.nextIndex.getD s 0) (r.matchIndex.getD s 0) r := steered_stays rfl rfl rfl
  rw [freezeRemoved]
  dsimp only
  split_ifs with hkept hsnap
  · refine ⟨_, ⟨rfl, rfl, ?_⟩, hsnap.trans (Int.le_add_one le_rfl), ?_, rfl, rfl,
      fun hno => absurd hkept (by simp [hno])⟩
    · rw [set_getD]
      rfl
    · rw [lastLogIndexLocked]
      omega
  · exact ⟨_, hstays, le_rfl, hhi, rfl, rfl, fun hno => absurd hkept (by simp [hno])⟩
  · exact ⟨_, hstays, le_rfl, hhi, rfl, rfl, fun _ => rfl⟩

theorem Steered.last {r' : Raft} {n m : Int} (h : Steered r s n m r') :
    r'.lastLogIndexLocked = r.lastLogIndexLocked := by
  rw [lastLogIndexLocked, lastLogIndexLocked, h.logs]

theorem Steered.capped {r' : Raft} {n m : Int} (h : Steered r s n m r') (hc : Capped r s) (hm : 0 ≤ m)
    (hm' : m ≤ r.lastLogIndexLocked) (hn : 1 ≤ n) (hn' : n ≤ r.lastLogIndexLocked + 1) :
    Capped r' s ∧ r'.nextIndex.getD s 0 = n ∧ r'.matchIndex.getD s 0 = m := by
  have hcursors := h.cursors
  simp only [cursorPart, Prod.mk.injEq] at hcursors
  have hnext : r'.nextIndex.getD s 0 = n := by
    rw [hcursors.1]
    simp [hc.next]
  have hmatch : r'.matchIndex.getD s 0 = m := by
    rw [hcursors.2]
    simp [hc.matched]
  refine ⟨⟨?_, ?_, ?_, ?_, ?_, ?_⟩, hnext, hmatch⟩
  · rw [hcursors.1, List.length_set]
    exact hc.next
  · rw [hcursors.2, List.length_set]
    exact hc.matched
  all_goals
    first | rw [hmatch] | rw [hnext]
    first | rw [h.last] | skip
    assumption

/-- The cursors of `s` move twice. -/
theorem Steered.trans {r' r'' : Raft} {n m n' m' : Int} (h : Steered r s n m r')
    (h' : Steered r' s n' m' r'') : Steered r s n' m' r'' := by
  have hcursors := h.cursors
  simp only [cursorPart, Prod.mk.injEq] at hcursors
  refine ⟨h'.office.trans h.office, h'.logs.trans h.logs, ?_⟩
  rw [h'.cursors, hcursors.1, hcursors.2, List.set_set, List.set_set]

theorem replicate_sends (h : r.Level) (hc : Capped r s) {now : Int} {args : AppendEntriesArgs}
    (hsend : (r.replicate s now).2 = .append args) :
    Sends r s (r.progress s now) args (r.replicate s now).1 := by
  rw [replicate] at hsend ⊢
  split_ifs at hsend ⊢
  dsimp only at hsend ⊢
  split_ifs at hsend ⊢
  obtain ⟨n₁, hsteered, hge, hle, hsnap, hremoved, hsame⟩ := freezeRemoved_steered h hc (r.progress s now)
  obtain ⟨hc₁, hnext, hmatch⟩ := hsteered.capped hc hc.match_lo hc.match_hi (hc.next_lo.trans hge) hle
  have hlevel : Level (r.freezeRemoved s (r.progress s now)).1 := by
    refine ⟨hsnap ▸ h.pos, ?_⟩
    rw [hsteered.logs, hsnap]
    exact h.log
  have hs := sendTo_sends hlevel hc₁ hsend
  obtain ⟨n, hn, hlo, hhi, hadvance, hahead⟩ := hs.steered
  have hterm := congrArg (fun part => part.2.2.2) hsteered.office
  rw [hmatch, hnext] at hahead
  rw [hmatch] at hn
  rw [hsteered.last] at hhi
  refine ⟨hs.slice.congr hsteered.logs hsnap hterm, ⟨n, hsteered.trans hn, hlo, hhi, hadvance,
    fun hlt => hahead (hlt.trans_le hge)⟩, fun hkept hmay hbeyond hbehind => ?_⟩
  have hfilled := hs.filled
  rw [hsame hkept] at hfilled
  exact hfilled hkept hmay hbeyond hbehind

theorem sendAppend_append (r : Raft) (s : Nat) (next : Int) (may removed : Bool) (cap now : Int) :
    ∃ args, (r.sendAppend s next may removed cap now).2 = .append args := by
  rw [sendAppend]
  cases may <;> exact ⟨_, rfl⟩

/-- A turn that sends no batch. -/
theorem replicate_idle (h : r.Level) (hc : Capped r s) {now : Int}
    (hno : ∀ args, (r.replicate s now).2 ≠ .append args) :
    Abides r (r.replicate s now).1 ∨ ∃ n, Steered r s n (r.matchIndex.getD s 0) (r.replicate s now).1 ∧
      r.nextIndex.getD s 0 ≤ n ∧ n ≤ r.lastLogIndexLocked + 1 := by
  rw [replicate] at hno ⊢
  split_ifs at hno ⊢
  · exact .inl (.refl r)
  · exact .inl (.of_same rfl rfl rfl)
  · exact .inl (abides_convertToFollowerLocked le_rfl)
  · obtain ⟨n, hn, hge, hle, -⟩ := freezeRemoved_steered h hc (r.progress s now)
    refine .inr ⟨n, ?_, hge, hle⟩
    dsimp only at hno ⊢
    split_ifs at hno ⊢
    · exact hn
    · rw [sendTo_eq] at hno ⊢
      split_ifs at hno ⊢
      · rw [sendSnapshot]
        dsimp only
        split_ifs <;> exact ⟨hn.office, hn.logs, hn.cursors⟩
      · obtain ⟨args, hargs⟩ := sendAppend_append (beat (r.freezeRemoved s (r.progress s now)).1 s) s
          _ _ _ _ now
        exact absurd hargs (hno args)

end Raft
end ChonKV
