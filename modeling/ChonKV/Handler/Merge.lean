import ChonKV.Durable.Mirror

/-!
The loop of `AppendEntries` over its entries: the log is kept up to the first entry that is new to
it, and the entries from there on follow.
-/

set_option autoImplicit false

namespace ChonKV

open Assoc

/-- The entry lies above the snapshot, and the log ends before it or has another term there. -/
def novel (snapshotIndex : Int) (logs : List LogEntry) (e : LogEntry) : Bool :=
  decide (snapshotIndex < e.index) && (decide (lastIndexOf logs < e.index) ||
    decide ((entryAt snapshotIndex logs e.index).term ≠ e.term))

/-- The entries of the request from the first new one on. -/
def newEntries (snapshotIndex : Int) (logs es : List LogEntry) : List LogEntry :=
  es.dropWhile fun e => !novel snapshotIndex logs e

/-- The log up to the first of `new`, and `new`. -/
def spliced (snapshotIndex : Int) (logs : List LogEntry) : List LogEntry → List LogEntry
  | [] => logs
  | e :: new => logs.take (e.index - snapshotIndex).toNat ++ e :: new

section Loop
variable {si first i : Int} {logs es : List LogEntry} {e : LogEntry} {m : MergeState}

/-- The entry that the log holds at `i`. -/
theorem Leveled.get (h : Leveled si logs) (hi : si ≤ i) (hlast : i ≤ lastIndexOf logs) :
    logs[(i - si).toNat]? = some (entryAt si logs i) ∧ (entryAt si logs i).index = i := by
  have hlen := h.lastIndexOf_eq
  have hlt : (i - si).toNat < logs.length := by omega
  have hget := List.getElem?_eq_getElem hlt
  have hentry : entryAt si logs i = logs[(i - si).toNat] := by
    rw [entryAt, List.getD_eq_getElem?_getD, hget, Option.getD_some]
  have hidx := h.numbered.get hget
  refine ⟨hget.trans (congrArg some hentry.symm), ?_⟩
  rw [hentry]
  omega

theorem mergeEntry_of_not_novel (h : novel si m.logs e = false) : mergeEntry si m e = m := by
  simp only [novel, Bool.and_eq_false_iff, Bool.or_eq_false_iff, decide_eq_false_iff_not,
    not_not] at h
  rw [mergeEntry]
  obtain hle | ⟨hlast, hterm⟩ := h
  · rw [if_pos (.inr (by omega))]
  · split_ifs
    · rfl
    · contradiction
    · rfl
    · omega

/-- A new entry takes its place in the log, and what was behind it goes. -/
theorem mergeEntry_of_novel (hpos : 0 ≤ si) (h : Leveled si m.logs)
    (he : e.index ≤ lastIndexOf m.logs + 1) (hn : novel si m.logs e = true) :
    (mergeEntry si m e).logs = m.logs.take (e.index - si).toNat ++ [e] := by
  simp only [novel, Bool.and_eq_true, Bool.or_eq_true, decide_eq_true_eq] at hn
  have hlen := h.lastIndexOf_eq
  have hskip : ¬ (e.index ≤ 0 ∨ e.index ≤ si) := by omega
  rw [mergeEntry, if_neg hskip]
  by_cases hle : e.index ≤ lastIndexOf m.logs
  · have hterm := hn.2.resolve_left (by omega)
    rw [if_pos hle, if_pos hterm]
  · have htake : m.logs.take (e.index - si).toNat = m.logs := List.take_of_length_le (by omega)
    rw [if_neg hle, htake]

/-- Entries behind the end of the log are appended. -/
theorem foldl_mergeEntry_behind (es : List LogEntry) (hpos : 0 ≤ si) (h : Leveled si m.logs)
    (hes : Numbered LogEntry.index (lastIndexOf m.logs + 1) es) :
    (es.foldl (mergeEntry si) m).logs = m.logs ++ es := by
  induction es generalizing m with
  | nil => simp
  | cons e es ih =>
    have hlen := h.lastIndexOf_eq
    have hpos' := h.length_pos
    have hidx := hes.1
    have hn : novel si m.logs e = true := by simp [novel]; omega
    have hlogs := mergeEntry_of_novel hpos h hes.1.le hn
    have htake : m.logs.take (e.index - si).toNat = m.logs := List.take_of_length_le (by omega)
    rw [htake] at hlogs
    have h' : Leveled si (mergeEntry si m e).logs := hlogs ▸ h.push hidx
    have hlast : lastIndexOf (mergeEntry si m e).logs = lastIndexOf m.logs + 1 := by
      rw [h'.lastIndexOf_eq, hlogs, List.length_append]
      dsimp only [List.length_singleton]
      omega
    rw [List.foldl_cons, ih h' (hlast ▸ hes.2), hlogs, List.append_assoc]
    rfl

/-- The loop keeps the log up to the first new entry, and puts the entries from there on behind it. -/
theorem foldl_mergeEntry_eq (hpos : 0 ≤ si) (h : Leveled si m.logs)
    (hes : Numbered LogEntry.index first es) (hfirst : first ≤ lastIndexOf m.logs + 1) :
    (es.foldl (mergeEntry si) m).logs = spliced si m.logs (newEntries si m.logs es) ∧
      (newEntries si m.logs es = [] → es.foldl (mergeEntry si) m = m) := by
  induction es generalizing first with
  | nil => exact ⟨rfl, fun _ => rfl⟩
  | cons e es ih =>
    have hidx := hes.1
    cases hn : novel si m.logs e with
    | false =>
      have hnext : first + 1 ≤ lastIndexOf m.logs + 1 := by
        have hlen := h.lastIndexOf_eq
        have hlpos := h.length_pos
        simp only [novel, Bool.and_eq_false_iff, Bool.or_eq_false_iff, decide_eq_false_iff_not] at hn
        omega
      have hnew : newEntries si m.logs (e :: es) = newEntries si m.logs es := by
        simp [newEntries, hn]
      rw [List.foldl_cons, mergeEntry_of_not_novel hn, hnew]
      exact ih hes.2 hnext
    | true =>
      have hlogs := mergeEntry_of_novel hpos h (by omega) hn
      have hnew : newEntries si m.logs (e :: es) = e :: es := by simp [newEntries, hn]
      obtain ⟨h', hlast⟩ := h.mergeEntry hpos (e := e) (by omega)
      have hend : lastIndexOf (mergeEntry si m e).logs = e.index := by
        have hlen := h.lastIndexOf_eq
        have hgt : si < e.index := by
          simp only [novel, Bool.and_eq_true, decide_eq_true_eq] at hn
          exact hn.1
        rw [h'.lastIndexOf_eq, hlogs, List.length_append, List.length_take]
        dsimp only [List.length_singleton]
        omega
      have hrest := foldl_mergeEntry_behind es hpos h' (by
        rw [hend, hidx]
        exact hes.2)
      refine ⟨?_, fun hnil => absurd (hnew.symm.trans hnil) (by simp)⟩
      rw [List.foldl_cons, hrest, hlogs, hnew, spliced]
      simp

theorem not_novel (h : novel si logs e = false) (hi : si < e.index) :
    e.index ≤ lastIndexOf logs ∧ (entryAt si logs e.index).term = e.term := by
  simp only [novel, Bool.and_eq_false_iff, Bool.or_eq_false_iff, decide_eq_false_iff_not, not_lt,
    not_not] at h
  exact h.resolve_left (by omega)

/-- Two terms at one index above the snapshot. -/
def Conflicting (snapshotIndex : Int) (logs : List LogEntry) (e : LogEntry) : Prop :=
  snapshotIndex < e.index ∧ e.index ≤ lastIndexOf logs ∧
    (entryAt snapshotIndex logs e.index).term ≠ e.term

instance (snapshotIndex : Int) (logs : List LogEntry) (e : LogEntry) :
    Decidable (Conflicting snapshotIndex logs e) := by
  unfold Conflicting
  infer_instance

theorem Conflicting.novel (h : Conflicting si logs e) : novel si logs e = true := by
  simp [ChonKV.novel, h.1, h.2.2]

/-- The entries before the first new one are in the log; it follows them, and is itself in conflict
unless it follows the log. -/
theorem newEntries_cases (h : Leveled si logs) (hes : Numbered LogEntry.index first es)
    (hfirst : first ≤ lastIndexOf logs + 1) :
    (newEntries si logs es = [] ∧ ∀ x ∈ es, ChonKV.novel si logs x = false) ∨
    ∃ old e new, es = old ++ e :: new ∧ newEntries si logs es = e :: new ∧
      (∀ x ∈ old, ChonKV.novel si logs x = false) ∧ si < e.index ∧
      (e.index = lastIndexOf logs + 1 ∨ Conflicting si logs e) := by
  induction es generalizing first with
  | nil => exact .inl ⟨rfl, by simp⟩
  | cons e es ih =>
    have hidx := hes.1
    cases hn : ChonKV.novel si logs e with
    | false =>
      have hnew : newEntries si logs (e :: es) = newEntries si logs es := by simp [newEntries, hn]
      have hnext : first + 1 ≤ lastIndexOf logs + 1 := by
        have hlen := h.lastIndexOf_eq
        have hpos := h.length_pos
        by_cases hi : si < e.index
        · have hheld := (not_novel hn hi).1
          omega
        · omega
      rw [hnew]
      obtain ⟨hnil, hall⟩ | ⟨old, d, new, heq, hnil, hold, hd⟩ := ih hes.2 hnext
      · exact .inl ⟨hnil, List.forall_mem_cons.mpr ⟨hn, hall⟩⟩
      · refine .inr ⟨e :: old, d, new, ?_, hnil, List.forall_mem_cons.mpr ⟨hn, hold⟩, hd⟩
        rw [heq, List.cons_append]
    | true =>
      refine .inr ⟨[], e, es, rfl, by simp [newEntries, hn], by simp, ?_⟩
      simp only [ChonKV.novel, Bool.and_eq_true, Bool.or_eq_true, decide_eq_true_eq] at hn
      refine ⟨hn.1, ?_⟩
      by_cases hlast : e.index ≤ lastIndexOf logs
      · exact .inr ⟨hn.1, hlast, hn.2.resolve_left (by omega)⟩
      · exact .inl (by omega)

end Loop

/-- What the entries behind `prev` make of a log. -/
structure Merges (snapshotIndex prev : Int) (logs es logs' : List LogEntry) : Prop where
  leveled : Leveled snapshotIndex logs'
  /-- Every entry is there, by its term. -/
  holds : ∀ e ∈ es, snapshotIndex < e.index → e.index ≤ lastIndexOf logs' ∧
    (entryAt snapshotIndex logs' e.index).term = e.term
  reaches : prev + es.length ≤ lastIndexOf logs'
  below : ∀ i, snapshotIndex ≤ i → i ≤ prev →
    entryAt snapshotIndex logs' i = entryAt snapshotIndex logs i
  /-- Without a conflict nothing goes. -/
  kept : (∀ e ∈ es, ¬ Conflicting snapshotIndex logs e) → ∀ i, snapshotIndex ≤ i →
    i ≤ lastIndexOf logs →
      i ≤ lastIndexOf logs' ∧ entryAt snapshotIndex logs' i = entryAt snapshotIndex logs i
  /-- With a conflict the log ends with the last entry. -/
  dropped : (∃ e ∈ es, Conflicting snapshotIndex logs e) → lastIndexOf logs' = prev + es.length

section Merging
variable {si prev i : Int} {logs es new : List LogEntry} {e : LogEntry}

theorem entryAt_take (hi : i < e.index) (hsi : si < e.index)
    (he : e.index ≤ lastIndexOf logs + 1) (h : Leveled si logs) :
    entryAt si (logs.take (e.index - si).toNat ++ e :: new) i = entryAt si logs i := by
  have hlen := h.lastIndexOf_eq
  have hlt : (i - si).toNat < (logs.take (e.index - si).toNat).length := by
    rw [List.length_take]
    omega
  rw [entryAt, entryAt, List.getD_eq_getElem?_getD, List.getD_eq_getElem?_getD,
    List.getElem?_append_left hlt, List.getElem?_take_of_lt (by omega)]

/-- The entries that are put behind the log stand at their indexes. -/
theorem entryAt_behind (hsi : si < e.index) (he : e.index ≤ lastIndexOf logs + 1)
    (h : Leveled si logs) (hnew : Numbered LogEntry.index e.index (e :: new)) {x : LogEntry}
    (hx : x ∈ e :: new) :
    entryAt si (logs.take (e.index - si).toNat ++ e :: new) x.index = x := by
  obtain ⟨k, hk⟩ := List.mem_iff_getElem?.mp hx
  have hidx := hnew.get hk
  have hlen := h.lastIndexOf_eq
  have htake : (logs.take (e.index - si).toNat).length = (e.index - si).toNat := by
    rw [List.length_take]
    omega
  have hpos : (x.index - si).toNat = (logs.take (e.index - si).toNat).length + k := by omega
  rw [entryAt, List.getD_eq_getElem?_getD, hpos, List.getElem?_append_right (Nat.le_add_right _ _),
    Nat.add_sub_cancel_left, hk, Option.getD_some]

theorem merges (hpos : 0 ≤ si) (h : Leveled si logs) (hes : Numbered LogEntry.index (prev+1) es)
    (hprev : prev ≤ lastIndexOf logs) (store : LogStorage) :
    Merges si prev logs es
      (es.foldl (mergeEntry si) { logs := logs, logStore := store }).logs := by
  have hfirst : prev + 1 ≤ lastIndexOf logs + 1 := by omega
  have hlevel : Leveled si (es.foldl (mergeEntry si) { logs := logs, logStore := store }).logs :=
    h.foldl_mergeEntry hpos hes hfirst
  have hlen := h.lastIndexOf_eq
  have hlpos := h.length_pos
  have hlogs : (es.foldl (mergeEntry si) { logs := logs, logStore := store }).logs =
      spliced si logs (newEntries si logs es) := (foldl_mergeEntry_eq hpos h hes hfirst).1
  rw [hlogs] at hlevel ⊢
  obtain ⟨hnil, hall⟩ | ⟨old, e, new, rfl, hnew, hold, hsi, hend⟩ := newEntries_cases h hes hfirst
  · rw [hnil, spliced]
    have hheld : ∀ x ∈ es, si < x.index → x.index ≤ lastIndexOf logs ∧
        (entryAt si logs x.index).term = x.term := fun x hx => not_novel (hall x hx)
    refine ⟨h, hheld, ?_, fun _ _ _ => rfl, fun _ _ _ hi => ⟨hi, rfl⟩, ?_⟩
    · obtain rfl | ⟨front, x, rfl⟩ := List.eq_nil_or_concat' es
      · simpa using hprev
      · have hidx := hes.getLast (a := x) (by simp)
        have hx := hheld x (by simp)
        by_cases hi : si < x.index
        · have hle := (hx hi).1
          omega
        · omega
    · rintro ⟨x, hx, hc⟩
      exact absurd (hall x hx) (by simp [hc.novel])
  · rw [hnew, spliced] at hlevel ⊢
    obtain ⟨-, htail⟩ := numbered_append.mp hes
    have hidx := htail.1
    have hle : e.index ≤ lastIndexOf logs + 1 := by
      obtain hend | hc := hend
      · exact hend.le
      · exact hc.2.1.trans (by omega)
    have hlast : lastIndexOf (logs.take (e.index - si).toNat ++ e :: new) =
        prev + (old ++ e :: new).length := by
      rw [hlevel.lastIndexOf_eq]
      simp only [List.length_append, List.length_take, List.length_cons]
      omega
    have hsame : ∀ i, si ≤ i → i < e.index →
        entryAt si (logs.take (e.index - si).toNat ++ e :: new) i = entryAt si logs i :=
      fun i _ hlt => entryAt_take hlt hsi hle h
    refine ⟨hlevel, fun x hx hxi => ?_, hlast.ge, fun i hi hip => hsame i hi (by omega), ?_,
      fun _ => hlast⟩
    · obtain hx | hx := List.mem_append.mp hx
      · obtain ⟨k, hk⟩ := List.mem_iff_getElem?.mp hx
        have hxk := (numbered_append.mp hes).1.get hk
        have hklt := (List.getElem?_eq_some_iff.mp hk).1
        rw [hlast, hsame x.index hxi.le (by omega), List.length_append]
        exact ⟨by omega, (not_novel (hold x hx) hxi).2⟩
      · rw [entryAt_behind hsi hle h (hidx ▸ htail) hx, hlast]
        obtain ⟨k, hk⟩ := List.mem_iff_getElem?.mp hx
        have hxk := htail.get hk
        have hklt := (List.getElem?_eq_some_iff.mp hk).1
        rw [List.length_append]
        exact ⟨by omega, rfl⟩
    · intro hno i hi hil
      have hbehind := hend.resolve_right (hno e (by simp))
      have hlen' : ((old ++ e :: new).length : Int) = old.length + (new.length + 1) := by simp
      exact ⟨by omega, hsame i hi (by omega)⟩

end Merging

/-- Entries in conflict above `c` only leave the log up to `c` in place. -/
theorem Merges.le_last {si prev c : Int} {logs es logs' : List LogEntry}
    (h : Merges si prev logs es logs') (hl : Leveled si logs)
    (hes : Numbered LogEntry.index (prev+1) es)
    (hsafe : ∀ e ∈ es, Conflicting si logs e → c < e.index) (hc : c ≤ lastIndexOf logs) :
    c ≤ lastIndexOf logs' := by
  have hreach := h.reaches
  by_cases hany : ∃ e ∈ es, Conflicting si logs e
  · obtain ⟨e, he, hconf⟩ := hany
    have hgt := hsafe e he hconf
    obtain ⟨k, hk⟩ := List.mem_iff_getElem?.mp he
    have hidx := hes.get hk
    have hlt := (List.getElem?_eq_some_iff.mp hk).1
    omega
  · have hpos := hl.length_pos
    have hend := hl.lastIndexOf_eq
    have hkept := (h.kept (fun e he hconf => hany ⟨e, he, hconf⟩) (lastIndexOf logs) (by omega) le_rfl).1
    omega

/-- Entries that are all in the log leave it alone. -/
theorem Merges.again {si prev : Int} {logs es logs' : List LogEntry} (h : Merges si prev logs es logs')
    (hpos : 0 ≤ si) (hes : Numbered LogEntry.index (prev+1) es) (store : LogStorage) :
    es.foldl (mergeEntry si) { logs := logs', logStore := store } =
      { logs := logs', logStore := store } := by
  have hreach := h.reaches
  have hfirst : prev + 1 ≤ lastIndexOf logs' + 1 := by omega
  refine (foldl_mergeEntry_eq hpos h.leveled hes hfirst).2 ?_
  obtain ⟨hnil, -⟩ | ⟨old, e, new, rfl, -, -, hsi, hend⟩ := newEntries_cases h.leveled hes hfirst
  · exact hnil
  · obtain ⟨hheld, hterm⟩ := h.holds e (by simp) hsi
    obtain hbehind | hc := hend
    · omega
    · exact absurd hterm hc.2.2

namespace Raft

variable {r : Raft} {args : AppendEntriesArgs}

/-- The members that `mergeLocked` does not touch, and what it makes of the log. -/
theorem mergeLocked_parts (r : Raft) (args : AppendEntriesArgs) :
    (r.mergeLocked args).logs =
      (args.entries.foldl (mergeEntry r.snapshotIndex)
        { logs := r.logs, logStore := r.logStore }).logs ∧
    (r.mergeLocked args).snapshotIndex = r.snapshotIndex ∧
    (r.mergeLocked args).commitIndex = r.commitIndex ∧
    (r.mergeLocked args).currentTerm = r.currentTerm ∧ (r.mergeLocked args).state = r.state ∧
    (r.mergeLocked args).leaderId = r.leaderId ∧ (r.mergeLocked args).killed = r.killed := by
  rw [mergeLocked]
  dsimp only
  split_ifs
  · rw [persistLocked]
    split_ifs <;> exact ⟨rfl, rfl, rfl, rfl, rfl, rfl, rfl⟩
  · exact ⟨rfl, rfl, rfl, rfl, rfl, rfl, rfl⟩

theorem mergeLocked_eq_self (h : args.entries.foldl (mergeEntry r.snapshotIndex)
    { logs := r.logs, logStore := r.logStore } = { logs := r.logs, logStore := r.logStore }) :
    r.mergeLocked args = r := by
  rw [mergeLocked, h]
  simp

theorem followCommit_eq (r : Raft) (args : AppendEntriesArgs) :
    r.followCommit args = { r with
      commitIndex := max r.commitIndex
        (min args.leaderCommit (args.prevLogIndex + args.entries.length)) } := by
  rw [followCommit]
  split_ifs with h
  · rw [max_eq_right h.2.le]
  · have hmax : max r.commitIndex
        (min args.leaderCommit (args.prevLogIndex + args.entries.length)) = r.commitIndex := by
      omega
    rw [hmax]

/-- The consistency check of `AppendEntries`. -/
def Accepts (r : Raft) (args : AppendEntriesArgs) : Prop :=
  args.prevLogIndex ≤ r.lastLogIndexLocked ∧
    (r.snapshotIndex ≤ args.prevLogIndex → (r.logAt args.prevLogIndex).term = args.prevLogTerm)

theorem appendEntriesLocked_of_accepts (h : r.Accepts args) (reply : AppendEntriesReply) :
    r.appendEntriesLocked args reply =
      ((r.mergeLocked args).followCommit args, { reply with success := true }) := by
  have hconflict : ¬ (r.snapshotIndex ≤ args.prevLogIndex ∧
      (r.logAt args.prevLogIndex).term ≠ args.prevLogTerm) := fun hc => hc.2 (h.2 hc.1)
  rw [appendEntriesLocked, if_neg (not_lt.mpr h.1), if_neg hconflict]

theorem appendEntriesLocked_of_not_accepts (h : ¬ r.Accepts args) (reply : AppendEntriesReply) :
    (r.appendEntriesLocked args reply).1 = r ∧
      (r.appendEntriesLocked args reply).2.success = reply.success := by
  rw [appendEntriesLocked]
  split_ifs with hshort hterm
  · exact ⟨rfl, rfl⟩
  · exact ⟨rfl, rfl⟩
  · exact absurd ⟨not_lt.mp hshort, fun hle => by_contra fun hne => hterm ⟨hle, hne⟩⟩ h

/-- A follower that is asked in its own term does not wait. -/
theorem appendEntries_follower (hlive : r.killed = false) (hstate : r.state = .kFollower)
    (hterm : args.term = r.currentTerm) (now : Int) :
    r.appendEntries args now = (r.heardLeader args now).appendEntriesLocked args
      { term := r.currentTerm, readCtx := args.readCtx } := by
  simp [appendEntries, heardLeader, hlive, hstate, hterm]

/-- A follower that has the entries of a request, and its commit index, only notes its leader. -/
theorem appendEntries_again {si prev : Int} {logs : List LogEntry} (hlive : r.killed = false)
    (hstate : r.state = .kFollower) (hterm : args.term = r.currentTerm)
    (hleader : r.leaderId = args.leaderId) (hpos : 0 ≤ r.snapshotIndex) (hargs : args.Contiguous)
    (hmerge : Merges si prev logs args.entries r.logs) (hsi : r.snapshotIndex = si)
    (hprev : args.prevLogIndex = prev) (hacc : r.Accepts args)
    (hcommit : min args.leaderCommit (args.prevLogIndex + args.entries.length) ≤ r.commitIndex)
    (later : Int) :
    r.appendEntries args later = ({ r with lastHeartbeat := later },
      { term := r.currentTerm, readCtx := args.readCtx, success := true }) := by
  subst hsi hprev
  have hheard : r.heardLeader args later = { r with lastHeartbeat := later } := by
    rw [heardLeader, ← hleader]
  have hacc' : Accepts { r with lastHeartbeat := later } args := hacc
  have hsame : mergeLocked { r with lastHeartbeat := later } args =
      { r with lastHeartbeat := later } :=
    mergeLocked_eq_self (hmerge.again hpos hargs r.logStore)
  rw [appendEntries_follower hlive hstate hterm, hheard, appendEntriesLocked_of_accepts hacc', hsame,
    followCommit_eq]
  dsimp only
  rw [max_eq_left hcommit]

theorem appendEntries_merges (r : Raft) (args : AppendEntriesArgs) (now : Int) (hlevel : r.Level)
    (hstate : r.state = .kFollower) (hcommit : r.commitIndex ≤ r.lastLogIndexLocked)
    (hterm : args.term = r.currentTerm) (hargs : args.Contiguous)
    (hsafe : ∀ e ∈ args.entries, Conflicting r.snapshotIndex r.logs e → r.commitIndex < e.index) :
    let res := r.appendEntries args now
    (res.2.success = true →
      Merges r.snapshotIndex args.prevLogIndex r.logs args.entries res.1.logs ∧
      res.1.snapshotIndex = r.snapshotIndex ∧
      res.1.commitIndex =
        max r.commitIndex (min args.leaderCommit (args.prevLogIndex + args.entries.length)) ∧
      res.1.commitIndex ≤ res.1.lastLogIndexLocked ∧
      ∀ later, res.1.appendEntries args later = ({ res.1 with lastHeartbeat := later }, res.2)) ∧
    (res.2.success = false → res.1.logs = r.logs ∧ res.1.commitIndex = r.commitIndex) := by
  intro res
  by_cases hkilled : r.killed = true
  · have hres : res = (r, { term := r.currentTerm, readCtx := args.readCtx }) := if_pos (.inl hkilled)
    rw [hres]
    exact ⟨Bool.noConfusion, fun _ => ⟨rfl, rfl⟩⟩
  have hlive : r.killed = false := by simpa using hkilled
  set h := r.heardLeader args now with hh
  have hres : res = h.appendEntriesLocked args { term := r.currentTerm, readCtx := args.readCtx } :=
    appendEntries_follower hlive hstate hterm now
  by_cases hacc : h.Accepts args
  · rw [appendEntriesLocked_of_accepts hacc, followCommit_eq] at hres
    obtain ⟨hlogs, hsi, hci, hct, hst, hleader, hkill⟩ := mergeLocked_parts h args
    have hmerge : Merges r.snapshotIndex args.prevLogIndex r.logs args.entries
        (h.mergeLocked args).logs := hlogs ▸ merges hlevel.pos hlevel.log hargs hacc.1 r.logStore
    have hreach := hmerge.reaches
    have hlast : (h.mergeLocked args).lastLogIndexLocked = lastIndexOf (h.mergeLocked args).logs := rfl
    have hle : r.commitIndex ≤ (h.mergeLocked args).lastLogIndexLocked :=
      hmerge.le_last hlevel.log hargs hsafe hcommit
    rw [hres]
    refine ⟨fun _ => ⟨hmerge, hsi, by rw [hci]; rfl, ?_, fun later => ?_⟩, Bool.noConfusion⟩
    · show max (h.mergeLocked args).commitIndex _ ≤ lastIndexOf (h.mergeLocked args).logs
      rw [hci]
      have hh' : h.commitIndex = r.commitIndex := rfl
      omega
    · have haccepts : (h.mergeLocked args).Accepts args := by
        refine ⟨by omega, fun hle => ?_⟩
        have hbelow := hmerge.below args.prevLogIndex (hsi ▸ hle) le_rfl
        rw [logAt, hsi]
        exact (congrArg LogEntry.term hbelow).trans (hacc.2 (hsi ▸ hle))
      set q : Raft := { h.mergeLocked args with
        commitIndex := max (h.mergeLocked args).commitIndex
          (min args.leaderCommit (args.prevLogIndex + args.entries.length)) } with hq
      have hagain := appendEntries_again (r := q)
        (hkill.trans hlive) (hst.trans hstate) (hterm.trans hct.symm) hleader (hsi ▸ hlevel.pos)
        hargs hmerge hsi rfl haccepts (le_max_right _ _) later
      rw [hagain]
      dsimp only
      rw [hct]
      rfl
  · obtain ⟨hsame, hfail⟩ := appendEntriesLocked_of_not_accepts hacc
      { term := r.currentTerm, readCtx := args.readCtx }
    rw [hres, hsame, hfail]
    exact ⟨Bool.noConfusion, fun _ => ⟨rfl, rfl⟩⟩

/-- A follower in term 3 with a snapshot at 2. -/
def compacted : Raft where
  peers := 3
  me := 0
  currentTerm := 3
  snapshotIndex := 2
  snapshotTerm := 1
  logs := [sentinel 1 2, { term := 1, index := 3 }, { term := 2, index := 4 }, { term := 2, index := 5 }]
  commitIndex := 3
  isMember := List.replicate 3 .kVoter

/-- Entries on both sides of its snapshot, the last one in conflict. -/
def straddling : AppendEntriesArgs where
  term := 3
  leaderId := 1
  prevLogIndex := 1
  prevLogTerm := 1
  entries := [{ term := 1, index := 2 }, { term := 1, index := 3 }, { term := 3, index := 4 }]
  leaderCommit := 9
  readCtx := 0

theorem appendEntries_merges_straddling :
    let res := compacted.appendEntries straddling 7
    res.1.commitIndex = 4 ∧ lastIndexOf res.1.logs = 4 ∧
      ∀ later, res.1.appendEntries straddling later = ({ res.1 with lastHeartbeat := later }, res.2) := by
  have hlevel : compacted.Level := ⟨by decide, by simp [compacted], rfl, rfl, rfl, rfl, trivial⟩
  have hsafe : ∀ e ∈ straddling.entries, Conflicting compacted.snapshotIndex compacted.logs e →
      compacted.commitIndex < e.index := by decide +kernel
  obtain ⟨hmerge, -, hcommit, -, hagain⟩ := (appendEntries_merges compacted straddling 7 hlevel rfl
    (by decide) rfl ⟨rfl, rfl, rfl, trivial⟩ hsafe).1 (by decide +kernel)
  have hlast := hmerge.dropped ⟨{ term := 3, index := 4 }, by decide, by decide, by decide, by decide⟩
  exact ⟨hcommit.trans (by decide), hlast.trans (by decide), hagain⟩

end Raft
end ChonKV
