import ChonKV.Handler.Batch
import ChonKV.Handler.BackOff

/-!
The two cursors of a follower over whole runs: what a leader has sent lies in its log, what it hears lies
in what it has sent, and so the cursors stay in its log.
-/

set_option autoImplicit false

namespace ChonKV

open Function (update)

namespace Raft

/-- What the handler `AppendEntries` answers: it returned early, or it checked the log of `f`. -/
inductive Answers (args : AppendEntriesArgs) : AppendEntriesReply → Prop
  | early {reply : AppendEntriesReply} (hfail : reply.success = false) (hhint : reply.nextIndex = 0) :
    Answers args reply
  | checked (f : Raft) {reply : AppendEntriesReply} (hfail : reply.success = false)
      (hhint : reply.nextIndex = 0) : Answers args (f.appendEntriesLocked args reply).2

theorem answers_appendEntries (f : Raft) (args : AppendEntriesArgs) (now : Int) :
    Answers args (f.appendEntries args now).2 := by
  rw [appendEntries]
  dsimp only
  split_ifs
  · exact .early rfl rfl
  · exact .checked _ rfl rfl
  · exact .checked _ rfl rfl

/-- No rejection asks for more than what comes right after the index it rejects. -/
theorem Answers.hint_le {args : AppendEntriesArgs} {reply : AppendEntriesReply} (h : Answers args reply)
    (hprev : 0 ≤ args.prevLogIndex) (hno : reply.success = false) :
    reply.nextIndex ≤ args.prevLogIndex + 1 := by
  cases h with
  | early _ hhint => omega
  | checked f _ _ =>
    rw [appendEntriesLocked] at hno ⊢
    split_ifs at hno ⊢ with hshort hconflict
    · dsimp only
      omega
    · have hle := f.backOff_le (f.logAt args.prevLogIndex).term
        (args.prevLogIndex - f.snapshotIndex).toNat args.prevLogIndex
      dsimp only
      omega

/-- What was sent in term `t` ends at `last`, and within the log of the leader of that term. -/
structure Reached (r : Raft) (t last : Int) : Prop where
  term : t ≤ r.currentTerm
  candidate : r.state = .kCandidate → t < r.currentTerm
  leader : r.state = .kLeader → t = r.currentTerm → last ≤ r.lastLogIndexLocked

/-- The cursors of `s` lie in the log of the leader, with all that it has sent to `s`. -/
structure Tracked (r : Raft) (s : Nat) (appends : List AppendEntriesArgs)
    (chunks : List InstallSnapshotArgs) : Prop where
  appends : ∀ a ∈ appends, 0 ≤ a.prevLogIndex ∧
    Reached r a.term (a.prevLogIndex + a.entries.length)
  chunks : ∀ c ∈ chunks, 0 ≤ c.lastIncludedIndex ∧ Reached r c.term c.lastIncludedIndex
  capped : r.state = .kLeader → Capped r s

variable {r r' : Raft} {s : Nat} {appends : List AppendEntriesArgs} {chunks : List InstallSnapshotArgs}
  {t last : Int}

theorem Reached.abides (h : Reached r t last) (ha : Abides r r') : Reached r' t last := by
  have hterm := ha.term
  refine ⟨h.term.trans hterm, fun hcand => ?_, fun hl hcur => ?_⟩
  · obtain hlt | ⟨heq, hnot, hstays⟩ := ha.office (by simp [hcand])
    · exact h.term.trans_lt hlt
    · cases hst : r.state with
      | kFollower => exact absurd hst hnot
      | kCandidate => exact (h.candidate hst).trans_le hterm
      | kLeader =>
        have hl := hstays hst
        rw [hcand] at hl
        cases hl
  · have hle := h.term
    obtain hlt | ⟨heq, hnot, -⟩ := ha.office (by simp [hl])
    · omega
    · cases hst : r.state with
      | kFollower => exact absurd hst hnot
      | kCandidate =>
        have hlt := h.candidate hst
        omega
      | kLeader => exact (h.leader hst (hcur.trans heq)).trans (ha.cursors hl hst heq).2

theorem Opened.cursors (h : r.Opened) (hs : s < r.peers) :
    Capped r s ∧ r.matchIndex.getD s 0 < r.nextIndex.getD s 0 := by
  obtain ⟨next, hcursors, hlo, hhi⟩ := h
  simp only [cursorPart, Prod.mk.injEq] at hcursors
  have hnext : r.nextIndex.getD s 0 = next := by
    rw [hcursors.1]
    simp [hs]
  have hmatch : r.matchIndex.getD s 0 = 0 := by
    rw [hcursors.2]
    simp [hs]
  refine ⟨⟨?_, ?_, ?_, ?_, ?_, ?_⟩, ?_⟩
  · rwa [hcursors.1, List.length_replicate]
  · rwa [hcursors.2, List.length_replicate]
  all_goals first | rw [hmatch] | rw [hnext]
  · omega
  · exact hlo
  · exact hhi
  · rw [hnext]
    omega

/-- A leader after a step that does not move its cursors: it was in office, or is new. -/
theorem Abides.leads (ha : Abides r r') (hl : r'.state = .kLeader) :
    (r.state = .kLeader ∧ r'.cursorPart = r.cursorPart ∧ r.lastLogIndexLocked ≤ r'.lastLogIndexLocked) ∨
      r'.Opened := by
  by_cases hsame : r.state = .kLeader ∧ r'.currentTerm = r.currentTerm
  · exact .inl ⟨hsame.1, ha.cursors hl hsame.1 hsame.2⟩
  · exact .inr (ha.opened hl fun hl' heq => hsame ⟨hl', heq⟩)

theorem capped_abides (h : r.state = .kLeader → Capped r s) (ha : Abides r r') (hs : s < r.peers)
    (hl : r'.state = .kLeader) : Capped r' s := by
  obtain ⟨hl₀, hcursors, hle⟩ | hopened := ha.leads hl
  · simp only [cursorPart, Prod.mk.injEq] at hcursors
    obtain ⟨hnext, hmatched, hmlo, hmhi, hnlo, hnhi⟩ := h hl₀
    constructor
    all_goals first | rw [hcursors.1] | rw [hcursors.2]
    all_goals first | assumption | omega
  · exact (hopened.cursors (ha.peers ▸ hs)).1

theorem Tracked.abides (h : Tracked r s appends chunks) (ha : Abides r r') (hs : s < r.peers) :
    Tracked r' s appends chunks :=
  ⟨fun a hmem => (h.appends a hmem).imp_right fun hr => hr.abides ha,
    fun c hmem => (h.chunks c hmem).imp_right fun hr => hr.abides ha, capped_abides h.capped ha hs⟩

theorem Reached.same (h : Reached r t last) (ho : r'.officePart = r.officePart)
    (hlogs : r'.logs = r.logs) : Reached r' t last := by
  simp only [officePart, Prod.mk.injEq] at ho
  obtain ⟨-, -, hstate, hterm⟩ := ho
  have hlast : r'.lastLogIndexLocked = r.lastLogIndexLocked := by
    rw [lastLogIndexLocked, lastLogIndexLocked, hlogs]
  refine ⟨hterm ▸ h.term, ?_, ?_⟩
  · rw [hstate, hterm]
    exact h.candidate
  · rw [hstate, hterm, hlast]
    exact h.leader

/-- The cursors of another follower. -/
theorem Steered.away {i : Nat} {n m : Int} (h : Steered r i n m r') (hi : i ≠ s) :
    r'.nextIndex.getD s 0 = r.nextIndex.getD s 0 ∧ r'.matchIndex.getD s 0 = r.matchIndex.getD s 0 := by
  have hcursors := h.cursors
  simp only [cursorPart, Prod.mk.injEq] at hcursors
  rw [hcursors.1, hcursors.2]
  simp [List.getElem?_set_ne hi]

theorem Steered.other {i : Nat} {n m : Int} (h : Steered r i n m r') (hi : i ≠ s) (hc : Capped r s) :
    Capped r' s := by
  obtain ⟨hnext, hmatch⟩ := h.away hi
  have hcursors := h.cursors
  simp only [cursorPart, Prod.mk.injEq] at hcursors
  obtain ⟨hnext', hmatched, hmlo, hmhi, hnlo, hnhi⟩ := hc
  refine ⟨?_, ?_, ?_, ?_, ?_, ?_⟩
  · rwa [hcursors.1, List.length_set]
  · rwa [hcursors.2, List.length_set]
  all_goals first | rw [hmatch] | rw [hnext]
  all_goals first | rw [h.last] | skip
  all_goals assumption

/-- The cursors of `i` move within the log of the leader. -/
theorem Tracked.steered (h : Tracked r s appends chunks) {i : Nat} {n m : Int} (hs : Steered r i n m r')
    (hin : i = s → r.state = .kLeader → 0 ≤ m ∧ m ≤ r.lastLogIndexLocked ∧ 1 ≤ n ∧
      n ≤ r.lastLogIndexLocked + 1) : Tracked r' s appends chunks := by
  have hstate : r'.state = r.state := congrArg (fun part => part.2.2.1) hs.office
  refine ⟨fun a hmem => (h.appends a hmem).imp_right fun hr => hr.same hs.office hs.logs,
    fun c hmem => (h.chunks c hmem).imp_right fun hr => hr.same hs.office hs.logs, fun hl => ?_⟩
  rw [hstate] at hl
  have hc := h.capped hl
  by_cases hi : i = s
  · subst hi
    obtain ⟨hmlo, hmhi, hnlo, hnhi⟩ := hin rfl hl
    exact (hs.capped hc hmlo hmhi hnlo hnhi).1
  · exact hs.other hi hc

/-- The callback of a request in the term of the leader that sent it. -/
structure Hears (r : Raft) (t : Int) (ok : Bool) (replyTerm : Int) : Prop where
  live : r.killed = false
  ok : ok = true
  reply : replyTerm ≤ r.currentTerm
  term : t = r.currentTerm
  leader : r.state = .kLeader

instance (r : Raft) (t : Int) (ok : Bool) (replyTerm : Int) : Decidable (Hears r t ok replyTerm) :=
  decidable_of_iff (r.killed = false ∧ ok = true ∧ replyTerm ≤ r.currentTerm ∧ t = r.currentTerm ∧
    r.state = .kLeader) ⟨fun ⟨hlive, hok, hreply, ht, hl⟩ => ⟨hlive, hok, hreply, ht, hl⟩,
      fun ⟨hlive, hok, hreply, ht, hl⟩ => ⟨hlive, hok, hreply, ht, hl⟩⟩

/-- Where a rejection leaves the next index. -/
def rejectedNext (r : Raft) (s : Nat) (hint : Int) : Int :=
  if 0 < hint then max hint (r.matchIndex.getD s 0 + 1) else max 1 (r.nextIndex.getD s 0 - 1)

theorem noteAck_parts (r : Raft) (s ctx : Nat) (now : Int) :
    (r.noteAck s ctx now).officePart = r.officePart ∧ (r.noteAck s ctx now).logs = r.logs ∧
      (r.noteAck s ctx now).cursorPart = r.cursorPart := by
  rw [noteAck]
  split_ifs
  · rw [recordReadAckLocked]
    dsimp only
    split_ifs <;> exact ⟨rfl, rfl, rfl⟩
  · exact ⟨rfl, rfl, rfl⟩

theorem appendAccepted_steered (r : Raft) (args : AppendEntriesArgs) (s : Nat) (now : Int) :
    Steered r s (r.nextIndex.getD s 0)
      (max (r.matchIndex.getD s 0) (args.prevLogIndex + args.entries.length))
      (r.appendAccepted args s now).1 := by
  have hcommit : ∀ x : Raft, x.advanceCommitIndexLocked.1.officePart = x.officePart ∧
      x.advanceCommitIndexLocked.1.logs = x.logs ∧
      x.advanceCommitIndexLocked.1.cursorPart = x.cursorPart := by
    intro x
    rw [advanceCommitIndexLocked]
    dsimp only
    split_ifs <;> exact ⟨rfl, rfl, rfl⟩
  rw [appendAccepted]
  obtain ⟨ho, hl, hc⟩ := hcommit _
  refine ⟨ho.trans ?_, hl.trans ?_, hc.trans ?_⟩
  · split_ifs <;> rfl
  · split_ifs <;> rfl
  · rw [set_getD]
    by_cases hlt : r.matchIndex.getD s 0 < args.prevLogIndex + args.entries.length
    · rw [max_eq_right hlt.le]
      simp only [hlt, ↓reduceIte]
      split_ifs <;> rfl
    · rw [max_eq_left (not_lt.mp hlt), set_getD]
      simp only [hlt, ↓reduceIte]
      split_ifs <;> rfl

/-- What a callback of `Raft.AppendEntries` does to the cursors. -/
theorem appendReply_moves (r : Raft) (args : AppendEntriesArgs) (s : Nat) (ok : Bool)
    (reply : AppendEntriesReply) (now : Int) :
    Abides r (r.appendReply args s ok reply now).1 ∨ (Hears r args.term ok reply.term ∧
      ((reply.success = true ∧ Steered r s (r.nextIndex.getD s 0)
          (max (r.matchIndex.getD s 0) (args.prevLogIndex + args.entries.length))
          (r.appendReply args s ok reply now).1) ∨
        (reply.success = false ∧ Steered r s (r.rejectedNext s reply.nextIndex)
          (r.matchIndex.getD s 0) (r.appendReply args s ok reply now).1))) := by
  have hreached := abides_noteReached r s ok
  obtain ⟨ho, hl, hc⟩ := noteAck_parts (r.noteReached s ok) s reply.readCtx now
  have hcursors := hc
  simp only [cursorPart, Prod.mk.injEq] at hcursors
  obtain ⟨hnext, hmatch⟩ := hcursors
  rw [appendReply]
  dsimp only
  split_ifs with hkilled hok hterm hstale hsuccess
  · exact .inl (.refl r)
  · exact .inl (hreached.trans (abides_stepDownTo hterm now))
  · exact .inl hreached
  · rw [not_or, not_not, not_not] at hstale
    refine .inr ⟨⟨by simpa using hkilled, by simpa using hok, not_lt.mp hterm, hstale.1, hstale.2⟩,
      .inl ⟨hsuccess, ?_⟩⟩
    have h := appendAccepted_steered ((r.noteReached s ok).noteAck s reply.readCtx now) args s now
    rw [hnext, hmatch] at h
    refine ⟨h.office.trans ho, h.logs.trans hl, h.cursors.trans ?_⟩
    rw [hnext, hmatch]
    rfl
  · rw [not_or, not_not, not_not] at hstale
    refine .inr ⟨⟨by simpa using hkilled, by simpa using hok, not_lt.mp hterm, hstale.1, hstale.2⟩,
      .inr ⟨by simpa using hsuccess, ho, hl, ?_⟩⟩
    rw [appendRejected, set_getD, cursorPart, rejectedNext]
    dsimp only
    rw [hnext, hmatch]
    rfl
  · exact .inl hreached

/-- What the callback of a chunk does to them, where it does not step down. -/
theorem snapshotReply_moves {r : Raft} (args : InstallSnapshotArgs) (s : Nat) {ok : Bool}
    {reply : InstallSnapshotReply} (now : Int)
    (hterm : ¬ r.currentTerm < if ok then reply.term else 0) :
    Steered r s (r.nextIndex.getD s 0) (r.matchIndex.getD s 0) (r.snapshotReply args s ok reply now) ∨
      (Hears r args.term ok reply.term ∧ args.done = true ∧ reply.okInstall = true ∧
        Steered r s (args.lastIncludedIndex + 1) (max (r.matchIndex.getD s 0) args.lastIncludedIndex)
          (r.snapshotReply args s ok reply now)) := by
  have hreached : (r.noteReached s ok).currentTerm = r.currentTerm := rfl
  rw [snapshotReply]
  by_cases hkilled : r.killed = true
  · rw [if_pos hkilled]
    exact .inl (steered_stays rfl rfl rfl)
  · rw [if_neg hkilled]
    dsimp only
    rw [if_neg (hreached ▸ hterm)]
    split_ifs with hstale hepoch hdone hinstalled
    · exact .inl (steered_stays rfl rfl rfl)
    · exact .inl (steered_stays rfl rfl rfl)
    · rw [not_or, not_not, not_not] at hstale
      obtain ⟨rfl, hinstall⟩ := hinstalled
      exact .inr ⟨⟨by simpa using hkilled, rfl, not_lt.mp hterm, hstale.1, hstale.2⟩, hdone, hinstall,
        rfl, rfl, rfl⟩
    · exact .inl (steered_stays rfl rfl rfl)
    · exact .inl (steered_stays rfl rfl rfl)

/-- A leader has sent to `s` all that `s` has acknowledged. -/
def Trails (r : Raft) (s : Nat) : Prop :=
  r.state = .kLeader → r.matchIndex.getD s 0 < r.nextIndex.getD s 0

theorem Trails.abides (h : Trails r s) (ha : Abides r r') (hs : s < r.peers) : Trails r' s := by
  intro hl
  obtain ⟨hl₀, hcursors, -⟩ | hopened := ha.leads hl
  · simp only [cursorPart, Prod.mk.injEq] at hcursors
    rw [hcursors.1, hcursors.2]
    exact h hl₀
  · exact (hopened.cursors (ha.peers ▸ hs)).2

theorem Trails.steered (h : Trails r s) {i : Nat} {n m : Int} (hs : Steered r i n m r')
    (hc : r.state = .kLeader → Capped r s) (hin : i = s → r.state = .kLeader → 0 ≤ m ∧
      m ≤ r.lastLogIndexLocked ∧ 1 ≤ n ∧ n ≤ r.lastLogIndexLocked + 1 ∧ m < n) : Trails r' s := by
  intro hl
  have hstate : r'.state = r.state := congrArg (fun part => part.2.2.1) hs.office
  rw [hstate] at hl
  by_cases hi : i = s
  · subst hi
    obtain ⟨hmlo, hmhi, hnlo, hnhi, hlt⟩ := hin rfl hl
    obtain ⟨-, hnext, hmatch⟩ := hs.capped (hc hl) hmlo hmhi hnlo hnhi
    rwa [hnext, hmatch]
  · obtain ⟨hnext, hmatch⟩ := hs.away hi
    rw [hnext, hmatch]
    exact h hl

theorem sendAppend_steered (r : Raft) (s : Nat) (next : Int) (may removed : Bool) (cap now : Int) :
    ∃ n, Steered r s n (r.matchIndex.getD s 0) (r.sendAppend s next may removed cap now).1 := by
  rw [sendAppend]
  cases may with
  | false => exact ⟨_, steered_stays rfl rfl rfl⟩
  | true => exact ⟨_, rfl, rfl, Prod.ext rfl (set_getD _ _ _).symm⟩

/-- One turn of `ReplicateLoop(s)` moves the next index of `s`, if anything. -/
theorem replicate_moves (r : Raft) (s : Nat) (now : Int) :
    Abides r (r.replicate s now).1 ∨
      ∃ n, Steered r s n (r.matchIndex.getD s 0) (r.replicate s now).1 := by
  rw [replicate]
  split_ifs
  · exact .inl (.refl r)
  · exact .inl (.of_same rfl rfl rfl)
  · exact .inl (abides_convertToFollowerLocked le_rfl)
  · right
    have hfreeze : ∃ n, Steered r s n (r.matchIndex.getD s 0)
        (r.freezeRemoved s (r.progress s now)).1 ∧
        (r.freezeRemoved s (r.progress s now)).1.matchIndex = r.matchIndex := by
      rw [freezeRemoved]
      dsimp only
      split_ifs
      · exact ⟨_, ⟨rfl, rfl, Prod.ext rfl (set_getD _ _ _).symm⟩, rfl⟩
      · exact ⟨_, steered_stays rfl rfl rfl, rfl⟩
      · exact ⟨_, steered_stays rfl rfl rfl, rfl⟩
    obtain ⟨n, hn, hmatch⟩ := hfreeze
    dsimp only
    split_ifs
    · exact ⟨n, hn⟩
    · rw [sendTo_eq]
      split_ifs
      · refine ⟨n, ?_⟩
        rw [sendSnapshot]
        dsimp only
        split_ifs <;> exact ⟨hn.office, hn.logs, hn.cursors⟩
      · obtain ⟨n', hn'⟩ := sendAppend_steered
          (beat (r.freezeRemoved s (r.progress s now)).1 s) s _ _ _ _ now
        have hback : (beat (r.freezeRemoved s (r.progress s now)).1 s).matchIndex = r.matchIndex := hmatch
        rw [hback] at hn'
        exact ⟨n', hn.trans ⟨hn'.office, hn'.logs, hn'.cursors⟩⟩

theorem replicate_leader (now : Int) (h : (r.replicate s now).2 ≠ .none) : r.state = .kLeader := by
  by_contra hno
  rw [replicate, if_pos (.inr hno)] at h
  exact h rfl

theorem installLogs_state (r : Raft) (args : InstallSnapshotArgs) (old : Int) :
    (r.installLogs args old).state = r.state := by
  rw [installLogs, persistLocked]
  split_ifs <;> rfl

/-- What was sent in the term of a leader. -/
theorem reached_sent (hl : r.state = .kLeader) (ht : t = r.currentTerm)
    (hlast : last ≤ r.lastLogIndexLocked) : Reached r t last := by
  refine ⟨ht.le, fun hcand => ?_, fun _ _ => hlast⟩
  rw [hl] at hcand
  cases hcand

theorem replicate_appends (h : r.Level) (hc : r.state = .kLeader → Capped r s) {now : Int}
    {a : AppendEntriesArgs} (ha : a ∈ (r.replicate s now).2.appends) :
    0 ≤ a.prevLogIndex ∧ Reached (r.replicate s now).1 a.term (a.prevLogIndex + a.entries.length) := by
  cases hsend : (r.replicate s now).2 with
  | append args =>
    rw [hsend, Send.appends, List.mem_singleton] at ha
    subst ha
    have hl := replicate_leader (s := s) (r := r) now (by simp [hsend])
    have hs := replicate_sends h (hc hl) hsend
    obtain ⟨n, hn, -⟩ := hs.steered
    exact ⟨hs.slice.prev_lo, (reached_sent hl hs.slice.term hs.slice.last).same hn.office hn.logs⟩
  | none =>
    rw [hsend] at ha
    cases ha
  | snapshot chunks =>
    rw [hsend] at ha
    cases ha

theorem replicate_chunks (h : r.Level) {now : Int} {c : InstallSnapshotArgs}
    (hc : c ∈ (r.replicate s now).2.chunks) :
    0 ≤ c.lastIncludedIndex ∧ Reached (r.replicate s now).1 c.term c.lastIncludedIndex := by
  obtain ⟨-, hnone⟩ | hs := replicate_transfers r s now
  · rw [hnone] at hc
    cases hc
  · obtain ⟨hterm, -, hindex⟩ := hs.chunk c hc
    have hin : r.snapshotIndex ≤ r.lastLogIndexLocked := by
      have hlen := h.log.lastIndexOf_eq
      have hheld := h.log.length_pos
      rw [lastLogIndexLocked]
      omega
    rw [hindex]
    exact ⟨h.pos, (reached_sent hs.leader hterm hin).same hs.office hs.logs⟩

end Raft

open Raft

/-- A merge or an installation that waited does not find its node in office, unless the installation cuts
no more than the log. -/
def Stretch.Lands (r : Raft) : Stretch → Prop
  | .append _ | .installLogs _ _ _ => r.state ≠ .kLeader
  | .installCommit args _ => r.state = .kLeader → r.snapshotIndex ≤ args.lastIncludedIndex
  | _ => True

instance (r : Raft) (st : Stretch) : Decidable (st.Lands r) := by
  cases st <;> unfold Stretch.Lands <;> infer_instance

namespace Sender

/-- A callback answers a request of this process, as the handler of `s` answers it. -/
def Answered (x : Sender) : ProcessEvent → Prop
  | .appendReply args s ok reply _ => args ∈ x.appends s ∧ (ok = true → Answers args reply)
  | .snapshotReply args s _ _ _ => args ∈ x.chunks s
  | _ => True

/-- What waited to write the log may. -/
def Landing (x : Sender) : ProcessEvent → Prop
  | .resume k _ => ∀ t ∈ x.process.threads[k]?, t.stretch.Lands x.process.raft
  | _ => True

/-- The log is in step, and is written in its turn. -/
def Grounded (x : Sender) (e : ProcessEvent) : Prop := x.process.raft.Level ∧ x.Landing e

/-- What a leader hears leaves the next index beyond what it acknowledges. -/
def OnCourse (x : Sender) : ProcessEvent → Prop
  | .appendReply args s ok reply _ => Hears x.process.raft args.term ok reply.term →
      (reply.success = true →
        args.prevLogIndex + args.entries.length < x.process.raft.nextIndex.getD s 0) ∧
      (reply.success = false → reply.nextIndex ≤ 0 →
        x.process.raft.matchIndex.getD s 0 < max 1 (x.process.raft.nextIndex.getD s 0 - 1))
  | .snapshotReply args s ok reply _ => Hears x.process.raft args.term ok reply.term →
      args.done = true → reply.okInstall = true →
      x.process.raft.matchIndex.getD s 0 ≤ args.lastIncludedIndex
  | _ => True

instance (x : Sender) (e : ProcessEvent) : Decidable (x.Landing e) := by
  apply e.casesOn (motive := fun e => Decidable (x.Landing e)) <;> intros <;> dsimp only [Landing] <;>
    infer_instance

instance (x : Sender) (e : ProcessEvent) : Decidable (x.Grounded e) :=
  inferInstanceAs (Decidable (_ ∧ _))

instance (x : Sender) (e : ProcessEvent) : Decidable (x.OnCourse e) := by
  apply e.casesOn (motive := fun e => Decidable (x.OnCourse e)) <;> intros <;> dsimp only [OnCourse] <;>
    infer_instance

variable {x : Sender} {e : ProcessEvent} {s : Nat}

/-- What no callback of `Raft.AppendEntries` does. -/
theorem handles_abides (hg : x.Grounded e) (he : ∀ args i ok reply now, e ≠ .appendReply args i ok reply now) :
    Process.Handles Abides x.process e where
  abides := id
  voteReply _ := abides_voteReply hg.1 _ _ _ _
  appendReply heq := absurd heq (he _ _ _ _ _)
  takeOffice _ _ _ := abides_becomeLeaderIfQuorumLocked hg.1 _
  append {k now t args} heq ht hst := by
    subst heq
    have hlands := hg.2 t ht
    rw [hst] at hlands
    exact abides_appendEntriesLocked hlands args {}
  snapshotCommit _ _ _ hlt := (abides_snapshotCut hg.1 hlt.le _ _).persist
  installCommit {k now t args blob} heq ht hst _ := by
    subst heq
    have hlands := hg.2 t ht
    rw [hst] at hlands
    by_cases hl : x.process.raft.state = .kLeader
    · exact abides_installLogs hg.1 (hlands hl) blob
    · have hbegin : Tenure x.process.raft (x.process.raft.installBegin args blob) := .of_part rfl
      refine (hbegin.trans (tenure_installLogs _ _ _)).abides ?_
      rw [installLogs_state]
      exact hl
  installLogs {k now t args blob old} heq ht hst := by
    subst heq
    have hlands := hg.2 t ht
    rw [hst] at hlands
    refine (tenure_installLogs _ _ _).abides ?_
    rw [installLogs_state]
    exact hlands

/-- The cursors of a follower move; those of `s` stay in the log, and apart if the step is on course. -/
def Steers (x : Sender) (s : Nat) (e : ProcessEvent) (r' : Raft) : Prop :=
  ∃ i n m, Steered x.process.raft i n m r' ∧ (i = s → x.process.raft.state = .kLeader →
    0 ≤ m ∧ m ≤ x.process.raft.lastLogIndexLocked ∧ 1 ≤ n ∧ n ≤ x.process.raft.lastLogIndexLocked + 1 ∧
    (x.OnCourse e → x.process.raft.matchIndex.getD s 0 < x.process.raft.nextIndex.getD s 0 → m < n))

/-- No cursor moves. -/
theorem steers_stays {r' : Raft} {i : Nat} (hc : x.process.raft.state = .kLeader → Capped x.process.raft s)
    (h : Steered x.process.raft i (x.process.raft.nextIndex.getD i 0) (x.process.raft.matchIndex.getD i 0)
      r') : x.Steers s e r' := by
  refine ⟨_, _, _, h, ?_⟩
  rintro rfl hl
  obtain ⟨-, -, hmlo, hmhi, hnlo, hnhi⟩ := hc hl
  exact ⟨hmlo, hmhi, hnlo, hnhi, fun _ hlt => hlt⟩

theorem steers_replicate (hg : x.process.raft.Level)
    (hc : x.process.raft.state = .kLeader → Capped x.process.raft s) (i : Nat) (now : Int) :
    Abides x.process.raft (x.process.raft.replicate i now).1 ∨
      x.Steers s (.replicate i now) (x.process.raft.replicate i now).1 := by
  by_cases hi : i = s ∧ x.process.raft.state = .kLeader
  · obtain ⟨rfl, hl⟩ := hi
    have hc := hc hl
    by_cases hsend : ∃ args, (x.process.raft.replicate i now).2 = .append args
    · obtain ⟨args, hsend⟩ := hsend
      obtain ⟨n, hn, hlo, hhi, -, hahead⟩ := (replicate_sends hg hc hsend).steered
      exact .inr ⟨i, n, _, hn, fun _ _ => ⟨hc.match_lo, hc.match_hi, hlo, hhi, fun _ => hahead⟩⟩
    · refine (replicate_idle hg hc fun args h => hsend ⟨args, h⟩).imp_right ?_
      rintro ⟨n, hn, hge, hle⟩
      exact ⟨i, n, _, hn, fun _ _ => ⟨hc.match_lo, hc.match_hi, hc.next_lo.trans hge, hle,
        fun _ hlt => hlt.trans_le hge⟩⟩
  · refine (replicate_moves x.process.raft i now).imp_right ?_
    rintro ⟨n, hn⟩
    exact ⟨i, n, _, hn, fun heq hl => absurd ⟨heq, hl⟩ hi⟩

theorem steers_appendReply (ht : Tracked x.process.raft s (x.appends s) (x.chunks s))
    {args : AppendEntriesArgs} {i : Nat} {ok : Bool} {reply : AppendEntriesReply} {now : Int}
    (ha : x.Answered (.appendReply args i ok reply now)) :
    Abides x.process.raft (x.process.raft.appendReply args i ok reply now).1 ∨
      x.Steers s (.appendReply args i ok reply now)
        (x.process.raft.appendReply args i ok reply now).1 := by
  refine (appendReply_moves x.process.raft args i ok reply now).imp_right ?_
  rintro ⟨hears, ⟨hsuccess, h⟩ | ⟨hno, h⟩⟩
  · refine ⟨i, _, _, h, ?_⟩
    rintro rfl hl
    obtain ⟨hprev, hreached⟩ := ht.appends args ha.1
    have hlast := hreached.leader hl hears.term
    obtain ⟨-, -, hmlo, hmhi, hnlo, hnhi⟩ := ht.capped hl
    exact ⟨by omega, by omega, hnlo, hnhi, fun hcourse hlt => max_lt hlt ((hcourse hears).1 hsuccess)⟩
  · refine ⟨i, _, _, h, ?_⟩
    rintro rfl hl
    obtain ⟨hprev, hreached⟩ := ht.appends args ha.1
    have hlast := hreached.leader hl hears.term
    have hhint := (ha.2 hears.ok).hint_le hprev hno
    obtain ⟨-, -, hmlo, hmhi, hnlo, hnhi⟩ := ht.capped hl
    rw [rejectedNext]
    split_ifs with hpos
    · exact ⟨hmlo, hmhi, by omega, by omega, fun _ _ => by omega⟩
    · exact ⟨hmlo, hmhi, by omega, by omega, fun hcourse _ => (hcourse hears).2 hno (not_lt.mp hpos)⟩

theorem steers_snapshotReply (ht : Tracked x.process.raft s (x.appends s) (x.chunks s))
    {args : InstallSnapshotArgs} {i : Nat} {ok : Bool} {reply : InstallSnapshotReply} {now : Int}
    (ha : x.Answered (.snapshotReply args i ok reply now)) :
    Abides x.process.raft (x.process.snapshotReply args i ok reply now).raft ∨
      x.Steers s (.snapshotReply args i ok reply now) (x.process.snapshotReply args i ok reply now).raft := by
  rw [Process.snapshotReply, Process.callback]
  by_cases hdown : ¬ (x.process.raft.noteReached i ok).killed ∧
      (x.process.raft.noteReached i ok).currentTerm < if ok then reply.term else 0
  · rw [if_pos hdown]
    exact .inl ((abides_noteReached _ i ok).trans (abides_convertToFollowerLocked hdown.2.le))
  · rw [if_neg hdown]
    right
    by_cases hkilled : x.process.raft.killed = true
    · refine steers_stays (i := i) ht.capped ?_
      have hsame : x.process.raft.snapshotReply args i ok reply now = x.process.raft := if_pos hkilled
      rw [hsame]
      exact steered_stays rfl rfl rfl
    · have hterm : ¬ x.process.raft.currentTerm < if ok then reply.term else 0 :=
        fun hlt => hdown ⟨hkilled, hlt⟩
      obtain h | ⟨hears, hdone, hinstalled, h⟩ := snapshotReply_moves args i now hterm
      · exact steers_stays ht.capped h
      · refine ⟨i, _, _, h, ?_⟩
        rintro rfl hl
        obtain ⟨hprev, hreached⟩ := ht.chunks args ha
        have hlast := hreached.leader hl hears.term
        obtain ⟨-, -, hmlo, hmhi, hnlo, hnhi⟩ := ht.capped hl
        refine ⟨by omega, by omega, by omega, by omega, fun hcourse _ => ?_⟩
        have hle := hcourse hears hdone hinstalled
        omega

/-- What one step does to the cursors of `s`. -/
theorem steers_step (ha : x.Answered e) (hg : x.Grounded e)
    (ht : Tracked x.process.raft s (x.appends s) (x.chunks s)) (he : ∀ now, e ≠ .restart now) :
    Abides x.process.raft (x.process.step e).raft ∨ x.Steers s e (x.process.step e).raft := by
  have hroutine : x.process.Routine e → (∀ args i ok reply now, e ≠ .appendReply args i ok reply now) →
      Abides x.process.raft (x.process.step e).raft := fun hr hne =>
    (Process.serves_step hr (handles_abides hg hne)).raft
  cases e with
  | replicate i now => exact steers_replicate hg.1 ht.capped i now
  | appendReply args i ok reply now =>
    rw [Process.step, Process.appendReply]
    split_ifs with hdown
    · exact .inl ((abides_noteReached _ i ok).trans (abides_convertToFollowerLocked hdown.2.2.le))
    · rw [Process.synced]
      split_ifs <;> exact steers_appendReply ht ha
  | snapshotReply args i ok reply now => exact steers_snapshotReply ht ha
  | restart now => exact absurd rfl (he now)
  | resume k now =>
    obtain hr | ⟨t, i, hk, hst⟩ := routine_or_heard x.process k now
    · exact .inl (hroutine hr (by rintro _ _ _ _ _ ⟨⟩))
    · rw [Process.step, Process.resume, hk]
      dsimp only
      split_ifs
      · rw [hst]
        exact .inr (steers_stays (i := i) ht.capped (steered_stays rfl rfl rfl))
      · exact .inl (.refl _)
  | _ => exact .inl (hroutine trivial (by rintro _ _ _ _ _ ⟨⟩))

/-- What the node has sent to `s` and heard from it lies in its log. -/
def Follows (s : Nat) (x : Sender) : Prop :=
  s < x.process.raft.peers ∧ Tracked x.process.raft s (x.appends s) (x.chunks s)

theorem follows_boot {peers me : Nat} {d : Disk} {now : Int} (hs : s < peers) :
    (boot peers me d now).Follows s ∧ (boot peers me d now).process.raft.Trails s := by
  obtain ⟨hpeers, -, -, hstate⟩ := make_members peers me d now
  have hno : (boot peers me d now).process.raft.state ≠ .kLeader := by
    intro hl
    rw [boot, Process.boot, hstate] at hl
    cases hl
  refine ⟨⟨hs.trans_eq hpeers.symm, fun _ ha => ?_, fun _ hc => ?_, fun hl => absurd hl hno⟩,
    fun hl => absurd hl hno⟩
  · cases ha
  · cases hc

theorem Follows.step (h : x.Follows s) (ha : x.Answered e) (hg : x.Grounded e) : (x.step e).Follows s := by
  obtain ⟨hs, ht⟩ := h
  by_cases hrestart : ∃ now, e = .restart now
  · obtain ⟨now, rfl⟩ := hrestart
    exact (follows_boot hs).1
  have hno : ∀ now, e ≠ .restart now := fun now heq => hrestart ⟨now, heq⟩
  have hpeers := (step_office x.process hno).peers
  have hmoved : Tracked (x.process.step e).raft s (x.appends s) (x.chunks s) := by
    obtain habides | ⟨i, n, m, hsteered, hin⟩ := steers_step ha hg ht hno
    · exact ht.abides habides hs
    · refine ht.steered hsteered fun hi hl => ?_
      obtain ⟨hmlo, hmhi, hnlo, hnhi, -⟩ := hin hi hl
      exact ⟨hmlo, hmhi, hnlo, hnhi⟩
  refine ⟨by rwa [step_process, hpeers], ?_⟩
  rw [step_process]
  cases e with
  | replicate i now =>
    by_cases hi : i = s
    · subst hi
      have happends : (x.step (.replicate i now)).appends i =
          x.appends i ++ (x.process.raft.replicate i now).2.appends := Function.update_self ..
      have hchunks : (x.step (.replicate i now)).chunks i =
          x.chunks i ++ (x.process.raft.replicate i now).2.chunks := Function.update_self ..
      rw [happends, hchunks]
      refine ⟨?_, ?_, hmoved.capped⟩
      · rw [List.forall_mem_append]
        exact ⟨hmoved.appends, fun a hmem => replicate_appends hg.1 ht.capped hmem⟩
      · rw [List.forall_mem_append]
        exact ⟨hmoved.chunks, fun c hmem => replicate_chunks hg.1 hmem⟩
    · have happends : (x.step (.replicate i now)).appends s = x.appends s :=
        Function.update_of_ne (Ne.symm hi) ..
      have hchunks : (x.step (.replicate i now)).chunks s = x.chunks s :=
        Function.update_of_ne (Ne.symm hi) ..
      rwa [happends, hchunks]
  | restart now => exact absurd rfl (hno now)
  | _ => exact hmoved

theorem trails_step (h : x.Follows s) (htrails : x.process.raft.Trails s) (ha : x.Answered e)
    (hg : x.Grounded e) (hc : x.OnCourse e) : (x.step e).process.raft.Trails s := by
  obtain ⟨hs, ht⟩ := h
  by_cases hrestart : ∃ now, e = .restart now
  · obtain ⟨now, rfl⟩ := hrestart
    exact (follows_boot hs).2
  rw [step_process]
  obtain habides | ⟨i, n, m, hsteered, hin⟩ := steers_step ha hg ht fun now heq => hrestart ⟨now, heq⟩
  · exact htrails.abides habides hs
  · refine htrails.steered hsteered ht.capped fun hi hl => ?_
    obtain ⟨hmlo, hmhi, hnlo, hnhi, hlt⟩ := hin hi hl
    exact ⟨hmlo, hmhi, hnlo, hnhi, hlt hc (htrails hl)⟩

/-- In a run in which every callback answers a request of the leader, a batch is a slice of its log, and
the next index comes right after it. A batch is empty only where the follower is frozen or has all, the
window is full, or the snapshot has to come first. -/
theorem batch_slice (peers me : Nat) (d : Disk) (now : Int) (es : List ProcessEvent)
    (hes : Meets (fun x e => x.Answered e ∧ x.Grounded e) (boot peers me d now) es) :
    let r := ((boot peers me d now).run es).process.raft
    r.Level → ∀ s < peers, ∀ t args, (r.replicate s t).2 = .append args →
      Slice r args ∧
      (args.entries ≠ [] →
        (r.replicate s t).1.nextIndex.getD s 0 = args.prevLogIndex + args.entries.length + 1) ∧
      (isRemovedFrozen r.isMember r.removedAtIndex s = false →
        r.nextIndex.getD s 0 ≤ r.lastLogIndexLocked → r.snapshotIndex < r.nextIndex.getD s 0 →
        r.nextIndex.getD s 0 - 1 - r.matchIndex.getD s 0 < kPipelineMaxInFlight →
        ((r.progress s t).timedOut = true → r.snapshotIndex ≤ r.matchIndex.getD s 0) →
        args.entries ≠ []) := by
  intro r hlevel s hs t args hsend
  have hfollows : ((boot peers me d now).run es).Follows s :=
    run_induction (fun _ _ hx he => hx.step he.1 he.2) (follows_boot hs).1 hes
  have hl : r.state = .kLeader := replicate_leader (s := s) t (by simp [hsend])
  have hc : Capped r s := hfollows.2.capped hl
  have hsends := replicate_sends hlevel hc hsend
  obtain ⟨n, hn, hlo, hhi, hadvance, -⟩ := hsends.steered
  refine ⟨hsends.slice, fun hne => ?_, fun hkept hbehind hsnap hwindow hrewind => ?_⟩
  · rw [(hn.capped hc hc.match_lo hc.match_hi hlo hhi).2.1, hadvance hne]
    omega
  · have hpos := hlevel.pos
    have hmlo := hc.match_lo
    have hfrom : r.snapshotIndex < r.sendFrom s (r.progress s t) ∧
        r.sendFrom s (r.progress s t) ≤ r.lastLogIndexLocked := by
      rw [sendFrom]
      cases htimed : (r.progress s t).timedOut with
      | false =>
        have hremoved : (r.progress s t).removed = false := hkept
        simp only [hremoved, Bool.false_eq_true, ↓reduceIte, false_and]
        split_ifs <;> omega
      | true =>
        have hremoved : (r.progress s t).removed = false := hkept
        have hinflight : r.matchIndex.getD s 0 < r.nextIndex.getD s 0 - 1 := by
          simp only [progress, Bool.and_eq_true, decide_eq_true_eq] at htimed
          omega
        have hle := hrewind htimed
        simp only [hremoved, Bool.false_eq_true, ↓reduceIte, false_and]
        split_ifs <;> omega
    refine hsends.filled hkept ?_ hfrom.1 hfrom.2
    rw [progress]
    dsimp only
    rw [decide_eq_true hbehind, decide_eq_true hwindow]
    rfl

/-- In every run in which the callbacks that a leader hears are on course besides, its cursors stay apart
and in its log. -/
theorem cursors_apart (peers me : Nat) (d : Disk) (now : Int) (es : List ProcessEvent)
    (hes : Meets (fun x e => (x.Answered e ∧ x.Grounded e) ∧ x.OnCourse e) (boot peers me d now) es) :
    let r := ((boot peers me d now).run es).process.raft
    r.state = .kLeader → ∀ s < peers,
      r.matchIndex.getD s 0 < r.nextIndex.getD s 0 ∧ r.nextIndex.getD s 0 ≤ r.lastLogIndexLocked + 1 := by
  intro r hl s hs
  have hrun : ((boot peers me d now).run es).Follows s ∧
      ((boot peers me d now).run es).process.raft.Trails s :=
    run_induction (I := fun x => x.Follows s ∧ x.process.raft.Trails s)
      (fun _ _ hx he => ⟨hx.1.step he.1.1 he.1.2, trails_step hx.1 hx.2 he.1.1 he.1.2 he.2⟩)
      (follows_boot hs) hes
  exact ⟨hrun.2 hl, (hrun.1.2.capped hl).next_hi⟩

/-- A node that has just come up answers, or one that is shut down in term 1. -/
def Fresh (x : Sender) : ProcessEvent → Prop
  | .appendReply args s _ reply _ => args ∈ x.appends s ∧
      (reply = ((make 3 s {} 0).appendEntries args 0).2 ∨
        reply = ({ make 3 s {} 0 with currentTerm := 1, killed := true }.appendEntries args 0).2)
  | .snapshotReply args s _ _ _ => args ∈ x.chunks s
  | _ => True

instance (x : Sender) (e : ProcessEvent) : Decidable (x.Fresh e) := by
  apply e.casesOn (motive := fun e => Decidable (x.Fresh e)) <;> intros <;> dsimp only [Fresh] <;>
    infer_instance

theorem Fresh.answered (h : x.Fresh e) : x.Answered e := by
  cases e with
  | appendReply args s ok reply now =>
    refine ⟨h.1, fun _ => ?_⟩
    obtain rfl | rfl := h.2
    · exact answers_appendEntries _ _ _
    · exact answers_appendEntries _ _ _
  | snapshotReply args s ok reply now => exact h
  | _ => trivial

end Sender

/-- Node 0 of three is elected in term 1 and sends its first entry to node 2. -/
def sendsFirst : List ProcessEvent :=
  [.electionTimeout 200,
    .prevoteReply { term := 0, candidateId := 0, lastLogIndex := 0, lastLogTerm := 0 } 1
      { term := 0, voteGranted := true } 200, .resume 0 200,
    .voteReply { term := 1, candidateId := 0, lastLogIndex := 0, lastLogTerm := 0 } 1
      { term := 1, voteGranted := true } 200, .start [7], .replicate 2 250]

def firstTo2 : AppendEntriesArgs :=
  { term := 1, leaderId := 0, prevLogIndex := 0, prevLogTerm := 0, leaderCommit := 0
    entries := [{ term := 1, index := 1, command := [7] }] }

/-- Node 2 takes it, and the next heartbeat goes out. -/
def takesFirst : List ProcessEvent :=
  [.appendReply firstTo2 2 true { term := 1, success := true } 260, .leaderTick 300, .replicate 2 300]

def beatTo2 : AppendEntriesArgs :=
  { term := 1, leaderId := 0, prevLogIndex := 1, prevLogTerm := 1, leaderCommit := 1 }

open Sender

theorem batch_slice_second :
    let r := ((Sender.boot 3 0 {} 0).run (sendsFirst ++ takesFirst ++ [.start [8]])).process.raft
    let args : AppendEntriesArgs := { beatTo2 with entries := [{ term := 1, index := 2, command := [8] }] }
    (r.replicate 2 310).2 = .append args ∧ Slice r args ∧
      (r.replicate 2 310).1.nextIndex.getD 2 0 = args.prevLogIndex + args.entries.length + 1 := by
  intro r args
  have hsend : (r.replicate 2 310).2 = .append args := by decide +kernel
  have hmeets : Meets (fun x e => x.Fresh e ∧ x.Grounded e) (Sender.boot 3 0 {} 0)
      (sendsFirst ++ takesFirst ++ [.start [8]]) := by
    decide +kernel
  have hlevel : r.Level := by decide +kernel
  have h := batch_slice 3 0 {} 0 (sendsFirst ++ takesFirst ++ [.start [8]])
    (hmeets.mono fun _ _ he => ⟨he.1.answered, he.2⟩)
  obtain ⟨hslice, hnext, -⟩ := h hlevel 2 (by decide) 310 args hsend
  exact ⟨hsend, hslice, hnext (List.cons_ne_nil _ _)⟩

/-- While a snapshot is on its way to a follower that has timed out, it gets heartbeats only: here node 2
is behind by one entry, which comes right after what was sent. -/
theorem batch_left_empty :
    let r := ((Sender.boot 3 0 { persister := { fileBacked := true } } 0).run
      ((shipsTo2 [7]).take 24 ++ [.replicate 2 500, .start [9]])).process.raft
    (isRemovedFrozen r.isMember r.removedAtIndex 2 = false ∧
      r.nextIndex.getD 2 0 ≤ r.lastLogIndexLocked ∧ r.snapshotIndex < r.nextIndex.getD 2 0 ∧
      r.nextIndex.getD 2 0 - 1 - r.matchIndex.getD 2 0 < kPipelineMaxInFlight) ∧
      (r.replicate 2 810).2 = .append
        { term := 2, leaderId := 0, prevLogIndex := 0, prevLogTerm := 1, leaderCommit := 2 } := by
  decide +kernel

theorem cursors_apart_first :
    let r := ((Sender.boot 3 0 {} 0).run (sendsFirst ++ takesFirst)).process.raft
    r.matchIndex.getD 2 0 < r.nextIndex.getD 2 0 ∧ r.nextIndex.getD 2 0 ≤ r.lastLogIndexLocked + 1 := by
  have hmeets : Meets (fun x e => (x.Fresh e ∧ x.Grounded e) ∧ x.OnCourse e) (Sender.boot 3 0 {} 0)
      (sendsFirst ++ takesFirst) := by
    decide +kernel
  exact cursors_apart 3 0 {} 0 (sendsFirst ++ takesFirst)
    (hmeets.mono fun _ _ he => ⟨⟨he.1.1.answered, he.1.2⟩, he.2⟩) (by decide +kernel) 2 (by decide)

/-- Node 2 shuts down and answers the heartbeat with an early return: the next index goes back onto what
node 2 has acknowledged. -/
theorem cursors_meet :
    let es := sendsFirst ++ takesFirst ++ [.appendReply beatTo2 2 true { term := 1 } 310]
    let r := ((Sender.boot 3 0 {} 0).run es).process.raft
    Meets (fun x e => x.Answered e ∧ x.Grounded e) (Sender.boot 3 0 {} 0) es ∧ r.state = .kLeader ∧
      r.matchIndex.getD 2 0 = 1 ∧ r.nextIndex.getD 2 0 = 1 := by
  have hmeets : Meets (fun x e => x.Fresh e ∧ x.Grounded e) (Sender.boot 3 0 {} 0)
      (sendsFirst ++ takesFirst ++ [.appendReply beatTo2 2 true { term := 1 } 310]) := by
    decide +kernel
  exact ⟨hmeets.mono fun _ _ he => ⟨he.1.answered, he.2⟩, by decide +kernel⟩

end ChonKV
