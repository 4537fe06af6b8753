import ChonKV.Handler.CommitRule

/-!
How a leader finds the end of a follower's log: an `AppendEntries` that is rejected moves the next index
of the follower back, until one is accepted or a snapshot is due.
-/

set_option autoImplicit false

namespace ChonKV
namespace Raft

open Assoc

variable {r r' f f' : Raft} {args : AppendEntriesArgs} {s : Nat}

theorem backOff_le (r : Raft) (t : Int) (k : Nat) (i : Int) : r.backOff t k i ≤ i := by
  induction k generalizing i with
  | zero => exact le_rfl
  | succ k ih =>
    rw [backOff]
    split_ifs
    · exact (ih (i-1)).trans (by omega)
    · exact le_rfl

/-- Why a live follower that is not ahead of the leader rejects a request, and what it hints at. -/
structure Rejects (f : Raft) (args : AppendEntriesArgs) (hint : Int) : Prop where
  pos : f.snapshotIndex < hint
  cause : (f.lastLogIndexLocked < args.prevLogIndex ∧ hint = f.lastLogIndexLocked + 1) ∨
    (f.inLogs args.prevLogIndex ∧ (f.logAt args.prevLogIndex).term ≠ args.prevLogTerm ∧
      hint ≤ max args.prevLogIndex (f.snapshotIndex + 1))

theorem appendEntriesLocked_rejects (hlevel : f.Level) {reply : AppendEntriesReply}
    (h : (f.appendEntriesLocked args reply).2.success = false) :
    (f.appendEntriesLocked args reply).1 = f ∧
      (f.appendEntriesLocked args reply).2.term = reply.term ∧
      Rejects f args (f.appendEntriesLocked args reply).2.nextIndex := by
  have hlen := hlevel.log.lastIndexOf_eq
  have hpos := hlevel.log.length_pos
  rw [appendEntriesLocked] at h ⊢
  rw [lastLogIndexLocked] at h ⊢
  split_ifs at h ⊢ with hshort hterm
  · exact ⟨rfl, rfl, by dsimp only; omega, .inl ⟨hshort, rfl⟩⟩
  · have hle := backOff_le f (f.logAt args.prevLogIndex).term
      (args.prevLogIndex - f.snapshotIndex).toNat args.prevLogIndex
    refine ⟨rfl, rfl, ?_, .inr ⟨⟨hterm.1, by omega⟩, hterm.2, max_le_max hle le_rfl⟩⟩
    exact lt_of_lt_of_le (Int.lt_succ _) (le_max_right _ _)

/-- The log, its snapshot and whether the process lives: what an answer depends on besides the term. -/
structure SameNode (f f' : Raft) : Prop where
  logs : f'.logs = f.logs
  index : f'.snapshotIndex = f.snapshotIndex
  killed : f'.killed = f.killed

theorem SameNode.last (h : SameNode f f') : f'.lastLogIndexLocked = f.lastLogIndexLocked :=
  congrArg lastIndexOf h.logs

theorem SameNode.inLogs_iff (h : SameNode f f') (i : Int) : f'.inLogs i ↔ f.inLogs i := by
  rw [inLogs, inLogs, h.logs, h.index]

theorem SameNode.logAt_eq (h : SameNode f f') (i : Int) : f'.logAt i = f.logAt i := by
  rw [logAt, logAt, h.logs, h.index]

theorem SameNode.level (h : SameNode f f') (hlevel : f.Level) : f'.Level := by
  refine ⟨h.index ▸ hlevel.pos, ?_⟩
  rw [h.logs, h.index]
  exact hlevel.log

theorem Rejects.of_same {hint : Int} (h : SameNode f f') (hr : Rejects f' args hint) :
    Rejects f args hint := by
  obtain ⟨hpos, hcause⟩ := hr
  rw [h.last, h.inLogs_iff, h.logAt_eq, h.index] at hcause
  exact ⟨h.index ▸ hpos, hcause⟩

theorem convertToFollowerLocked_node (f : Raft) (term : Int) :
    SameNode f (f.convertToFollowerLocked term) ∧ (f.convertToFollowerLocked term).currentTerm = term := by
  rw [convertToFollowerLocked, persistLocked]
  dsimp only
  split_ifs <;> exact ⟨⟨rfl, rfl, rfl⟩, rfl⟩

/-- A request of a term that is not behind is checked on the log as it stands. -/
theorem appendEntries_checks (hlive : f.killed = false) (hterm : f.currentTerm ≤ args.term) (now : Int) :
    ∃ g reply, SameNode f g ∧ g.currentTerm = args.term ∧ reply.term = args.term ∧
      f.appendEntries args now = g.appendEntriesLocked args reply := by
  have hstale : ¬ (f.killed = true ∨ args.term < f.currentTerm) := by simp [hlive]; omega
  rw [appendEntries, if_neg hstale]
  dsimp only
  split_ifs with hconvert
  · obtain ⟨hsame, hct⟩ := convertToFollowerLocked_node (f.heardLeader args now) args.term
    exact ⟨_, _, ⟨hsame.logs, hsame.index, hsame.killed⟩, hct, hct, rfl⟩
  · have hct : f.currentTerm = args.term := by
      have hge : ¬ f.currentTerm < args.term := fun h => hconvert (.inl h)
      omega
    exact ⟨f.heardLeader args now, _, ⟨rfl, rfl, rfl⟩, hct, hct, rfl⟩

theorem appendEntries_rejects (hlevel : f.Level) (hlive : f.killed = false)
    (hterm : f.currentTerm ≤ args.term) {now : Int}
    (h : (f.appendEntries args now).2.success = false) :
    SameNode f (f.appendEntries args now).1 ∧ (f.appendEntries args now).1.currentTerm = args.term ∧
      (f.appendEntries args now).2.term = args.term ∧
      Rejects f args (f.appendEntries args now).2.nextIndex := by
  obtain ⟨g, reply, hsame, hct, hrt, heq⟩ := appendEntries_checks hlive hterm now
  rw [heq] at h ⊢
  obtain ⟨hg, hg', hrej⟩ := appendEntriesLocked_rejects (hsame.level hlevel) h
  rw [hg, hg']
  exact ⟨hsame, hct, hrt, hrej.of_same hsame⟩

/-- What the leader's side of one exchange leaves alone. -/
structure SameLeader (r r' : Raft) : Prop extends SameNode r r' where
  term : r'.currentTerm = r.currentTerm
  state : r'.state = r.state
  snapshotTerm : r'.snapshotTerm = r.snapshotTerm
  matchIndex : r'.matchIndex = r.matchIndex
  count : r'.nextIndex.length = r.nextIndex.length

theorem sameLeader_sendAppend (r : Raft) (s : Nat) (next : Int) (may removed : Bool) (cap now : Int) :
    SameLeader r (r.sendAppend s next may removed cap now).1 := by
  rw [sendAppend]
  cases may with
  | false => exact ⟨⟨rfl, rfl, rfl⟩, rfl, rfl, rfl, rfl, rfl⟩
  | true => exact ⟨⟨rfl, rfl, rfl⟩, rfl, rfl, rfl, rfl, List.length_set⟩

/-- What `ReplicateLoop` puts into the consistency check. -/
theorem sendAppend_args (r : Raft) (s : Nat) (next : Int) (may removed : Bool) (cap now : Int) :
    ∃ args, (r.sendAppend s next may removed cap now).2 = .append args ∧ args.term = r.currentTerm ∧
      args.prevLogIndex = next - 1 ∧
      args.prevLogTerm = if r.inLogs (next-1) then (r.logAt (next-1)).term else r.snapshotTerm := by
  rw [sendAppend]
  cases may with
  | false => exact ⟨_, rfl, rfl, rfl, rfl⟩
  | true => exact ⟨_, rfl, rfl, rfl, rfl⟩

theorem sameLeader_noteAck (r : Raft) (s ctx : Nat) (now : Int) :
    SameLeader r (r.noteAck s ctx now) ∧ (r.noteAck s ctx now).nextIndex = r.nextIndex := by
  rw [noteAck]
  split_ifs
  · rw [recordReadAckLocked]
    dsimp only
    split_ifs <;> exact ⟨⟨⟨rfl, rfl, rfl⟩, rfl, rfl, rfl, rfl, rfl⟩, rfl⟩
  · exact ⟨⟨⟨rfl, rfl, rfl⟩, rfl, rfl, rfl, rfl, rfl⟩, rfl⟩

/-- The callback of a rejected request in the leader's own term. -/
theorem appendReply_rejected {reply : AppendEntriesReply} (hlive : r.killed = false)
    (hleader : r.state = .kLeader) (hargs : args.term = r.currentTerm)
    (hreply : reply.term = r.currentTerm) (hfail : reply.success = false) (hhint : 0 < reply.nextIndex)
    (hs : s < r.nextIndex.length) (now : Int) :
    SameLeader r (r.appendReply args s true reply now).1 ∧
      (r.appendReply args s true reply now).1.nextIndex.getD s 0 =
        max reply.nextIndex (r.matchIndex.getD s 0 + 1) := by
  obtain ⟨hsame, hnext⟩ := sameLeader_noteAck (r.noteReached s true) s reply.readCtx now
  have hstale : ¬ r.currentTerm < reply.term := by omega
  have heq : r.appendReply args s true reply now =
      (((r.noteReached s true).noteAck s reply.readCtx now).appendRejected s reply.nextIndex, false) := by
    simp [appendReply, noteReached, hlive, hleader, hargs, hstale, hfail]
  rw [heq, appendRejected, if_pos hhint]
  refine ⟨⟨⟨hsame.logs, hsame.index, hsame.killed⟩, hsame.term, hsame.state, hsame.snapshotTerm,
    hsame.matchIndex, List.length_set.trans hsame.count⟩, ?_⟩
  have hs' : s < ((r.noteReached s true).noteAck s reply.readCtx now).nextIndex.length :=
    hsame.count ▸ hs
  have hmatch : ((r.noteReached s true).noteAck s reply.readCtx now).matchIndex = r.matchIndex :=
    hsame.matchIndex
  rw [hmatch, List.getD_eq_getElem?_getD, List.getElem?_set_self hs', Option.getD_some]

/-- Two logs agree up to `m`, and the leader's log has the snapshot of the follower where it reaches it. -/
structure Agree (r f : Raft) (m : Int) : Prop where
  reach : m ≤ f.lastLogIndexLocked
  same : ∀ i ≤ m, r.inLogs i → f.inLogs i → (r.logAt i).term = (f.logAt i).term
  compacted : r.inLogs f.snapshotIndex → (r.logAt f.snapshotIndex).term = (f.logAt f.snapshotIndex).term

/-- A leader that looks for the end of the log of its follower `s`, which is `f`. -/
structure Searching (s : Nat) (r f : Raft) : Prop where
  alive : r.killed = false
  leading : r.state = .kLeader
  peer : s < r.nextIndex.length
  live : f.killed = false
  term : f.currentTerm ≤ r.currentTerm
  leaderLog : r.Level
  followerLog : f.Level
  agree : Agree r f (r.matchIndex.getD s 0)
  above : r.matchIndex.getD s 0 + 1 ≤ r.nextIndex.getD s 0
  below : r.nextIndex.getD s 0 ≤ r.lastLogIndexLocked + 1

/-- What the two sides choose in one exchange: whether entries go along, how far, and when. -/
structure Turn where
  may : Bool := false
  removed : Bool := false
  cap : Int := -1
  sent : Int := 0
  heard : Int := 0
  answered : Int := 0

/-- The leader sends from the next index, the follower rejects, the leader takes the hint; `none` when
the follower accepts. -/
def exchange (s : Nat) (t : Turn) (r f : Raft) : Option (Raft × Raft) :=
  let (r', send) := r.sendAppend s (r.nextIndex.getD s 0) t.may t.removed t.cap t.sent
  match send with
  | .append args =>
    let (f', reply) := f.appendEntries args t.heard
    if reply.success then none else some ((r'.appendReply args s true reply t.answered).1, f')
  | _ => none

theorem Agree.of_same {m : Int} (h : Agree r f m) (hr : SameNode r r') (hf : SameNode f f') :
    Agree r' f' m where
  reach := hf.last ▸ h.reach
  same i hi := by
    rw [hr.inLogs_iff, hf.inLogs_iff, hr.logAt_eq, hf.logAt_eq]
    exact h.same i hi
  compacted := by
    rw [hf.index, hr.inLogs_iff, hr.logAt_eq, hf.logAt_eq]
    exact h.compacted

/-- Where the hint of a rejected request stands: never above what was sent, and below it when that was
not the leader's snapshot or before. -/
theorem Searching.hint (h : Searching s r f) {hint : Int} (hprev : args.prevLogIndex = r.nextIndex.getD s 0 - 1)
    (hterm : args.prevLogTerm = if r.inLogs (r.nextIndex.getD s 0 - 1) then
      (r.logAt (r.nextIndex.getD s 0 - 1)).term else r.snapshotTerm)
    (hrej : Rejects f args hint) :
    hint ≤ r.nextIndex.getD s 0 ∧ (r.snapshotIndex < r.nextIndex.getD s 0 →
      hint < r.nextIndex.getD s 0 ∧ r.matchIndex.getD s 0 + 1 < r.nextIndex.getD s 0) := by
  have habove := h.above
  have hbelow := h.below
  have hlen := h.leaderLog.log.lastIndexOf_eq
  obtain ⟨hpos, ⟨hshort, rfl⟩ | ⟨hin, hne, hle⟩⟩ := hrej
  · have hreach := h.agree.reach
    exact ⟨by omega, fun _ => ⟨by omega, by omega⟩⟩
  · have hfrom := hin.1
    refine ⟨by omega, fun hsnap => ?_⟩
    have hheld : r.inLogs args.prevLogIndex := by
      rw [lastLogIndexLocked] at hbelow
      exact ⟨by omega, by omega⟩
    rw [← hprev, if_pos hheld] at hterm
    refine ⟨?_, ?_⟩
    · obtain heq | hlt := Int.le_iff_eq_or_lt.mp hfrom
      · rw [← heq] at hne hterm hheld
        exact absurd ((h.agree.compacted hheld).symm.trans hterm.symm) hne
      · omega
    · obtain heq | hlt := Int.le_iff_eq_or_lt.mp habove
      · have hagree := h.agree.same args.prevLogIndex (by omega) hheld hin
        exact absurd (hagree.symm.trans hterm.symm) hne
      · exact hlt

/-- What an exchange that ends in a rejection does to the search. -/
structure SteppedBack (s : Nat) (r r' : Raft) : Prop where
  snapshotIndex : r'.snapshotIndex = r.snapshotIndex
  matched : r'.matchIndex = r.matchIndex
  above : r'.matchIndex.getD s 0 + 1 ≤ r'.nextIndex.getD s 0
  back : r'.nextIndex.getD s 0 ≤ r.nextIndex.getD s 0
  strict : r.snapshotIndex < r.nextIndex.getD s 0 → r'.nextIndex.getD s 0 < r.nextIndex.getD s 0

theorem Searching.exchange (h : Searching s r f) {t : Turn}
    (hx : exchange s t r f = some (r', f')) : Searching s r' f' ∧ SteppedBack s r r' := by
  obtain ⟨args, hsend, hct, hprev, hpterm⟩ :=
    sendAppend_args r s (r.nextIndex.getD s 0) t.may t.removed t.cap t.sent
  have hsent := sameLeader_sendAppend r s (r.nextIndex.getD s 0) t.may t.removed t.cap t.sent
  rw [Raft.exchange] at hx
  dsimp only at hx
  rw [hsend] at hx
  dsimp only at hx
  split_ifs at hx with hok
  cases hx
  have hfail : (f.appendEntries args t.heard).2.success = false := by simpa using hok
  obtain ⟨hsame, hfct, hrt, hrej⟩ :=
    appendEntries_rejects h.followerLog h.live (hct ▸ h.term) hfail
  have hfpos := h.followerLog.pos
  obtain ⟨hanswer, hnext⟩ := appendReply_rejected (s := s) (hsent.killed.trans h.alive)
    (hsent.state.trans h.leading) (hct.trans hsent.term.symm) (hrt.trans (hct.trans hsent.term.symm))
    hfail (lt_of_le_of_lt hfpos hrej.pos) (hsent.count ▸ h.peer) t.answered
  obtain ⟨hle, hstrict⟩ := h.hint hprev hpterm hrej
  have hleader : SameNode r _ := ⟨hanswer.logs.trans hsent.logs, hanswer.index.trans hsent.index,
    hanswer.killed.trans hsent.killed⟩
  have hmatch := hanswer.matchIndex.trans hsent.matchIndex
  have habove := h.above
  rw [hsent.matchIndex] at hnext
  have hback := max_le hle habove
  refine ⟨⟨hleader.killed.trans h.alive, hanswer.state.trans (hsent.state.trans h.leading),
    (hanswer.count.trans hsent.count).symm ▸ h.peer, hsame.killed.trans h.live, ?_,
    hleader.level h.leaderLog, hsame.level h.followerLog, ?_, ?_, ?_⟩,
    hleader.index, hmatch, ?_, ?_, fun hsnap => ?_⟩
  · rw [hfct, hct, hanswer.term, hsent.term]
  · rw [hmatch]
    exact h.agree.of_same hleader hsame
  · rw [hnext, hmatch]
    exact le_max_right _ _
  · rw [hnext, hleader.last]
    exact hback.trans h.below
  · rw [hnext, hmatch]
    exact le_max_right _ _
  · rw [hnext]
    exact hback
  · rw [hnext]
    exact max_lt (hstrict hsnap).1 (hstrict hsnap).2

/-- Exchange after exchange, as long as the follower rejects. -/
def exchanges (s : Nat) : List Turn → Raft → Raft → Option (Raft × Raft)
  | [], r, f => some (r, f)
  | t :: ts, r, f => (exchange s t r f).bind fun p => exchanges s ts p.1 p.2

/-- As long as the next index stays above the snapshot, it goes down with every rejection. -/
theorem Searching.exchanges (h : Searching s r f) {ts : List Turn}
    (hx : exchanges s ts r f = some (r', f')) : Searching s r' f' ∧
      r'.snapshotIndex = r.snapshotIndex ∧ r'.matchIndex = r.matchIndex ∧
      r'.nextIndex.getD s 0 ≤ r.nextIndex.getD s 0 ∧
      (r'.snapshotIndex < r'.nextIndex.getD s 0 →
        r'.nextIndex.getD s 0 + ts.length ≤ r.nextIndex.getD s 0) := by
  induction ts generalizing r f with
  | nil =>
    cases hx
    exact ⟨h, rfl, rfl, le_rfl, by simp⟩
  | cons t ts ih =>
    obtain ⟨⟨r₁, f₁⟩, hfirst, hrest⟩ := Option.bind_eq_some_iff.mp hx
    obtain ⟨h₁, hstep⟩ := h.exchange hfirst
    obtain ⟨h', hsnap, hmatch, hle, hcount⟩ := ih h₁ hrest
    have hback := hstep.back
    refine ⟨h', hsnap.trans hstep.snapshotIndex, hmatch.trans hstep.matched, by omega, fun habove => ?_⟩
    have hrest' := hcount habove
    have hstrict := hstep.strict (by
      rw [← hstep.snapshotIndex, ← hsnap]
      omega)
    simp only [List.length_cons]
    omega

/-- Each rejection leaves the next index above the match index and moves it back, if it was not at the
leader's snapshot or before; and as many rejections as the two are apart bring it to the snapshot. -/
theorem backOff_converges (s : Nat) (r f : Raft) (h : Searching s r f) :
    (∀ t r' f', exchange s t r f = some (r', f') → Searching s r' f' ∧ SteppedBack s r r') ∧
    ∀ ts r' f', exchanges s ts r f = some (r', f') →
      r.nextIndex.getD s 0 - r.matchIndex.getD s 0 ≤ ts.length →
        r'.nextIndex.getD s 0 ≤ r'.snapshotIndex := by
  refine ⟨fun t r' f' hx => h.exchange hx, fun ts r' f' hx hlen => ?_⟩
  obtain ⟨h', -, hmatch, -, hcount⟩ := h.exchanges hx
  have habove := h'.above
  rw [hmatch] at habove
  by_contra hsnap
  have hmoved := hcount (by omega)
  omega

/-- A node of term 5 with a snapshot at `index` and entries of `terms` behind it. -/
def logged (me : Nat) (term index : Int) (terms : List Int) : Raft where
  peers := 2
  me := me
  currentTerm := 5
  snapshotIndex := index
  snapshotTerm := term
  logs := sentinel term index ::
    (List.range terms.length).map fun k => { term := terms.getD k 0, index := index + k + 1 }

/-- A leader that knows nothing of the log of node 1, and has `next` for it. -/
def seeking (term index : Int) (terms : List Int) (next : Int) : Raft :=
  { logged 0 term index terms with state := .kLeader, matchIndex := [0, 0], nextIndex := [0, next] }

theorem backOff_converges_conflict :
    ∃ r' f', exchange 1 {} (seeking 0 0 [1, 2, 2] 4) (logged 1 0 0 [1, 1, 1, 1]) = some (r', f') ∧
      r'.nextIndex.getD 1 0 < 4 := by
  have h : Searching 1 (seeking 0 0 [1, 2, 2] 4) (logged 1 0 0 [1, 1, 1, 1]) :=
    { alive := rfl, leading := rfl, peer := by decide, live := rfl, term := by decide
      leaderLog := ⟨by decide, by simp [seeking, logged], rfl, rfl, rfl, rfl, trivial⟩
      followerLog := ⟨by decide, by simp [logged], rfl, rfl, rfl, rfl, rfl, trivial⟩
      agree := ⟨by decide, fun i hi hr _ => by
        obtain rfl : i = 0 := le_antisymm hi hr.1
        decide, fun _ => by decide⟩
      above := by decide, below := by decide }
  obtain ⟨p, hp⟩ := Option.isSome_iff_exists.mp (by decide :
    (exchange 1 {} (seeking 0 0 [1, 2, 2] 4) (logged 1 0 0 [1, 1, 1, 1])).isSome = true)
  exact ⟨p.1, p.2, hp, ((backOff_converges 1 _ _ h).1 {} p.1 p.2 hp).2.strict (by decide)⟩

/-- While a snapshot is on its way, the heartbeat carries the term of the leader's snapshot: at the
follower's own snapshot it is rejected with the same next index. -/
theorem heartbeat_stays :
    Searching 1 (seeking 5 10 [] 4) (logged 1 1 3 []) ∧
      (exchange 1 {} (seeking 5 10 [] 4) (logged 1 1 3 [])).map (fun p => p.1.nextIndex.getD 1 0) =
        some 4 := by
  refine ⟨?_, by decide⟩
  exact
    { alive := rfl, leading := rfl, peer := by decide, live := rfl, term := by decide
      leaderLog := ⟨by decide, by simp [seeking, logged], rfl, trivial⟩
      followerLog := ⟨by decide, by simp [logged], rfl, trivial⟩
      agree := ⟨by decide, fun i hi hr _ => absurd hr.1 (by
        have h10 : (seeking 5 10 [] 4).snapshotIndex = 10 := rfl
        have h0 : (seeking 5 10 [] 4).matchIndex.getD 1 0 = 0 := rfl
        omega), fun hr => absurd hr.1 (by decide)⟩
      above := by decide, below := by decide }

end Raft
end ChonKV
