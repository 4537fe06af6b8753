import ChonKV.Cluster.Quorum
import ChonKV.Durable.ReadRounds

/-!
Read rounds seen from their openings: whoever acknowledged a round had not left the term of its leader when the
round was opened.
-/

set_option autoImplicit false

namespace ChonKV

open Ballot
open Function (update)

/-- A round when it was opened: the term of its leader and those of all nodes, the highest commit index of any
node, and the one that the round gives out. -/
structure Opening where
  term : Int
  terms : Nat → Int
  floor : Int
  commit : Int

/-- If a quorum was not beyond the term of the leader, nobody had committed more than it. -/
def Opening.Fair (n : Nat) (o : Opening) : Prop :=
  ∀ Q : Set Nat, (majority n).IsQuorum Q → (∀ q ∈ Q, o.terms q ≤ o.term) → o.floor ≤ o.commit

namespace Raft

/-- No round is opened, and none is acknowledged. -/
structure Rests (r r' : Raft) : Prop where
  next : r'.nextReadCtx = r.nextReadCtx
  active : ∀ ctx, r'.activeRead = some ctx → r.activeRead = some ctx
  term : ∀ ctx, (r'.readRounds ctx).term = (r.readRounds ctx).term
  acked : ∀ ctx, (r'.readRounds ctx).acked = (r.readRounds ctx).acked
  done : ∀ ctx, (r'.readRounds ctx).done = (r.readRounds ctx).done

variable {r r' r'' : Raft} {k : ReadUse}

theorem Rests.refl (r : Raft) : Rests r r := ⟨rfl, fun _ h => h, fun _ => rfl, fun _ => rfl, fun _ => rfl⟩

theorem Rests.trans (h : Rests r r') (h' : Rests r' r'') : Rests r r'' where
  next := h'.next.trans h.next
  active ctx hctx := h.active ctx (h'.active ctx hctx)
  term ctx := (h'.term ctx).trans (h.term ctx)
  acked ctx := (h'.acked ctx).trans (h.acked ctx)
  done ctx := (h'.done ctx).trans (h.done ctx)

theorem Spares.rests (h : Spares r r') : Rests r r' := ⟨h.next, h.active, h.term, h.acked, h.done⟩

theorem rests_of_part (h : r'.readPart = r.readPart) : Rests r r' := (Spares.of_part h).rests

theorem Change.rests (h : Change k r r') (hack : k ≠ .ack) (hopen : k ≠ .opens) : Rests r r' := by
  cases h with
  | same h =>
    refine rests_of_part ?_
    simp only [scope, Scope.mk.injEq] at h
    simp only [readPart, h]
  | persist => exact rests_of_part (persistLocked_readPart r)
  | ack _ _ hk => exact absurd hk hack
  | openRead _ hk => exact absurd hk hopen
  | pollRead ctx term readIndex deadline now => exact (spares_readIndexPoll r ctx term readIndex deadline now).rests
  | turn | elect | commit | push | kill => exact ⟨rfl, fun _ h => h, fun _ => rfl, fun _ => rfl, fun _ => rfl⟩

theorem Changes.rests (h : Changes k r r') (hack : k ≠ .ack) (hopen : k ≠ .opens) : Rests r r' := by
  induction h with
  | refl => exact .refl r
  | tail _ hc ih => exact ih.trans (hc.rests hack hopen)

/-- What `Changes` says of the handlers that have to do with no round. -/
theorem Changes.quiet (h : Changes .none r r') : Rests r r' := h.rests (by decide) (by decide)

theorem rests_startRealElection (r : Raft) (now : Int) : Rests r (r.startRealElection now).1 := by
  have hstand : Rests r (r.standForTerm now).1 := (changes_standForTerm r now).quiet
  rw [startRealElection]
  dsimp only
  split_ifs
  · exact hstand.trans (changes_becomeLeaderIfQuorumLocked _ now).quiet
  · exact hstand
  · exact hstand

theorem rests_saveSnapshotBlob (r : Raft) (index term : Int) (raw : Bytes) :
    Rests r (r.saveSnapshotBlob index term raw) := by
  refine rests_of_part ?_
  rw [saveSnapshotBlob]
  split_ifs <;> rfl

theorem rests_installCommit (r : Raft) (args : InstallSnapshotArgs) (blob : Bytes) :
    Rests r (r.installCommit args blob).1 := by
  have hlogs : ∀ (r' : Raft) old msg keep, Rests r' ((r'.installLogs args old).installFinish msg keep) := by
    intro r' old msg keep
    exact rests_of_part ((persistLocked_readPart _).trans rfl)
  have hbegin : Rests r (r.installBegin args blob) := rests_of_part rfl
  rw [installCommit]
  dsimp only
  split_ifs
  · exact .refl r
  · exact (hbegin.trans (changes_convertToFollowerLocked le_rfl).quiet).trans (hlogs _ _ _ _)
  · exact hbegin.trans (hlogs _ _ _ _)

theorem rests_appendEntries (r : Raft) (args : AppendEntriesArgs) (now : Int) :
    Rests r (r.appendEntries args now).1 := by
  have hheard : Rests r (r.heardLeader args now) := rests_of_part rfl
  rw [appendEntries]
  dsimp only
  split_ifs with hno
  · exact .refl r
  · rw [not_or, not_lt] at hno
    refine (hheard.trans (changes_convertToFollowerLocked ?_).quiet).trans
      (rests_of_part (readPart_appendEntriesLocked _ args _))
    exact hno.2
  · exact hheard.trans (rests_of_part (readPart_appendEntriesLocked _ args _))

theorem rests_installSnapshot (r : Raft) (args : InstallSnapshotArgs) (now : Int) :
    Rests r (r.installSnapshot args now).1 := by
  rw [installSnapshot]
  dsimp only
  split_ifs with _ hterm
  · exact .refl r
  · exact (changes_convertToFollowerLocked hterm.le).quiet.trans (changes_installReceive _ args _ now).quiet
  · exact (changes_installReceive r args _ now).quiet

theorem readPart_applyBatch (r : Raft) (now : Int) (m : Nat) (idx : Int) :
    (r.applyBatch now m idx).1.readPart = r.readPart := by
  induction m generalizing r idx with
  | zero => rfl
  | succ m ih =>
    have hturn := readPart_applyTurn r idx
    rw [applyBatch]
    cases ht : r.applyTurn idx with
    | stop => rfl
    | skip r' =>
      rw [ht] at hturn
      exact (ih r' _).trans hturn
    | dispatch r' msg =>
      rw [ht] at hturn
      exact (ih r' _).trans hturn
    | conf r' msg =>
      rw [ht] at hturn
      exact ((ih _ _).trans (readPart_applyConfAfter r' now)).trans hturn

theorem rests_applyLoop (r : Raft) (now : Int) : Rests r (r.applyLoop now).1 := by
  rw [applyLoop]
  by_cases hoff : r.killed ∨ 0 < r.installGateDepth
  · rw [if_pos hoff]
    exact .refl r
  · rw [if_neg hoff]
    cases r.pendingSnapshot with
    | some msg => exact rests_of_part rfl
    | none =>
      dsimp only
      split_ifs
      · exact rests_of_part (readPart_applyBatch r now _ _)
      · exact .refl r

/-- Node `s`, which answered in term `T`, may have acknowledged the round `ctx`, which is in the leader's term. -/
structure Notes (ctx s : Nat) (T : Int) (r r' : Raft) : Prop where
  members : r'.isMember = r.isMember
  next : r'.nextReadCtx = r.nextReadCtx
  active : ∀ c, r'.activeRead = some c → r.activeRead = some c
  term : ∀ c, (r'.readRounds c).term = (r.readRounds c).term
  acked : ∀ c t, (r'.readRounds c).acked.getD t false = true → (r.readRounds c).acked.getD t false = true ∨
    (c = ctx ∧ c ≠ 0 ∧ t = s ∧ T ≤ (r.readRounds c).term)
  done : ∀ c, (r'.readRounds c).done = true → (r.readRounds c).done = true ∨ r'.ReadGranted c

variable {ctx s : Nat} {T : Int}

theorem Rests.notes (h : Rests r r') (hm : r'.isMember = r.isMember) : Notes ctx s T r r' :=
  ⟨hm, h.next, h.active, h.term, fun c _ ht => .inl (h.acked c ▸ ht), fun c hd => .inl (h.done c ▸ hd)⟩

theorem Changes.notes (h : Changes .none r r') : Notes ctx s T r r' := h.quiet.notes h.members

/-- What follows an ack counts none. -/
theorem Notes.after (h : Notes ctx s T r r') (h' : Changes .none r' r'') : Notes ctx s T r r'' where
  members := h'.members.trans h.members
  next := h'.quiet.next.trans h.next
  active c hc := h.active c (h'.quiet.active c hc)
  term c := (h'.quiet.term c).trans (h.term c)
  acked c t ht := h.acked c t (h'.quiet.acked c ▸ ht)
  done c hd := (h.done c (h'.quiet.done c ▸ hd)).imp_right (readGranted_congr h'.members (h'.quiet.acked c)).mpr

theorem Notes.before (h : Changes .none r r') (h' : Notes ctx s T r' r'') : Notes ctx s T r r'' where
  members := h'.members.trans h.members
  next := h'.next.trans h.quiet.next
  active c hc := h.quiet.active c (h'.active c hc)
  term c := (h'.term c).trans (h.quiet.term c)
  acked c t ht := by
    rw [← h.quiet.acked c, ← h.quiet.term c]
    exact h'.acked c t ht
  done c hd := (h'.done c hd).imp_left fun hd => h.quiet.done c ▸ hd

theorem notes_recordReadAckLocked (ctx s : Nat) (hT : T ≤ r.currentTerm) :
    Notes ctx s T r (r.recordReadAckLocked ctx s) := by
  have htallies := tallies_recordReadAckLocked r ctx s
  have hmembers : (r.recordReadAckLocked ctx s).isMember = r.isMember := by
    rw [recordReadAckLocked]
    dsimp only
    split_ifs <;> rfl
  refine ⟨hmembers, htallies.next, fun c hc => ?_, fun c => ?_, fun c t ht => ?_, htallies.marked⟩
  · rw [recordReadAckLocked] at hc
    dsimp only at hc
    split_ifs at hc <;> exact hc
  · rw [recordReadAckLocked]
    dsimp only
    split_ifs
    · rfl
    · rfl
    · dsimp only
      by_cases hc : c = ctx
      · rw [hc, Function.update_self]
      · rw [Function.update_of_ne hc]
  · rw [recordReadAckLocked] at ht
    dsimp only at ht
    split_ifs at ht with hno hoff
    · exact .inl ht
    · exact .inl ht
    · rw [not_or] at hno hoff
      dsimp only at ht
      by_cases hc : c = ctx
      · subst hc
        rw [Function.update_self] at ht
        by_cases hts : t = s
        · exact .inr ⟨rfl, hno.1, hts, hT.trans (not_not.mp hoff.1).ge⟩
        · left
          rwa [List.getD_eq_getElem?_getD, List.getElem?_set_ne (Ne.symm hts), ← List.getD_eq_getElem?_getD] at ht
      · rw [Function.update_of_ne hc] at ht
        exact .inl ht

theorem notes_readHeartbeatReply (r : Raft) (args : AppendEntriesArgs) (s : Nat) (reply : AppendEntriesReply)
    (now : Int) : Notes reply.readCtx s reply.term r (r.readHeartbeatReply args s reply now) := by
  have hquiet : ∀ {r' : Raft}, Changes .none r r' → Notes reply.readCtx s reply.term r r' := Changes.notes
  have hack : Changes .none r { r with lastAckTime := r.lastAckTime.set s now } := changes_same rfl
  rw [readHeartbeatReply]
  split_ifs with _ hterm
  · exact hquiet .refl
  · exact hquiet (changes_stepDownTo hterm.le now)
  · exact hquiet .refl
  · rw [not_lt] at hterm
    dsimp only
    split_ifs
    · refine .before hack (notes_recordReadAckLocked _ s ?_)
      exact hterm
    · exact hquiet hack

theorem notes_appendReply (r : Raft) (args : AppendEntriesArgs) (s : Nat) (ok : Bool) (reply : AppendEntriesReply)
    (now : Int) : Notes reply.readCtx s reply.term r (r.appendReply args s ok reply now).1 := by
  have hquiet : ∀ {r' : Raft}, Changes .none r r' → Notes reply.readCtx s reply.term r r' := Changes.notes
  have hreached : Changes .none r (r.noteReached s ok) := changes_noteReached r s ok
  have hnoted : reply.term ≤ (r.noteReached s ok).currentTerm →
      Notes reply.readCtx s reply.term r ((r.noteReached s ok).noteAck s reply.readCtx now) := by
    intro hterm
    have hack : Changes .none (r.noteReached s ok)
        { r.noteReached s ok with lastAckTime := (r.noteReached s ok).lastAckTime.set s now } := changes_same rfl
    rw [noteAck]
    split_ifs
    · refine .before (hreached.trans hack) (notes_recordReadAckLocked _ s ?_)
      exact hterm
    · exact hquiet (hreached.trans hack)
  rw [appendReply]
  dsimp only
  split_ifs with _ _ hterm
  · exact hquiet .refl
  · exact hquiet (hreached.trans (changes_stepDownTo hterm.le now))
  · exact hquiet hreached
  · exact (hnoted (not_lt.mp hterm)).after (changes_appendAccepted _ args s now)
  · refine (hnoted (not_lt.mp hterm)).after (changes_same ?_)
    rfl
  · exact hquiet hreached

/-- The rounds of a node, as they were opened: nobody that acknowledged one had left its term. -/
structure Timely (o : Nat → Option Opening) (r : Raft) : Prop where
  next : 0 < r.nextReadCtx
  active : ∀ ctx, r.activeRead = some ctx → ∃ op, o ctx = some op
  known : ∀ ctx op, o ctx = some op → ctx < r.nextReadCtx
  term : ∀ ctx op, o ctx = some op → (r.readRounds ctx).term = op.term
  acked : ∀ ctx op, o ctx = some op → ∀ t, (r.readRounds ctx).acked.getD t false = true → op.terms t ≤ op.term
  done : ∀ ctx op, o ctx = some op → (r.readRounds ctx).done = true → op.floor ≤ op.commit

variable {o : Nat → Option Opening}

theorem Timely.rests (h : Timely o r) (hr : Rests r r') : Timely o r' where
  next := hr.next ▸ h.next
  active ctx hc := h.active ctx (hr.active ctx hc)
  known ctx op ho := by
    rw [hr.next]
    exact h.known ctx op ho
  term ctx op ho := (hr.term ctx).trans (h.term ctx op ho)
  acked ctx op ho t ht := h.acked ctx op ho t (hr.acked ctx ▸ ht)
  done ctx op ho hd := h.done ctx op ho (hr.done ctx ▸ hd)

/-- Those that grant a round are a quorum, if all nodes are voters. -/
theorem ReadGranted.quorum {n : Nat} (h : r.ReadGranted ctx) (hv : ∀ t, r.voter t = decide (t < n))
    (hm : r.memberCountLocked = n) :
    (majority n).IsQuorum {t | (r.readRounds ctx).acked.getD t false = true} := by
  have hle : r.countReadAcks (r.readRounds ctx).acked ≤
      (List.range n).countP fun t => (r.readRounds ctx).acked.getD t false := by
    generalize (r.readRounds ctx).acked = acked
    have hcount : r.countReadAcks acked =
        ((List.range acked.length).filter fun t => acked.getD t false && r.voter t).length := by
      rw [countReadAcks, List.countP_eq_length_filter]
    rw [hcount, List.countP_eq_length_filter]
    refine (List.subperm_of_subset (List.nodup_range.filter _) fun t ht => ?_).length_le
    rw [List.mem_filter, Bool.and_eq_true, hv, decide_eq_true_eq] at ht
    exact List.mem_filter.mpr ⟨List.mem_range.mpr ht.2.2, ht.2.1⟩
  rw [ReadGranted, hm] at h
  exact majority_of_range (by omega)

/-- An ack by a node that had not left the term of the round when it was opened. -/
theorem Timely.notes {n : Nat} (h : Timely o r) (hn : Notes ctx s T r r') (hfair : ∀ c op, o c = some op → op.Fair n)
    (hv : ∀ t, r.voter t = decide (t < n)) (hm : r.memberCountLocked = n)
    (hT : ctx ≠ 0 → ∃ op, o ctx = some op ∧ op.terms s ≤ T) : Timely o r' := by
  have hv' : ∀ t, r'.voter t = decide (t < n) := fun t => by
    rw [← hv, voter, hn.members, voter]
  have hm' : r'.memberCountLocked = n := by
    rw [← hm, memberCountLocked, hn.members, memberCountLocked]
  have hacked : ∀ c op, o c = some op → ∀ t, (r'.readRounds c).acked.getD t false = true → op.terms t ≤ op.term := by
    intro c op ho t ht
    rcases hn.acked c t ht with hold | ⟨rfl, hpos, rfl, hle⟩
    · exact h.acked c op ho t hold
    · obtain ⟨op', ho', hterms⟩ := hT hpos
      obtain rfl : op' = op := Option.some.inj (ho'.symm.trans ho)
      exact hterms.trans (hle.trans (h.term c op' ho).le)
  refine ⟨hn.next ▸ h.next, fun c hc => h.active c (hn.active c hc), fun c op ho => ?_, fun c op ho => ?_, hacked,
    fun c op ho hd => ?_⟩
  · rw [hn.next]
    exact h.known c op ho
  · exact (hn.term c).trans (h.term c op ho)
  · rcases hn.done c hd with hold | hgranted
    · exact h.done c op ho hold
    · exact hfair c op ho _ (hgranted.quorum hv' hm') fun q hq => hacked c op ho q hq

/-- What `readIndexOpen` does: nothing, or it adds a waiter, or it opens a round. -/
theorem readIndexOpen_result (r : Raft) (now : Int) :
    ((∃ lid, (r.readIndexOpen now).2 = .forward lid { term := r.currentTerm }) ∧ (r.readIndexOpen now).1 = r) ∨
    ((r.readIndexOpen now).2 = .ret (-1) ∧ (r.readIndexOpen now).1 = r) ∨
    (∃ ctx term, (r.readIndexOpen now).2 = .wait ctx term r.commitIndex false ∧ Rests r (r.readIndexOpen now).1) ∨
    (r.state = .kLeader ∧ r.readSafeCommit ≤ r.commitIndex ∧ (r.readIndexOpen now).1 = r.openRound ∧
      (r.readIndexOpen now).2 = .wait r.nextReadCtx r.currentTerm r.commitIndex true) := by
  rw [readIndexOpen]
  split_ifs with hleader hforward hoff hsafe hlease
  · exact .inl ⟨⟨_, rfl⟩, rfl⟩
  · exact .inr (.inl ⟨rfl, rfl⟩)
  · exact .inr (.inl ⟨rfl, rfl⟩)
  · exact .inr (.inl ⟨rfl, rfl⟩)
  · exact absurd hlease.1 (by decide)
  · cases r.joinableRound with
    | none => exact .inr (.inr (.inr ⟨not_not.mp hleader, not_lt.mp hsafe, rfl, rfl⟩))
    | some ctx => exact .inr (.inr (.inl ⟨ctx, _, rfl, (spares_waiters r ctx _ fun _ hc => hc).rests⟩))

theorem Timely.openRound (h : Timely o r) (op : Opening) (hterm : op.term = r.currentTerm)
    (hme : op.terms r.me ≤ op.term) : Timely (update o r.nextReadCtx (some op)) r.openRound := by
  obtain ⟨hterm', hacked', hdone'⟩ := r.openRound_readRounds_self
  have hcase : ∀ {P : Nat → Opening → Prop}, P r.nextReadCtx op →
      (∀ ctx op', ctx ≠ r.nextReadCtx → o ctx = some op' → P ctx op') →
      ∀ ctx op', update o r.nextReadCtx (some op) ctx = some op' → P ctx op' := by
    intro P hnew hold ctx op' ho
    by_cases hctx : ctx = r.nextReadCtx
    · subst hctx
      rw [Function.update_self] at ho
      exact Option.some.inj ho ▸ hnew
    · rw [Function.update_of_ne hctx] at ho
      exact hold ctx op' hctx ho
  refine ⟨Nat.succ_pos _, fun ctx hctx => ?_, hcase (Nat.lt_succ_self _) fun ctx op' _ ho => ?_,
    hcase (hterm'.trans hterm.symm) fun ctx op' hctx ho => ?_, hcase (fun t ht => ?_) fun ctx op' hctx ho => ?_,
    hcase (fun hd => ?_) fun ctx op' hctx ho => ?_⟩
  · rw [openRound_active hctx, Function.update_self]
    exact ⟨op, rfl⟩
  · exact (h.known ctx op' ho).trans (Nat.lt_succ_self _)
  · rw [openRound_readRounds_of_ne hctx]
    exact h.term ctx op' ho
  · rw [hacked'] at ht
    by_cases htm : t = r.me
    · exact htm ▸ hme
    · rw [List.getD_eq_getElem?_getD, List.getElem?_set_ne (Ne.symm htm), List.getElem?_replicate] at ht
      split_ifs at ht <;> cases ht
  · rw [openRound_readRounds_of_ne hctx]
    exact h.acked ctx op' ho
  · rw [hdone'] at hd
    cases hd
  · rw [openRound_readRounds_of_ne hctx]
    exact h.done ctx op' ho

/-- A reader gets a read index only from a round that is done. -/
theorem readIndexPoll_result {r : Raft} {ctx : Nat} {term readIndex deadline now x : Int}
    (h : (r.readIndexPoll ctx term readIndex deadline now).2 = some x) (hx : 0 ≤ x) :
    x = readIndex ∧ r.killed = false ∧ (r.readRounds ctx).done = true := by
  have hleave : ∀ y, (r.readIndexLeave ctx y).2 = y ∨ (r.readIndexLeave ctx y).2 = -1 := by
    intro y
    rw [readIndexLeave]
    dsimp only
    split_ifs
    · exact .inr rfl
    · exact .inl rfl
  rw [readIndexPoll] at h
  dsimp only at h
  have hneg : ∀ {y : Int}, y < 0 → some (r.readIndexLeave ctx y).2 = some x → False := by
    intro y hy he
    rcases hleave y with hl | hl
    all_goals
      rw [hl, Option.some.injEq] at he
      omega
  split_ifs at h with hk hd hoff
  · exact (hneg (by decide) h).elim
  · refine ⟨?_, by simpa using hk, hd⟩
    rcases hleave readIndex with hl | hl
    all_goals
      rw [hl, Option.some.injEq] at h
      omega
  · exact (hneg (by decide) h).elim

end Raft
end ChonKV
