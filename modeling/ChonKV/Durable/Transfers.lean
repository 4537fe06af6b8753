import ChonKV.Durable.Sender
import Mathlib.Data.List.Perm.Basic

/-!
The transfers of a leader: `snap_in_flight_` is set as long as the last chunk of the transfer is to be
answered, or a callback of a chunk waits that will clear it.
-/

set_option autoImplicit false

namespace ChonKV

open Function (update)

theorem pairwise_of_countP_le_one {α : Type} {q : α → Bool} {R : α → α → Prop} {l : List α}
    (h : l.countP q ≤ 1) : l.Pairwise fun a b => q a = true → q b = true → R a b := by
  induction l with
  | nil => exact .nil
  | cons a l ih =>
    rw [List.countP_cons] at h
    refine .cons (fun b hb ha hqb => ?_) (ih (by omega))
    have hpos : 0 < l.countP q := List.countP_pos_iff.mpr ⟨b, hb, hqb⟩
    rw [if_pos ha] at h
    omega

namespace Raft

/-- All chunks of a transfer carry its term, its index and its epoch. -/
theorem mem_snapshotChunks {base c : InstallSnapshotArgs} {k off : Nat} {rest : Bytes}
    (h : c ∈ snapshotChunks base k off rest) : c.term = base.term ∧ c.epoch = base.epoch ∧
      c.lastIncludedIndex = base.lastIncludedIndex := by
  induction k generalizing off rest with
  | zero => cases h
  | succ k ih =>
    rw [snapshotChunks] at h
    split_ifs at h
    · rw [List.mem_singleton.mp h]
      exact ⟨rfl, rfl, rfl⟩
    · cases h with
      | head => exact ⟨rfl, rfl, rfl⟩
      | tail _ h => exact ih h

/-- One chunk is marked as the last, however long the blob is. -/
theorem countP_done_snapshotChunks (base : InstallSnapshotArgs) {k off : Nat} {rest : Bytes}
    (h : rest.length < k * kSnapshotChunkSize) :
    (snapshotChunks base k off rest).countP InstallSnapshotArgs.done = 1 := by
  induction k generalizing off rest with
  | zero => simp at h
  | succ k ih =>
    rw [snapshotChunks]
    split_ifs with hlast
    · simp [hlast]
    · rw [List.countP_cons_of_neg (by simp [hlast])]
      refine ih ?_
      rw [Nat.add_mul, Nat.one_mul] at h
      rw [List.length_drop]
      omega

/-- A blob of two chunks. -/
theorem snapshotChunks_two (base : InstallSnapshotArgs) {rest : Bytes} (h : kSnapshotChunkSize < rest.length)
    (hle : rest.length < 2 * kSnapshotChunkSize) :
    snapshotChunks base (rest.length / kSnapshotChunkSize + 1) 0 rest =
      [{ base with
          offset := 0
          chunkSize := (rest.take kSnapshotChunkSize).length
          done := false
          data := rest.take kSnapshotChunkSize },
        { base with
          offset := kSnapshotChunkSize
          chunkSize := ((rest.drop kSnapshotChunkSize).take kSnapshotChunkSize).length
          done := true
          data := (rest.drop kSnapshotChunkSize).take kSnapshotChunkSize }] := by
  have htwo : rest.length / kSnapshotChunkSize = 1 := by
    rw [Nat.div_eq_iff (by decide)]
    omega
  have hrest : (rest.drop kSnapshotChunkSize).length ≤ kSnapshotChunkSize := by
    rw [List.length_drop]
    omega
  rw [htwo, snapshotChunks, if_neg (by omega), snapshotChunks, if_pos hrest, Nat.zero_add]
  simp only [hrest, decide_true, not_le.mpr h, decide_false]
  rfl

/-- What the chunks of the next transfer to `s` have in common. -/
def transferArgs (r : Raft) (s : Nat) : InstallSnapshotArgs :=
  { term := r.currentTerm, leaderId := r.me, lastIncludedIndex := r.snapshotIndex
    lastIncludedTerm := r.snapshotTerm
    crc := if r.snapCrcIndex ≠ r.snapshotIndex then crc32 r.snapshotData else r.snapCrc
    epoch := r.snapEpoch.getD s 0 + 1
    members := r.isMember.map MemberRole.toInt }

/-- `r` becomes `r'` as a turn of `ReplicateLoop(s)` starts a transfer. -/
structure Starts (r : Raft) (s : Nat) (r' : Raft) (chunks : List InstallSnapshotArgs) : Prop where
  leader : r.state = .kLeader
  idle : r.snapInFlight.getD s false = false
  office : r'.officePart = r.officePart
  cursors : r'.cursorPart = r.cursorPart
  logs : r'.logs = r.logs
  transfers : r'.transferPart =
    (r.snapInFlight.set s true, r.snapEpoch.set s (r.snapEpoch.getD s 0 + 1))
  cut : chunks = snapshotChunks (r.transferArgs s) (r.snapshotData.length / kSnapshotChunkSize + 1) 0
    r.snapshotData

variable {r r' : Raft} {s : Nat} {chunks : List InstallSnapshotArgs}

theorem Starts.chunk (h : Starts r s r' chunks) : ∀ c ∈ chunks, c.term = r.currentTerm ∧
    c.epoch = r.snapEpoch.getD s 0 + 1 ∧ c.lastIncludedIndex = r.snapshotIndex := by
  intro c hc
  rw [h.cut] at hc
  exact mem_snapshotChunks hc

theorem Starts.once (h : Starts r s r' chunks) : chunks.countP InstallSnapshotArgs.done = 1 := by
  rw [h.cut]
  exact countP_done_snapshotChunks _ (Nat.lt_mul_of_div_lt (Nat.lt_succ_self _) (by decide))

theorem starts_sendSnapshot (hl : r.state = .kLeader) (hidle : r.snapInFlight.getD s false = false)
    (now : Int) : Starts r s (r.sendSnapshot s now).1 (r.sendSnapshot s now).2.chunks := by
  rw [sendSnapshot]
  dsimp only [Send.chunks]
  split_ifs with hcrc
  · exact ⟨hl, hidle, rfl, rfl, rfl, rfl, by rw [transferArgs, if_pos hcrc]⟩
  · exact ⟨hl, hidle, rfl, rfl, rfl, rfl, by rw [transferArgs, if_neg hcrc]⟩

theorem tenure_freezeRemoved (r : Raft) (s : Nat) (p : Progress) : Tenure r (r.freezeRemoved s p).1 := by
  rw [freezeRemoved]
  dsimp only
  split_ifs <;> exact .of_part rfl

theorem freezeRemoved_same (r : Raft) (s : Nat) (p : Progress) :
    (r.freezeRemoved s p).2.removed = p.removed ∧ (r.freezeRemoved s p).1.state = r.state := by
  rw [freezeRemoved]
  dsimp only
  split_ifs <;> exact ⟨rfl, rfl⟩

theorem tenure_sendAppend (r : Raft) (s : Nat) (next : Int) (may removed : Bool) (cap now : Int) :
    Tenure r (r.sendAppend s next may removed cap now).1 ∧
      (r.sendAppend s next may removed cap now).2.chunks = [] := by
  rw [sendAppend]
  split_ifs <;> exact ⟨.of_part rfl, rfl⟩

theorem sendTo_transfers (hl : r.state = .kLeader) (p : Progress) (now : Int) :
    (Tenure r (r.sendTo s p now).1 ∧ (r.sendTo s p now).2.chunks = []) ∨
      (p.removed = false ∧ Starts r s (r.sendTo s p now).1 (r.sendTo s p now).2.chunks) := by
  have hbeat : Tenure r { r with lastHeartbeatSeq := r.lastHeartbeatSeq.set s r.heartbeatSeq } :=
    .of_part rfl
  rw [sendTo]
  dsimp only
  split_ifs with hlag
  · simp only [Bool.and_eq_true, Bool.not_eq_true', Bool.not_eq_true] at hlag
    have h := starts_sendSnapshot (s := s)
      (r := { r with lastHeartbeatSeq := r.lastHeartbeatSeq.set s r.heartbeatSeq }) hl hlag.2 now
    exact .inr ⟨hlag.1.2, hl, hlag.2, h.office, h.cursors, h.logs, h.transfers, h.cut⟩
  · obtain ⟨h, hnone⟩ := tenure_sendAppend
      { r with lastHeartbeatSeq := r.lastHeartbeatSeq.set s r.heartbeatSeq } s _ _ p.removed p.removedCap
      now
    exact .inl ⟨hbeat.trans h, hnone⟩

/-- A turn of `ReplicateLoop` starts a transfer, or sends no chunk. -/
theorem replicate_transfers (r : Raft) (s : Nat) (now : Int) :
    (Tenure r (r.replicate s now).1 ∧ (r.replicate s now).2.chunks = []) ∨
      Starts r s (r.replicate s now).1 (r.replicate s now).2.chunks := by
  rw [replicate]
  split_ifs with hno
  · exact .inl ⟨.refl r, rfl⟩
  · exact .inl ⟨.of_part rfl, rfl⟩
  · exact .inl ⟨(abides_convertToFollowerLocked le_rfl).toTenure, rfl⟩
  · have hl : r.state = .kLeader := not_not.mp (not_or.mp hno).2
    have hfreeze := tenure_freezeRemoved r s (r.progress s now)
    cases hremoved : (r.progress s now).removed with
    | false =>
      have hsame : r.freezeRemoved s (r.progress s now) = (r, r.progress s now) :=
        if_pos (by simp [hremoved])
      rw [hsame]
      dsimp only
      split_ifs
      · exact .inl ⟨.refl r, rfl⟩
      · exact (sendTo_transfers hl _ now).imp_right fun h => h.2
    | true =>
      obtain ⟨hstays, hl'⟩ := freezeRemoved_same r s (r.progress s now)
      dsimp only
      split_ifs
      · exact .inl ⟨hfreeze, rfl⟩
      · obtain ⟨h, hnone⟩ | ⟨hnot, -⟩ := sendTo_transfers (s := s) (hl'.trans hl)
          (r.freezeRemoved s (r.progress s now)).2 now
        · exact .inl ⟨hfreeze.trans h, hnone⟩
        · rw [hstays, hremoved] at hnot
          cases hnot

end Raft

open Raft

namespace Process

/-- How a node accounts for its transfers to `s`, where the callbacks of `owed` have not run. -/
structure Accounted (p : Process) (s : Nat) (owed : List InstallSnapshotArgs) (flag : Bool)
    (epoch : Int) : Prop where
  flag_eq : p.raft.snapInFlight[s]? = some flag
  epoch_eq : p.raft.snapEpoch[s]? = some epoch
  term : ∀ c ∈ owed, c.term ≤ p.raft.currentTerm
  candidate : p.raft.state = .kCandidate → ∀ c ∈ owed, c.term < p.raft.currentTerm
  started : ∀ c ∈ owed, c.epoch ≤ epoch
  same : ∀ c ∈ owed, ∀ c' ∈ owed, c.epoch = c'.epoch → c.term = c'.term
  once : owed.Pairwise fun c c' => c.done = true → c'.done = true → c.epoch ≠ c'.epoch
  inFlight : flag = true → (∃ c ∈ owed, c.done = true ∧ c.epoch = epoch) ∨ s ∈ p.hearing
  office : p.raft.state = .kLeader → ∀ c ∈ owed, c.done = true → c.term = p.raft.currentTerm →
    c.epoch = epoch ∧ flag = true
  heard : s ∈ p.hearing → ∀ c ∈ owed, c.term < p.raft.currentTerm

variable {p p' : Process} {s : Nat} {owed owed' : List InstallSnapshotArgs} {flag flag' : Bool}
  {epoch : Int}

/-- A flag that is not kept may be cleared where no last chunk of the leader's term is to be answered. -/
def Keeps (p : Process) (owed : List InstallSnapshotArgs) (flag flag' : Bool) : Prop :=
  flag' = flag ∨ (flag' = false ∧
    (p.raft.state = .kLeader → ∀ c ∈ owed, c.done = true → c.term ≠ p.raft.currentTerm))

/-- What is left of the account after some callbacks, in another office or another term. -/
theorem Accounted.change (h : p.Accounted s owed flag epoch) (ho : Office p.raft p'.raft)
    (hsub : owed'.Sublist owed) (hkeeps : p.Keeps owed' flag flag')
    (hflag : p'.raft.snapInFlight[s]? = some flag') (hepoch : p'.raft.snapEpoch[s]? = some epoch)
    (hin : flag' = true → (∃ c ∈ owed', c.done = true ∧ c.epoch = epoch) ∨ s ∈ p'.hearing)
    (hnew : s ∈ p'.hearing → s ∈ p.hearing ∨ p.raft.currentTerm < p'.raft.currentTerm) :
    p'.Accounted s owed' flag' epoch := by
  have hterm := ho.term
  have hmem : ∀ c ∈ owed', c ∈ owed := fun c hc => hsub.subset hc
  -- a chunk of the term was sent by the leader of that term
  have hbefore : p'.raft.state ≠ .kFollower → ∀ c ∈ owed, c.term = p'.raft.currentTerm →
      p.raft.state = .kLeader ∧ p'.raft.state = .kLeader ∧ c.term = p.raft.currentTerm := by
    intro hstate c hc hcur
    have hle := h.term c hc
    obtain hlt | ⟨heq, hnot, hstays⟩ := ho.office hstate
    · omega
    · cases hst : p.raft.state with
      | kFollower => exact absurd hst hnot
      | kCandidate =>
        have hlt := h.candidate hst c hc
        omega
      | kLeader => exact ⟨rfl, hstays hst, hcur.trans heq⟩
  refine ⟨hflag, hepoch, fun c hc => (h.term c (hmem c hc)).trans hterm, ?_,
    fun c hc => h.started c (hmem c hc), fun c hc c' hc' => h.same c (hmem c hc) c' (hmem c' hc'),
    h.once.sublist hsub, hin, ?_, ?_⟩
  · intro hcand c hc
    refine lt_of_le_of_ne ((h.term c (hmem c hc)).trans hterm) fun heq => ?_
    have hl := (hbefore (by simp [hcand]) c (hmem c hc) heq).2.1
    rw [hcand] at hl
    cases hl
  · intro hl c hc hdone hcur
    obtain ⟨hl₀, -, hcur₀⟩ := hbefore (by simp [hl]) c (hmem c hc) hcur
    obtain heq | ⟨-, hnone⟩ := hkeeps
    · rw [heq]
      exact h.office hl₀ c (hmem c hc) hdone hcur₀
    · exact absurd hcur₀ (hnone hl₀ c hc hdone)
  · intro hw c hc
    obtain hw | hlt := hnew hw
    · exact (h.heard hw c (hmem c hc)).trans_le hterm
    · exact (h.term c (hmem c hc)).trans_lt hlt

/-- A step that has nothing to do with a transfer. -/
theorem Accounted.serves (h : p.Accounted s owed flag epoch) (hs : Serves Tenure p p') :
    p'.Accounted s owed flag epoch := by
  have htransfers := hs.raft.transfers
  simp only [transferPart, Prod.mk.injEq] at htransfers
  obtain ⟨hflags, hepochs⟩ := htransfers
  refine h.change hs.raft.toOffice (List.Sublist.refl _) (.inl rfl) (hflags ▸ h.flag_eq)
    (hepochs ▸ h.epoch_eq) ?_ ?_
  · rw [hs.hearing]
    exact h.inFlight
  · rw [hs.hearing]
    exact .inl

/-- The leader starts a transfer to `s`. -/
theorem Accounted.starts (h : p.Accounted s owed flag epoch) {chunks : List InstallSnapshotArgs}
    (hs : Starts p.raft s p'.raft chunks) (hthreads : p'.hearing = p.hearing) (hwait : s ∉ p.hearing) :
    p'.Accounted s (owed ++ chunks) true (epoch + 1) := by
  have hchunk := hs.chunk
  have honce := hs.once
  obtain ⟨hl, hidle, hoffice, -, -, htransfers, -⟩ := hs
  simp only [officePart, transferPart, Prod.mk.injEq] at hoffice htransfers
  obtain ⟨-, -, hstate, hterm⟩ := hoffice
  obtain ⟨hflags, hepochs⟩ := htransfers
  obtain ⟨hs₁, -⟩ := List.getElem?_eq_some_iff.mp h.flag_eq
  obtain ⟨hs₂, -⟩ := List.getElem?_eq_some_iff.mp h.epoch_eq
  have hnow : p.raft.snapEpoch.getD s 0 = epoch := by
    rw [List.getD_eq_getElem?_getD, h.epoch_eq, Option.getD_some]
  have hclear : flag = false := by
    rw [List.getD_eq_getElem?_getD, h.flag_eq, Option.getD_some] at hidle
    exact hidle
  rw [hnow] at hchunk hepochs
  have hnone : ∀ c ∈ owed, c.done = true → c.term ≠ p.raft.currentTerm := by
    intro c hc hdone hcur
    have hset := (h.office hl c hc hdone hcur).2
    rw [hclear] at hset
    cases hset
  obtain ⟨c₀, hc₀, hdone₀⟩ : ∃ c ∈ chunks, c.done = true :=
    List.countP_pos_iff.mp (honce.symm ▸ Nat.one_pos)
  have hold : ∀ c ∈ owed, ∀ c' ∈ chunks, c.epoch ≠ c'.epoch := by
    intro c hc c' hc'
    have hle := h.started c hc
    have heq := (hchunk c' hc').2.1
    omega
  constructor
  · rw [hflags, List.getElem?_set_self hs₁]
  · rw [hepochs, List.getElem?_set_self hs₂]
  · rw [List.forall_mem_append, hterm]
    exact ⟨h.term, fun c hc => (hchunk c hc).1.le⟩
  · intro hcand
    rw [hstate, hl] at hcand
    cases hcand
  · rw [List.forall_mem_append]
    exact ⟨fun c hc => (h.started c hc).trans (by omega), fun c hc => (hchunk c hc).2.1.le⟩
  · intro c hc c' hc' heq
    obtain hc | hc := List.mem_append.mp hc
    · obtain hc' | hc' := List.mem_append.mp hc'
      · exact h.same c hc c' hc' heq
      · exact absurd heq (hold c hc c' hc')
    · obtain hc' | hc' := List.mem_append.mp hc'
      · exact absurd heq.symm (hold c' hc' c hc)
      · exact (hchunk c hc).1.trans (hchunk c' hc').1.symm
  · exact List.pairwise_append.mpr ⟨h.once, pairwise_of_countP_le_one honce.le,
      fun c hc c' hc' _ _ => hold c hc c' hc'⟩
  · exact fun _ => .inl ⟨c₀, List.mem_append_right _ hc₀, hdone₀, (hchunk c₀ hc₀).2.1⟩
  · intro _ c hc hdone hcur
    obtain hc | hc := List.mem_append.mp hc
    · exact absurd (hcur.trans hterm) (hnone c hc hdone)
    · exact ⟨(hchunk c hc).2.1, rfl⟩
  · intro hw
    exact absurd (hthreads ▸ hw) hwait

theorem hearing_wait (p : Process) (r : Raft) (i : Nat) :
    (p.wait r (.snapshotHeard i)).hearing = p.hearing ++ [i] := by
  simp [hearing, wait, Stretch.heardFrom]

/-- What a callback that does not step down does to the flag. -/
theorem snapshotReply_transfers {r : Raft} (args : InstallSnapshotArgs) (i : Nat) {ok : Bool}
    {reply : InstallSnapshotReply} (now : Int) (hlive : r.killed = false)
    (hterm : ¬ r.currentTerm < if ok then reply.term else 0) :
    (r.snapshotReply args i ok reply now).officePart = r.officePart ∧
      (r.snapshotReply args i ok reply now).snapEpoch = r.snapEpoch ∧
      (((r.snapshotReply args i ok reply now).snapInFlight = r.snapInFlight ∧
          (args.done = true → args.epoch ≠ r.snapEpoch.getD i 0)) ∨
        ((r.snapshotReply args i ok reply now).snapInFlight = r.snapInFlight.set i false ∧
          ((args.epoch = r.snapEpoch.getD i 0 ∧ (r.state = .kLeader → args.term ≠ r.currentTerm)) ∨
            (args.done = true ∧ args.term = r.currentTerm ∧ r.state = .kLeader)))) := by
  have hreached : (r.noteReached i ok).currentTerm = r.currentTerm := rfl
  rw [Raft.snapshotReply, if_neg (by simp [hlive])]
  dsimp only
  rw [if_neg (hreached ▸ hterm)]
  split_ifs with hstale hepoch hdone
  · refine ⟨rfl, rfl, .inr ⟨rfl, .inl ⟨hepoch, fun hl hcur => ?_⟩⟩⟩
    exact hstale.elim (fun hne => hne hcur) fun hne => hne hl
  · exact ⟨rfl, rfl, .inl ⟨rfl, fun _ => hepoch⟩⟩
  · rw [not_or, not_not, not_not] at hstale
    exact ⟨rfl, rfl, .inr ⟨rfl, .inr ⟨hdone, hstale⟩⟩⟩
  · rw [not_or, not_not, not_not] at hstale
    exact ⟨rfl, rfl, .inr ⟨rfl, .inr ⟨hdone, hstale⟩⟩⟩
  · exact ⟨rfl, rfl, .inl ⟨rfl, fun hd => absurd hd hdone⟩⟩

/-- The callback of a chunk that went to `i`. -/
theorem Accounted.snapshotReply (h : p.Accounted s owed flag epoch) {args : InstallSnapshotArgs} {i : Nat}
    (hlive : p.raft.killed = false) (hargs : i = s → args ∈ owed) (ok : Bool)
    (reply : InstallSnapshotReply) (now : Int) :
    ∃ flag', (p.snapshotReply args i ok reply now).Accounted s
      (if i = s then owed.erase args else owed) flag' epoch := by
  have hsub : (if i = s then owed.erase args else owed).Sublist owed := by
    split_ifs
    · exact List.erase_sublist
    · exact .refl _
  have hnow : p.raft.snapEpoch.getD s 0 = epoch := by
    rw [List.getD_eq_getElem?_getD, h.epoch_eq, Option.getD_some]
  rw [Process.snapshotReply, callback]
  by_cases hdown : ¬ (p.raft.noteReached i ok).killed ∧
      (p.raft.noteReached i ok).currentTerm < if ok then reply.term else 0
  · have hconvert : Abides (p.raft.noteReached i ok) ((p.raft.noteReached i ok).convertToFollowerLocked
        (if ok then reply.term else 0)) := abides_convertToFollowerLocked hdown.2.le
    have htenure := ((abides_noteReached p.raft i ok).trans hconvert).toTenure
    have htransfers := htenure.transfers
    simp only [transferPart, Prod.mk.injEq] at htransfers
    obtain ⟨hflags, hepochs⟩ := htransfers
    have hconverted := convertToFollowerLocked_officePart (p.raft.noteReached i ok)
      (if ok then reply.term else 0)
    simp only [officePart, Prod.mk.injEq] at hconverted
    rw [if_pos hdown]
    refine ⟨flag, h.change htenure.toOffice hsub (.inl rfl) ((congrArg (·[s]?) hflags).trans h.flag_eq)
      ((congrArg (·[s]?) hepochs).trans h.epoch_eq) ?_ ?_⟩
    · rw [hearing_wait]
      intro hf
      by_cases hi : i = s
      · exact .inr (by simp [hi])
      · rw [if_neg hi]
        exact (h.inFlight hf).imp_right fun hw => List.mem_append_left _ hw
    · rw [hearing_wait]
      intro hw
      obtain hw | hw := List.mem_append.mp hw
      · exact .inl hw
      · exact .inr (hdown.2.trans_eq hconverted.2.2.2.symm)
  · have hterm : ¬ p.raft.currentTerm < if ok then reply.term else 0 :=
      fun hlt => hdown ⟨by simp [noteReached, hlive], hlt⟩
    obtain ⟨hoffice, hepochs, hflags⟩ := snapshotReply_transfers args i now hlive hterm
    rw [if_neg hdown]
    have hmoves : Office p.raft ({ p with raft := p.raft.snapshotReply args i ok reply now } : Process).raft :=
      .of_part hoffice
    have hchange := fun f (hk : p.Keeps _ flag f) hf hin => h.change hmoves hsub hk hf
      ((congrArg (·[s]?) hepochs).trans h.epoch_eq) hin .inl
    by_cases hi : i = s
    · subst hi
      rw [if_pos rfl] at hchange ⊢
      rw [hnow] at hflags
      obtain ⟨hkept, hother⟩ | ⟨hcleared, hwhy⟩ := hflags
      · refine ⟨flag, hchange flag (.inl rfl) ((congrArg (·[i]?) hkept).trans h.flag_eq) fun hf => ?_⟩
        refine (h.inFlight hf).imp_left fun hlast => ?_
        obtain ⟨c, hc, hdone, heq⟩ := hlast
        have hne : c ≠ args := by
          rintro rfl
          exact hother hdone heq
        exact ⟨c, (List.mem_erase_of_ne hne).mpr hc, hdone, heq⟩
      · refine ⟨false, hchange false (.inr ⟨rfl, fun hl c hc hdone hcur => ?_⟩) ?_ (by simp)⟩
        · have hcpart := h.office hl c (List.mem_of_mem_erase hc) hdone hcur
          have hsame : args.epoch = epoch ∧ args.done = true := by
            obtain ⟨heq, hnot⟩ | ⟨hlast, hterm', -⟩ := hwhy
            · have hargterm := h.same args (hargs rfl) c (List.mem_of_mem_erase hc) (heq.trans hcpart.1.symm)
              exact absurd (hargterm.trans hcur) (hnot hl)
            · exact ⟨(h.office hl args (hargs rfl) hlast hterm').1, hlast⟩
          have honce := (List.perm_cons_erase (hargs rfl)).pairwise_iff
            (R := fun c c' : InstallSnapshotArgs => c.done = true → c'.done = true → c.epoch ≠ c'.epoch)
            (fun hR hd hd' => (hR hd' hd).symm)
          exact (List.pairwise_cons.mp (honce.mp h.once)).1 c hc hsame.2 hdone
            (hsame.1.trans hcpart.1.symm)
        · obtain ⟨hlt, -⟩ := List.getElem?_eq_some_iff.mp h.flag_eq
          rw [hcleared, List.getElem?_set_self hlt]
    · have hflag : (p.raft.snapshotReply args i ok reply now).snapInFlight[s]? = some flag := by
        obtain ⟨hkept, -⟩ | ⟨hcleared, -⟩ := hflags
        · rw [hkept, h.flag_eq]
        · rw [hcleared, List.getElem?_set_ne hi, h.flag_eq]
      rw [if_neg hi] at hchange ⊢
      exact ⟨flag, hchange flag (.inl rfl) hflag h.inFlight⟩

theorem mem_hearing : s ∈ p.hearing ↔ ∃ t ∈ p.threads, t.stretch.heardFrom = some s := by
  simp [hearing]

/-- A callback that stepped down goes on, and clears the flag. -/
theorem Accounted.heard_resume (h : p.Accounted s owed flag epoch) {k i : Nat} {t : Thread}
    (ht : p.threads[k]? = some t) (hst : t.stretch = .snapshotHeard i) (now : Int) :
    ∃ flag', (p.resume k now).Accounted s owed flag' epoch := by
  rw [Process.resume, ht]
  dsimp only
  split_ifs
  · rw [hst]
    have hback : s ∈ ({ p with threads := p.threads.eraseIdx k } : Process).hearing → s ∈ p.hearing := by
      rw [mem_hearing, mem_hearing]
      rintro ⟨t', ht', hs⟩
      exact ⟨t', List.mem_of_mem_eraseIdx ht', hs⟩
    have hmoves : Office p.raft
        (({ p with threads := p.threads.eraseIdx k } : Process).runStretch now (.snapshotHeard i)).raft :=
      .of_part rfl
    have hchange := fun f (hk : p.Keeps owed flag f) hf hin => h.change hmoves (List.Sublist.refl owed) hk
      hf h.epoch_eq hin fun hw => .inl (hback hw)
    by_cases hi : i = s
    · subst hi
      have hw : i ∈ p.hearing := mem_hearing.mpr ⟨t, List.mem_of_getElem? ht, by rw [hst]; rfl⟩
      obtain ⟨hlt, -⟩ := List.getElem?_eq_some_iff.mp h.flag_eq
      refine ⟨false, hchange false (.inr ⟨rfl, fun _ c hc _ => ?_⟩) (List.getElem?_set_self hlt) (by simp)⟩
      exact (h.heard hw c hc).ne
    · refine ⟨flag, hchange flag (.inl rfl) ((List.getElem?_set_ne hi).trans h.flag_eq) fun hf => ?_⟩
      refine (h.inFlight hf).imp_right fun hw => ?_
      obtain ⟨t', ht', hs⟩ := mem_hearing.mp hw
      obtain ⟨j, hj⟩ := List.mem_iff_getElem?.mp ht'
      have hne : j ≠ k := by
        rintro rfl
        rw [ht] at hj
        cases hj
        rw [hst] at hs
        exact hi (Option.some.inj hs)
      exact mem_hearing.mpr ⟨t', List.mem_eraseIdx_iff_getElem?.mpr ⟨j, hne, hj⟩, hs⟩
  · exact ⟨flag, h⟩

/-- A process that has just come up owes nothing. -/
theorem accounted_make (peers me : Nat) (d : Disk) (now : Int) (hs : s < peers) :
    ({ raft := make peers me d now } : Process).Accounted s [] false 0 := by
  refine ⟨?_, ?_, by simp, by simp, by simp, by simp, .nil, by simp, by simp, by simp⟩
  · exact List.getElem?_replicate_of_lt hs
  · exact List.getElem?_replicate_of_lt hs

end Process

namespace Sender

/-- The account of the transfers to `s`, as long as the node is not killed. -/
def Accounted (s : Nat) (x : Sender) : Prop :=
  s < x.process.raft.peers ∧ (x.process.raft.killed = false →
    ∃ flag epoch, x.process.Accounted s (x.owed s) flag epoch)

/-- Each callback of a chunk runs at most once. -/
def Delivered (x : Sender) : ProcessEvent → Prop
  | .snapshotReply args s _ _ _ => args ∈ x.owed s
  | _ => True

/-- No transfer is started to a follower while the callback of a chunk for it waits that has stepped
down. -/
def Orderly (x : Sender) : ProcessEvent → Prop
  | .replicate s now => (x.process.raft.replicate s now).2.chunks ≠ [] → s ∉ x.process.hearing
  | _ => True

instance (x : Sender) (e : ProcessEvent) : Decidable (x.Delivered e) := by
  apply e.casesOn (motive := fun e => Decidable (x.Delivered e)) <;> intros <;> dsimp only [Delivered] <;>
    infer_instance

instance (x : Sender) (e : ProcessEvent) : Decidable (x.Orderly e) := by
  apply e.casesOn (motive := fun e => Decidable (x.Orderly e)) <;> intros <;> dsimp only [Orderly] <;>
    infer_instance

variable {x : Sender} {e : ProcessEvent} {s : Nat}

theorem office_snapshotReply (p : Process) (args : InstallSnapshotArgs) (i : Nat) (ok : Bool)
    (reply : InstallSnapshotReply) (now : Int) :
    Office p.raft (p.snapshotReply args i ok reply now).raft := by
  rw [Process.snapshotReply, Process.callback]
  by_cases hdown : ¬ (p.raft.noteReached i ok).killed ∧
      (p.raft.noteReached i ok).currentTerm < if ok then reply.term else 0
  · rw [if_pos hdown]
    exact (abides_noteReached p.raft i ok).toOffice.trans
      (abides_convertToFollowerLocked hdown.2.le).toOffice
  · rw [if_neg hdown]
    cases hlive : p.raft.killed with
    | true =>
      have hsame : p.raft.snapshotReply args i ok reply now = p.raft := if_pos hlive
      rw [hsame]
      exact .refl _
    | false =>
      have hterm : ¬ p.raft.currentTerm < if ok then reply.term else 0 :=
        fun hlt => hdown ⟨by simp [noteReached, hlive], hlt⟩
      exact .of_part (Process.snapshotReply_transfers _ _ _ hlive hterm).1

theorem office_replicate (r : Raft) (s : Nat) (now : Int) : Office r (r.replicate s now).1 := by
  obtain ⟨h, -⟩ | h := replicate_transfers r s now
  · exact h.toOffice
  · exact .of_part h.office

/-- The callback that a thread goes on with. -/
theorem routine_or_heard (p : Process) (k : Nat) (now : Int) :
    p.Routine (.resume k now) ∨ ∃ t i, p.threads[k]? = some t ∧ t.stretch = .snapshotHeard i := by
  by_cases h : p.Routine (.resume k now)
  · exact .inl h
  · simp only [Process.Routine, not_forall] at h
    obtain ⟨t, ht, hne⟩ := h
    refine .inr ⟨t, ?_⟩
    cases hst : t.stretch with
    | snapshotHeard i => exact ⟨i, ht, rfl⟩
    | _ => exact absurd (by rw [hst]; rfl) hne

/-- All but a restart. -/
theorem step_office (p : Process) (he : ∀ now, e ≠ .restart now) : Office p.raft (p.step e).raft := by
  have hroutine : p.Routine e → Office p.raft (p.step e).raft := fun h =>
    (Process.serves_step h (Process.tenure_handles p e)).raft.toOffice
  cases e with
  | snapshotReply args i ok reply now => exact office_snapshotReply p args i ok reply now
  | replicate i now => exact office_replicate _ i now
  | restart now => exact absurd rfl (he now)
  | resume k now =>
    obtain h | ⟨t, i, ht, hst⟩ := routine_or_heard p k now
    · exact hroutine h
    · rw [Process.step, Process.resume, ht]
      dsimp only
      split_ifs
      · rw [hst]
        exact .of_part rfl
      · exact .refl _
  | _ => exact hroutine trivial

theorem Accounted.step (h : x.Accounted s) (hd : x.Delivered e) (he : x.Orderly e) : (x.step e).Accounted s := by
  obtain ⟨hs, hacc⟩ := h
  by_cases hrestart : ∃ now, e = .restart now
  · obtain ⟨now, rfl⟩ := hrestart
    have hpeers := (make_members x.process.raft.peers x.process.raft.me x.process.disk now).1
    exact ⟨hs.trans_eq hpeers.symm, fun _ => ⟨false, 0, Process.accounted_make _ _ _ now hs⟩⟩
  have hoffice := step_office x.process fun now heq => hrestart ⟨now, heq⟩
  rw [Accounted, step_process]
  refine ⟨hs.trans_eq hoffice.peers.symm, fun hlive => ?_⟩
  have hlive₀ : x.process.raft.killed = false := by
    by_contra hk
    rw [Bool.not_eq_false] at hk
    rw [hoffice.killed hk] at hlive
    cases hlive
  obtain ⟨flag, epoch, h⟩ := hacc hlive₀
  have hroutine : x.process.Routine e → ∃ flag epoch,
      (x.process.step e).Accounted s (x.owed s) flag epoch := fun hr =>
    ⟨flag, epoch, h.serves (Process.serves_step hr (Process.tenure_handles x.process e))⟩
  cases e with
  | snapshotReply args i ok reply now =>
    have hargs : i = s → args ∈ x.owed s := by
      rintro rfl
      exact hd
    obtain ⟨flag', h'⟩ := h.snapshotReply hlive₀ hargs ok reply now
    refine ⟨flag', epoch, ?_⟩
    have howed : (x.step (.snapshotReply args i ok reply now)).owed s =
        if i = s then (x.owed s).erase args else x.owed s := by
      rw [Sender.step]
      dsimp only
      rw [Function.update_apply]
      by_cases hi : i = s
      · rw [if_pos hi.symm, if_pos hi, hi]
      · rw [if_neg (Ne.symm hi), if_neg hi]
    rw [howed]
    exact h'
  | replicate i now =>
    have howed : ∀ chunks, (x.process.raft.replicate i now).2.chunks = chunks →
        (x.step (.replicate i now)).owed s = if i = s then x.owed s ++ chunks else x.owed s := by
      rintro _ rfl
      rw [Sender.step]
      dsimp only
      rw [Function.update_apply]
      by_cases hi : i = s
      · rw [if_pos hi.symm, if_pos hi, hi]
      · rw [if_neg (Ne.symm hi), if_neg hi]
    obtain ⟨htenure, hnone⟩ | hstarts := replicate_transfers x.process.raft i now
    · refine ⟨flag, epoch, ?_⟩
      rw [howed [] hnone, List.append_nil, ite_self]
      exact h.serves (Process.serves_raft htenure)
    · rw [howed _ rfl]
      by_cases hi : i = s
      · subst hi
        have hsome : (x.process.raft.replicate i now).2.chunks ≠ [] := by
          intro hnone
          have honce := hstarts.once
          rw [hnone] at honce
          cases honce
        rw [if_pos rfl]
        have hmoved : ({ x.process with raft := (x.process.raft.replicate i now).1 } : Process).Accounted i _
            true (epoch + 1) := h.starts hstarts rfl (he hsome)
        exact ⟨true, epoch + 1, hmoved⟩
      · have htransfers := hstarts.transfers
        simp only [transferPart, Prod.mk.injEq] at htransfers
        obtain ⟨hflags, hepochs⟩ := htransfers
        rw [if_neg hi]
        refine ⟨flag, epoch, h.change (.of_part hstarts.office) (List.Sublist.refl _) (.inl rfl) ?_ ?_
          h.inFlight .inl⟩
        · exact ((congrArg (·[s]?) hflags).trans (List.getElem?_set_ne hi)).trans h.flag_eq
        · exact ((congrArg (·[s]?) hepochs).trans (List.getElem?_set_ne hi)).trans h.epoch_eq
  | restart now => exact absurd ⟨now, rfl⟩ hrestart
  | resume k now =>
    obtain hr | ⟨t, i, ht, hst⟩ := routine_or_heard x.process k now
    · exact hroutine hr
    · obtain ⟨flag', h'⟩ := h.heard_resume ht hst now
      exact ⟨flag', epoch, h'⟩
  | _ => exact hroutine trivial

/-- Two last chunks of one term are of one transfer. -/
theorem countP_le_one {owed : List InstallSnapshotArgs} {q : InstallSnapshotArgs → Bool} {e : Int}
    (honce : owed.Pairwise fun c c' => c.done = true → c'.done = true → c.epoch ≠ c'.epoch)
    (hq : ∀ c ∈ owed, q c = true → c.done = true ∧ c.epoch = e) : owed.countP q ≤ 1 := by
  induction owed with
  | nil => simp
  | cons c owed ih =>
    obtain ⟨hfirst, hrest⟩ := List.pairwise_cons.mp honce
    rw [List.countP_cons]
    split_ifs with hc
    · have hnone : owed.countP q = 0 := by
        rw [List.countP_eq_zero]
        intro c' hc' hq'
        obtain ⟨hd, he⟩ := hq c List.mem_cons_self hc
        obtain ⟨hd', he'⟩ := hq c' (List.mem_cons_of_mem _ hc') hq'
        exact hfirst c' hc' hd hd' (he.trans he'.symm)
      omega
    · exact ih hrest fun c' hc' => hq c' (List.mem_cons_of_mem _ hc')

/-- In every state of such a run of a node that is not killed, `snap_in_flight_[s]` is set only as long as
the callback of the last chunk of the newest transfer to `s` has not run, or a callback that stepped down
waits and will clear it; and a leader has at most one transfer of its term to `s` whose last chunk is to be
answered. -/
theorem transfer_in_flight (peers me : Nat) (d : Disk) (now : Int) (es : List ProcessEvent)
    (hes : Meets (fun x e => x.Delivered e ∧ x.Orderly e) (boot peers me d now) es) :
    let x := (boot peers me d now).run es
    x.process.raft.killed = false → ∀ s < peers,
      (x.process.raft.snapInFlight.getD s false = true →
        (∃ c ∈ x.owed s, c.done = true ∧ c.epoch = x.process.raft.snapEpoch.getD s 0) ∨
          s ∈ x.process.hearing) ∧
      (x.process.raft.state = .kLeader →
        (x.owed s).countP (fun c => c.done && decide (c.term = x.process.raft.currentTerm)) ≤ 1) := by
  intro x hlive s hs
  have hboot : (boot peers me d now).Accounted s :=
    ⟨hs.trans_eq (make_members peers me d now).1.symm,
      fun _ => ⟨false, 0, Process.accounted_make peers me d now hs⟩⟩
  have h : x.Accounted s := run_induction (fun _ _ hx he => hx.step he.1 he.2) hboot hes
  obtain ⟨flag, epoch, h⟩ := h.2 hlive
  rw [List.getD_eq_getElem?_getD, h.flag_eq, List.getD_eq_getElem?_getD, h.epoch_eq]
  refine ⟨h.inFlight, fun hl => countP_le_one (e := epoch) h.once fun c hc hq => ?_⟩
  rw [Bool.and_eq_true, decide_eq_true_eq] at hq
  exact ⟨hq.1, (h.office hl c hc hq.1 hq.2).1⟩

end Sender

/-- Node 0 of three takes a snapshot at entry 1 of two, is elected in term 2, and opens a transfer to node
2, which has told it that its log is empty. -/
def shipsTo2 (data : Bytes) : List ProcessEvent :=
  [.appendEntries
      { term := 1, leaderId := 1, leaderCommit := 2
        entries := [{ term := 1, index := 1 }, { term := 1, index := 2 }] } 0,
    .flush, .flush, .flush, .resume 0 0, .applyLoop 0, .snapshot 1 data, .resume 0 0, .writeBlob,
    .writeBlob, .resume 0 0, .flush, .flush, .flush, .resume 0 0, .electionTimeout 200,
    .prevoteReply { term := 1, candidateId := 0, lastLogIndex := 2, lastLogTerm := 1 } 1
      { term := 1, voteGranted := true } 200, .resume 0 200, .flush, .flush, .flush, .resume 0 200,
    .voteReply { term := 2, candidateId := 0, lastLogIndex := 2, lastLogTerm := 1 } 1
      { term := 2, voteGranted := true } 200, .replicate 2 250,
    .appendReply { term := 2, leaderId := 0, leaderCommit := 2, prevLogIndex := 2, prevLogTerm := 1 } 2
      true { term := 2, nextIndex := 1 } 260, .replicate 2 260]

open Sender

theorem transfer_in_flight_shipped :
    let x := (Sender.boot 3 0 { persister := { fileBacked := true } } 0).run (shipsTo2 [7])
    x.process.raft.snapInFlight.getD 2 false = true ∧
      ((∃ c ∈ x.owed 2, c.done = true ∧ c.epoch = x.process.raft.snapEpoch.getD 2 0) ∨
        2 ∈ x.process.hearing) ∧
      (x.owed 2).countP (fun c => c.done && decide (c.term = x.process.raft.currentTerm)) ≤ 1 := by
  have h := transfer_in_flight 3 0 { persister := { fileBacked := true } } 0 (shipsTo2 [7])
    (by decide +kernel) (by decide +kernel) 2 (by decide)
  have hflag : ((Sender.boot 3 0 { persister := { fileBacked := true } } 0).run
      (shipsTo2 [7])).process.raft.snapInFlight.getD 2 false = true := by
    decide +kernel
  exact ⟨hflag, h.1 hflag, h.2 (by decide +kernel)⟩

/-- Where no other thread comes in between, `Raft::Snapshot` leaves the leader with its snapshot. -/
theorem Process.snapshotData_of_snapshot {p : Process} {index : Int} (term : Int) (data : Bytes) (now : Int)
    (hcheck : p.raft.snapshotCheck index = some term) (hio : p.io = none) (hthreads : p.threads = [])
    (hsaved : p.raft.savedBlobIndex < index) :
    (p.run [.snapshot index data, .resume 0 now, .writeBlob, .writeBlob, .resume 0 now]).raft.snapshotData =
      data := by
  obtain ⟨r, threads, io, flusher, applier, applyCh⟩ := p
  dsimp only at hcheck hio hthreads hsaved
  subst hio hthreads
  -- phase 0 takes the lock off, and phase 1 writes the blob
  have hphase : Process.step ⟨r, [], none, flusher, applier, applyCh⟩ (.snapshot index data) =
      ⟨r, [⟨.saveBlob (.snapshot index term data), 0⟩], none, flusher, applier, applyCh⟩ := by
    simp [Process.step, Process.snapshot, hcheck, Process.spawn]
  have hsave : Process.step ⟨r, [⟨.saveBlob (.snapshot index term data), 0⟩], none, flusher, applier, applyCh⟩
      (.resume 0 now) = ⟨r, [], some (.snapshot index term data, false), flusher, applier, applyCh⟩ := by
    simp [Process.step, Process.resume, Process.ready, Process.runStretch, Process.saveBlob, BlobUser.blob,
      hsaved]
  have hcommit : ∀ r' : Raft, r'.snapshotCheck index = some term →
      (Process.step ⟨r', [⟨.snapshotCommit index term data, 0⟩], none, flusher, applier, applyCh⟩
        (.resume 0 now)).raft.snapshotData = data := by
    intro r' hcheck'
    have hkeep : (r'.snapshotCut index term data).persistLocked.snapshotData = data := by
      rw [persistLocked]
      split_ifs <;> rfl
    simpa [Process.step, Process.resume, Process.ready, Process.runStretch, snapshotCommit_eq, hcheck',
      Process.wait] using hkeep
  rw [Process.run, List.foldl_cons, hphase, List.foldl_cons, hsave]
  exact hcommit _ hcheck

/-- A transfer brings one last chunk of its leader's term. -/
theorem Raft.Starts.countP_term {r r' : Raft} {s : Nat} {chunks : List InstallSnapshotArgs}
    (h : Starts r s r' chunks) :
    chunks.countP (fun c => c.done && decide (c.term = r.currentTerm)) = 1 := by
  rw [← h.once]
  exact List.countP_congr fun c hc => by simp [(h.chunk c hc).1]

/-- Where the epoch moves on, a transfer starts. -/
theorem Raft.starts_of_snapEpoch (r : Raft) (s : Nat) (now : Int)
    (h : (r.replicate s now).1.snapEpoch ≠ r.snapEpoch) :
    Starts r s (r.replicate s now).1 (r.replicate s now).2.chunks :=
  (replicate_transfers r s now).resolve_left fun hkept => h (congrArg Prod.snd hkept.1.transfers)

theorem Sender.owed_replicate (x : Sender) (s : Nat) (now : Int) :
    (x.step (.replicate s now)).owed s = x.owed s ++ (x.process.raft.replicate s now).2.chunks :=
  Function.update_self ..

theorem Sender.owed_snapshotReply (x : Sender) (args : InstallSnapshotArgs) (s : Nat) (ok : Bool)
    (reply : InstallSnapshotReply) (now : Int) :
    (x.step (.snapshotReply args s ok reply now)).owed s = (x.owed s).erase args :=
  Function.update_self ..

theorem Sender.run_process (x : Sender) (es : List ProcessEvent) :
    (x.run es).process = x.process.run es := by
  induction es generalizing x with
  | nil => rfl
  | cons e es ih => exact (ih _).trans (congrArg (Process.run · es) (step_process x e))

theorem Sender.meets_append {C : Sender → ProcessEvent → Prop} {x : Sender}
    {es₁ es₂ : List ProcessEvent} :
    Sender.Meets C x (es₁ ++ es₂) ↔ Sender.Meets C x es₁ ∧ Sender.Meets C (x.run es₁) es₂ := by
  induction es₁ generalizing x with
  | nil => exact (and_iff_right trivial).symm
  | cons e es₁ ih => exact (and_congr_right fun _ => ih).trans and_assoc.symm

/-- Node 0 is elected in `term`; the threads of the election stand at `k`. -/
def takesTerm (term : Int) (k : Nat) (now : Int) : List ProcessEvent :=
  [.electionTimeout now,
    .prevoteReply { term := term - 1, candidateId := 0, lastLogIndex := 2, lastLogTerm := 1 } 1
      { term := term - 1, voteGranted := true } now, .resume k now, .flush, .flush, .flush, .resume k now,
    .voteReply { term := term, candidateId := 0, lastLogIndex := 2, lastLogTerm := 1 } 1
      { term := term, voteGranted := true } now]

/-- One byte more than goes into a chunk. -/
def bigSnapshot : Bytes := List.replicate (kSnapshotChunkSize + 1) 0

/-- The chunk of its first transfer that holds `part`. -/
def bigChunk (offset : Nat) (done : Bool) (part : Bytes) : InstallSnapshotArgs :=
  { term := 2, leaderId := 0, lastIncludedIndex := 1, lastIncludedTerm := 1, offset := offset
    chunkSize := part.length, done := done, crc := crc32 bigSnapshot, epoch := 1, data := part
    members := [2, 2, 2] }

def bigChunks : List InstallSnapshotArgs :=
  [bigChunk 0 false (bigSnapshot.take kSnapshotChunkSize),
    bigChunk kSnapshotChunkSize true ((bigSnapshot.drop kSnapshotChunkSize).take kSnapshotChunkSize)]

/-- Node 0 of three gets two entries, committed, and is elected in term 2. -/
def leadsTerm2 : List ProcessEvent :=
  [.appendEntries
      { term := 1, leaderId := 1, leaderCommit := 2
        entries := [{ term := 1, index := 1 }, { term := 1, index := 2 }] } 0,
    .flush, .flush, .flush, .resume 0 0, .applyLoop 0] ++ takesTerm 2 0 200

/-- It takes its snapshot at entry 1. -/
def takesBigSnapshot : List ProcessEvent :=
  [.snapshot 1 bigSnapshot, .resume 0 270, .writeBlob, .writeBlob, .resume 0 270]

/-- It opens the transfer of it to node 2. The callback of the first chunk learns of term 5 and waits;
that of the last chunk clears the flag, and the node is elected again, in term 6. -/
def reelected : List ProcessEvent :=
  [.replicate 2 600, .flush, .flush, .flush, .resume 0 600,
    .snapshotReply (bigChunk 0 false (bigSnapshot.take kSnapshotChunkSize)) 2 true { term := 5 } 700,
    .snapshotReply (bigChunk kSnapshotChunkSize true
      ((bigSnapshot.drop kSnapshotChunkSize).take kSnapshotChunkSize)) 2 false {} 710,
    .flush, .flush, .flush] ++ takesTerm 6 1 1100

/-- The first callback goes on after the next transfer has been opened, and a third one is opened. -/
def reopened : List ProcessEvent := [.replicate 2 1500, .resume 0 1510, .replicate 2 1900]

def bigLeader : Sender :=
  ((Sender.boot 3 0 { persister := { fileBacked := true } } 0).run leadsTerm2).run takesBigSnapshot

theorem bigLeader_owed : (bigLeader.step (.replicate 2 600)).owed 2 = bigChunks := by
  have hdata : bigLeader.process.raft.snapshotData = bigSnapshot := by
    rw [bigLeader, run_process]
    exact Process.snapshotData_of_snapshot 1 bigSnapshot 270 (by decide +kernel) (by decide +kernel)
      (by decide +kernel) (by decide +kernel)
  have hcut := (starts_of_snapEpoch bigLeader.process.raft 2 600 (by decide +kernel)).cut
  have hterm : bigLeader.process.raft.currentTerm = 2 := by decide +kernel
  have hme : bigLeader.process.raft.me = 0 := by decide +kernel
  have hindex : bigLeader.process.raft.snapshotIndex = 1 ∧ bigLeader.process.raft.snapshotTerm = 1 ∧
      bigLeader.process.raft.snapCrcIndex = -1 := by decide +kernel
  have hepoch : bigLeader.process.raft.snapEpoch.getD 2 0 = 0 := by decide +kernel
  have hmembers : bigLeader.process.raft.isMember.map MemberRole.toInt = [2, 2, 2] := by decide +kernel
  have hlen : bigSnapshot.length = kSnapshotChunkSize + 1 := List.length_replicate
  rw [transferArgs, hterm, hme, hindex.1, hindex.2.1, hindex.2.2, hepoch, hmembers, hdata,
    if_pos (by decide), snapshotChunks_two _ (by omega) (by rw [hlen]; decide)] at hcut
  have hnone : bigLeader.owed 2 = [] := rfl
  rw [owed_replicate, hnone, hcut]
  rfl

/-- Two transfers of one term are under way. -/
theorem transfers_overlap :
    let es := leadsTerm2 ++ takesBigSnapshot ++ reelected ++ reopened
    let x := (Sender.boot 3 0 { persister := { fileBacked := true } } 0).run es
    Meets Delivered (Sender.boot 3 0 { persister := { fileBacked := true } } 0) es ∧
      x.process.raft.killed = false ∧ x.process.raft.state = .kLeader ∧
      ¬ (x.owed 2).countP (fun c => c.done && decide (c.term = x.process.raft.currentTerm)) ≤ 1 := by
  intro es x
  have hsplit : x = (bigLeader.run reelected).run reopened := by
    simp only [x, es, bigLeader, Sender.run, List.foldl_append]
  have hprocess : x.process.raft.killed = false ∧ x.process.raft.state = .kLeader ∧
      x.process.raft.currentTerm = 6 := by
    decide +kernel
  refine ⟨?_, hprocess.1, hprocess.2.1, ?_⟩
  · have howed := bigLeader_owed
    refine meets_append.mpr ⟨meets_append.mpr ⟨by decide +kernel, ?_⟩, ⟨trivial, trivial, trivial, trivial⟩⟩
    rw [Sender.run, List.foldl_append]
    refine ⟨trivial, trivial, trivial, trivial, trivial, ?_, ?_, trivial, trivial, trivial, trivial, trivial,
      trivial, trivial, trivial, trivial, trivial, trivial, trivial⟩
    · change _ ∈ (bigLeader.step (.replicate 2 600)).owed 2
      rw [howed]
      exact List.mem_cons_self
    · rw [Delivered, owed_snapshotReply]
      change _ ∈ ((bigLeader.step (.replicate 2 600)).owed 2).erase _
      rw [howed, bigChunks, List.erase_cons_head]
      exact List.mem_singleton_self _
  · have hfirst := (starts_of_snapEpoch (bigLeader.run reelected).process.raft 2 1500
      (by decide +kernel)).countP_term
    have hsecond := (starts_of_snapEpoch
      ((bigLeader.run reelected).run [.replicate 2 1500, .resume 0 1510]).process.raft 2 1900
      (by decide +kernel)).countP_term
    have hterms : (bigLeader.run reelected).process.raft.currentTerm = 6 ∧
        ((bigLeader.run reelected).run [.replicate 2 1500, .resume 0 1510]).process.raft.currentTerm =
          6 := by decide +kernel
    rw [hterms.1] at hfirst
    rw [hterms.2] at hsecond
    have howed : x.owed 2 = (bigLeader.run reelected).owed 2 ++
        ((bigLeader.run reelected).process.raft.replicate 2 1500).2.chunks ++
        (((bigLeader.run reelected).run [.replicate 2 1500, .resume 0 1510]).process.raft.replicate 2
          1900).2.chunks := by
      have hresume : ∀ y : Sender, (y.step (.resume 0 1510)).owed = y.owed := fun _ => rfl
      have hmid : ((bigLeader.run reelected).run [.replicate 2 1500, .resume 0 1510]).owed 2 =
          (bigLeader.run reelected).owed 2 ++
            ((bigLeader.run reelected).process.raft.replicate 2 1500).2.chunks := by
        rw [Sender.run, List.foldl_cons, List.foldl_cons, List.foldl_nil, hresume, owed_replicate]
      have hlast : x = ((bigLeader.run reelected).run [.replicate 2 1500, .resume 0 1510]).step
          (.replicate 2 1900) := by
        rw [hsplit]
        rfl
      rw [hlast, owed_replicate, hmid]
    rw [howed, hprocess.2.2, List.countP_append, List.countP_append, hfirst, hsecond]
    omega

end ChonKV
