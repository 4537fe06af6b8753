import ChonKV.Durable.Changes

/-!
Read rounds over the runs of a process: what the acks, the role changes, the rounds and the changes of
the members do to the round that a leader waits for.
-/

set_option autoImplicit false

namespace ChonKV
namespace Raft

open Function (update)

/-- `ctx` is the active read round, of the term in which this node leads. -/
structure ReadServed (r : Raft) (ctx : Nat) : Prop where
  leader : r.state = .kLeader
  active : r.activeRead = some ctx
  term : (r.readRounds ctx).term = r.currentTerm

instance (r : Raft) (ctx : Nat) : Decidable (r.ReadServed ctx) :=
  decidable_of_iff (r.state = .kLeader ∧ r.activeRead = some ctx ∧ (r.readRounds ctx).term = r.currentTerm)
    ⟨fun h => ⟨h.1, h.2.1, h.2.2⟩, fun h => ⟨h.leader, h.active, h.term⟩⟩

/-- Those that are voters now and have acknowledged the round are a majority of the voters. -/
def ReadGranted (r : Raft) (ctx : Nat) : Prop :=
  r.memberCountLocked / 2 + 1 ≤ r.countReadAcks (r.readRounds ctx).acked

instance (r : Raft) (ctx : Nat) : Decidable (r.ReadGranted ctx) := by
  unfold ReadGranted
  infer_instance

variable {r r' r'' : Raft} {ctx : Nat}

theorem countReadAcks_congr (h : r'.isMember = r.isMember) (acked : List Bool) :
    r'.countReadAcks acked = r.countReadAcks acked := by
  simp only [countReadAcks, voter, h]

theorem readGranted_congr (h : r'.isMember = r.isMember)
    (hacked : (r'.readRounds ctx).acked = (r.readRounds ctx).acked) :
    r'.ReadGranted ctx ↔ r.ReadGranted ctx := by
  rw [ReadGranted, ReadGranted, countReadAcks_congr h, hacked, memberCountLocked, h, memberCountLocked]

theorem countReadAcks_le_set (r : Raft) (acked : List Bool) (s : Nat) :
    r.countReadAcks acked ≤ r.countReadAcks (acked.set s true) := by
  rw [countReadAcks, countReadAcks, List.length_set]
  refine List.countP_mono_left fun i _ hi => ?_
  rw [Bool.and_eq_true] at hi ⊢
  refine ⟨?_, hi.2⟩
  by_cases his : i = s
  · subst his
    have hlt : i < acked.length := by
      by_contra hge
      rw [List.getD_eq_default _ _ (not_lt.mp hge)] at hi
      exact absurd hi.1 (by simp)
    rw [List.getD_eq_getElem?_getD, List.getElem?_set_self hlt, Option.getD_some]
  · rw [List.getD_eq_getElem?_getD, List.getElem?_set_ne (Ne.symm his), ← List.getD_eq_getElem?_getD]
    exact hi.1

/-- The active round is no later than the term, and earlier than that of a candidate. -/
structure RoundOK (r : Raft) : Prop where
  known : ∀ ctx, r.activeRead = some ctx → ctx < r.nextReadCtx
  term : ∀ ctx, r.activeRead = some ctx → (r.readRounds ctx).term ≤ r.currentTerm
  candidate : ∀ ctx, r.activeRead = some ctx → r.state = .kCandidate →
    (r.readRounds ctx).term < r.currentTerm

/-- No round is opened and no ack is recorded; the office is kept or left. -/
structure Spares (r r' : Raft) : Prop where
  next : r'.nextReadCtx = r.nextReadCtx
  active : ∀ ctx, r'.activeRead = some ctx → r.activeRead = some ctx
  term : ∀ ctx, (r'.readRounds ctx).term = (r.readRounds ctx).term
  acked : ∀ ctx, (r'.readRounds ctx).acked = (r.readRounds ctx).acked
  done : ∀ ctx, (r'.readRounds ctx).done = (r.readRounds ctx).done
  office : (r'.state = r.state ∧ r'.currentTerm = r.currentTerm) ∨
    (r'.state ≠ .kLeader ∧ r.currentTerm ≤ r'.currentTerm ∧
      (r'.state = .kCandidate → r.currentTerm < r'.currentTerm))

/-- What read rounds depend on besides the members. -/
def readPart (r : Raft) : ServerState × Int × Nat × Option Nat × (Nat → ReadIndexCtx) :=
  (r.state, r.currentTerm, r.nextReadCtx, r.activeRead, r.readRounds)

theorem Spares.of_part (h : r'.readPart = r.readPart) : Spares r r' := by
  simp only [readPart, Prod.mk.injEq] at h
  obtain ⟨hstate, hterm, hnext, hactive, hrounds⟩ := h
  exact ⟨hnext, fun ctx hctx => hactive ▸ hctx, fun ctx => by rw [hrounds], fun ctx => by rw [hrounds],
    fun ctx => by rw [hrounds], .inl ⟨hstate, hterm⟩⟩

/-- What a step that opens no round does to the rounds: `done` is a latch, set by a majority of acks and
by nothing else; while the members stay, a majority stays one, and a new one is noticed. -/
structure Tallies (r r' : Raft) : Prop where
  next : r'.nextReadCtx = r.nextReadCtx
  roundOK : r.RoundOK → r'.RoundOK
  served : r.RoundOK → ∀ ctx, r'.ReadServed ctx → r.ReadServed ctx
  latched : ∀ ctx, (r.readRounds ctx).done = true → (r'.readRounds ctx).done = true
  marked : ∀ ctx, (r'.readRounds ctx).done = true → (r.readRounds ctx).done = true ∨ r'.ReadGranted ctx
  kept : r'.isMember = r.isMember → ∀ ctx, r.ReadGranted ctx → r'.ReadGranted ctx
  noticed : r'.isMember = r.isMember → ∀ ctx, r'.ReadGranted ctx →
    r.ReadGranted ctx ∨ (r'.readRounds ctx).done = true

theorem Tallies.refl (r : Raft) : Tallies r r :=
  ⟨rfl, id, fun _ _ h => h, fun _ h => h, fun _ h => .inl h, fun _ _ h => h, fun _ _ h => .inl h⟩

/-- The second step leaves the members alone. -/
theorem Tallies.trans (h : Tallies r r') (h' : Tallies r' r'') (hm : r''.isMember = r'.isMember) :
    Tallies r r'' where
  next := h'.next.trans h.next
  roundOK hok := h'.roundOK (h.roundOK hok)
  served hok ctx hs := h.served hok ctx (h'.served (h.roundOK hok) ctx hs)
  latched ctx hd := h'.latched ctx (h.latched ctx hd)
  marked ctx hd := by
    rcases h'.marked ctx hd with hd | hg
    · exact (h.marked ctx hd).imp_right (h'.kept hm ctx)
    · exact .inr hg
  kept hm' ctx hg := h'.kept hm ctx (h.kept (hm.symm.trans hm') ctx hg)
  noticed hm' ctx hg := by
    rcases h'.noticed hm ctx hg with hg | hd
    · exact (h.noticed (hm.symm.trans hm') ctx hg).imp_right (h'.latched ctx)
    · exact .inr hd

theorem Spares.roundOK (h : Spares r r') (hok : r.RoundOK) : r'.RoundOK := by
  refine ⟨fun ctx hctx => ?_, fun ctx hctx => ?_, fun ctx hctx hcand => ?_⟩
  · rw [h.next]
    exact hok.known ctx (h.active ctx hctx)
  · have hle := hok.term ctx (h.active ctx hctx)
    rw [h.term]
    rcases h.office with hkeep | hleave <;> omega
  · have hle := hok.term ctx (h.active ctx hctx)
    rw [h.term]
    rcases h.office with ⟨hstate, hterm⟩ | ⟨-, -, hlt⟩
    · rw [hterm]
      exact hok.candidate ctx (h.active ctx hctx) (hstate ▸ hcand)
    · exact hle.trans_lt (hlt hcand)

theorem Spares.served (h : Spares r r') (hs : r'.ReadServed ctx) : r.ReadServed ctx := by
  rcases h.office with ⟨hstate, hterm⟩ | ⟨hleader, -⟩
  · exact ⟨hstate ▸ hs.leader, h.active ctx hs.active, (h.term ctx).symm.trans (hs.term.trans hterm)⟩
  · exact absurd hs.leader hleader

theorem Spares.tallies (h : Spares r r') : Tallies r r' where
  next := h.next
  roundOK := h.roundOK
  served _ _ := h.served
  latched ctx hd := (h.done ctx).trans hd
  marked ctx hd := .inl ((h.done ctx).symm.trans hd)
  kept hm ctx := (readGranted_congr hm (h.acked ctx)).mpr
  noticed hm ctx hg := .inl ((readGranted_congr hm (h.acked ctx)).mp hg)

theorem persistLocked_readPart (r : Raft) : r.persistLocked.readPart = r.readPart := by
  rw [persistLocked]
  split_ifs <;> rfl

/-- A candidate that takes office finds no round of its term. -/
theorem tallies_elect (h : r.state = .kCandidate) : Tallies r { r with state := .kLeader } where
  next := rfl
  roundOK hok := ⟨hok.known, hok.term, fun _ _ hc => by cases hc⟩
  served hok ctx hs := absurd hs.term (hok.candidate ctx hs.active h).ne
  latched _ hd := hd
  marked _ hd := .inl hd
  kept _ _ hg := hg
  noticed _ _ hg := .inl hg

/-- An ack is counted with the voters of this moment. -/
theorem tallies_recordReadAckLocked (r : Raft) (ctx s : Nat) :
    Tallies r (r.recordReadAckLocked ctx s) := by
  rw [recordReadAckLocked]
  dsimp only
  split_ifs with hno hno'
  · exact .refl r
  · exact .refl r
  · have hother : ∀ c, c ≠ ctx → ∀ rd, update r.readRounds ctx rd c = r.readRounds c :=
      fun c hc rd => Function.update_of_ne hc rd r.readRounds
    have hterm : ∀ (c : Nat) (acked : List Bool) (done : Bool),
        (update r.readRounds ctx { r.readRounds ctx with acked := acked, done := done } c).term =
          (r.readRounds c).term := by
      intro c acked done
      by_cases hc : c = ctx
      · rw [hc, Function.update_self]
      · rw [hother c hc]
    refine ⟨rfl, fun hok => ⟨hok.known, fun c hc => ?_, fun c hc hcand => ?_⟩, fun _ c hs => ?_,
      fun c hd => ?_, fun c hd => ?_, fun _ c hg => ?_, fun _ c hg => ?_⟩
    · rw [hterm]
      exact hok.term c hc
    · rw [hterm]
      exact hok.candidate c hc hcand
    · exact ⟨hs.leader, hs.active, (hterm c _ _).symm.trans hs.term⟩
    all_goals
      by_cases hc : c = ctx
      swap
      · simp only [ReadGranted, hother c hc] at *
        first | exact hd | exact .inl hd | exact hg | exact .inl hg
      subst hc
    · simp [hd]
    · simp only [Function.update_self, Bool.or_eq_true, decide_eq_true_eq] at hd
      refine hd.imp_right fun hle => ?_
      simp only [ReadGranted, Function.update_self]
      exact hle
    · simp only [ReadGranted, Function.update_self]
      exact le_trans hg (countReadAcks_le_set r _ s)
    · simp only [ReadGranted, Function.update_self] at hg
      right
      simp only [Function.update_self, Bool.or_eq_true, decide_eq_true_eq]
      exact .inr hg

/-- Readers come and go. -/
theorem spares_waiters (r : Raft) (ctx : Nat) (w : Int) {active : Option Nat}
    (h : ∀ c, active = some c → r.activeRead = some c) :
    Spares r { r with
      readRounds := update r.readRounds ctx { r.readRounds ctx with waiters := w }
      activeRead := active } := by
  refine ⟨rfl, h, fun c => ?_, fun c => ?_, fun c => ?_, .inl ⟨rfl, rfl⟩⟩
  all_goals
    dsimp only
    by_cases hc : c = ctx
    · rw [hc, Function.update_self]
    · rw [Function.update_of_ne hc]

theorem spares_readIndexLeave (r : Raft) (ctx : Nat) (result : Int) :
    Spares r (r.readIndexLeave ctx result).1 := by
  refine spares_waiters r ctx _ fun c hc => ?_
  split_ifs at hc
  exact hc

theorem spares_readIndexPoll (r : Raft) (ctx : Nat) (term readIndex deadline now : Int) :
    Spares r (r.readIndexPoll ctx term readIndex deadline now).1 := by
  rw [readIndexPoll]
  dsimp only
  split_ifs
  · exact spares_readIndexLeave r ctx (-1)
  · exact spares_readIndexLeave r ctx readIndex
  · exact spares_readIndexLeave r ctx (-1)
  · exact .of_part rfl

variable {k : ReadUse}

theorem Change.members (h : Change k r r') : r'.isMember = r.isMember := by
  cases h with
  | same h => exact congrArg Scope.isMember h
  | persist =>
    rw [persistLocked]
    split_ifs <;> rfl
  | ack ctx s =>
    rw [recordReadAckLocked]
    dsimp only
    split_ifs <;> rfl
  | openRead now =>
    rw [readIndexOpen]
    split_ifs
    all_goals first | rfl | (split <;> rfl)
  | pollRead ctx term readIndex deadline now =>
    rw [readIndexPoll]
    dsimp only [readIndexLeave]
    split_ifs <;> rfl
  | _ => rfl

theorem Changes.members (h : Changes k r r') : r'.isMember = r.isMember := by
  induction h with
  | refl => rfl
  | tail _ hc ih => exact hc.members.trans ih

theorem Change.tallies (h : Change k r r') (hk : k ≠ .opens) : Tallies r r' := by
  cases h with
  | same h =>
    have hpart : r'.readPart = r.readPart := by
      simp only [scope, Scope.mk.injEq] at h
      simp only [readPart, h]
    exact (Spares.of_part hpart).tallies
  | persist => exact (Spares.of_part (persistLocked_readPart r)).tallies
  | turn hstate hterm hcand =>
    refine Spares.tallies ?_
    exact ⟨rfl, fun _ hc => hc, fun _ => rfl, fun _ => rfl, fun _ => rfl, .inr ⟨hstate, hterm, hcand⟩⟩
  | elect h => exact tallies_elect h
  | ack ctx s => exact tallies_recordReadAckLocked r ctx s
  | openRead _ hopens => exact absurd hopens hk
  | pollRead ctx term readIndex deadline now =>
    exact (spares_readIndexPoll r ctx term readIndex deadline now).tallies
  | commit | push | kill =>
    refine Spares.tallies ?_
    exact .of_part rfl

theorem Changes.tallies (h : Changes k r r') (hk : k ≠ .opens) : Tallies r r' := by
  induction h with
  | refl => exact .refl r
  | tail _ hc ih => exact ih.trans (hc.tallies hk) hc.members

/-- The state with the new round that `readIndexOpen` opens; its leader has acknowledged it. -/
def openRound (r : Raft) : Raft :=
  { r with
    nextReadCtx := r.nextReadCtx + 1
    activeRead := some r.nextReadCtx
    readRounds := update r.readRounds r.nextReadCtx
      { ctx := r.nextReadCtx
        term := r.currentTerm
        readIndex := r.commitIndex
        acked := (List.replicate r.peers false).set r.me true
        done := false
        waiters := 1 } }

theorem openRound_readRounds_self (r : Raft) :
    (r.openRound.readRounds r.nextReadCtx).term = r.currentTerm ∧
      (r.openRound.readRounds r.nextReadCtx).acked = (List.replicate r.peers false).set r.me true ∧
      (r.openRound.readRounds r.nextReadCtx).done = false := by
  have h : r.openRound.readRounds r.nextReadCtx = _ := Function.update_self _ _ _
  rw [h]
  exact ⟨rfl, rfl, rfl⟩

theorem openRound_readRounds_of_ne {ctx : Nat} (h : ctx ≠ r.nextReadCtx) :
    r.openRound.readRounds ctx = r.readRounds ctx := Function.update_of_ne h _ _

/-- A reader joins the active round, or opens a new one, or there is nothing to wait for. -/
theorem readIndexOpen_cases (r : Raft) (now : Int) :
    Tallies r (r.readIndexOpen now).1 ∨
      r.state = .kLeader ∧ (r.readIndexOpen now).1 = r.openRound := by
  rw [readIndexOpen]
  split_ifs with hleader
  · exact .inl (.refl r)
  · exact .inl (.refl r)
  · exact .inl (.refl r)
  · exact .inl (.refl r)
  · exact .inl (.refl r)
  · cases r.joinableRound with
    | none => exact .inr ⟨not_not.mp hleader, rfl⟩
    | some ctx => exact .inl (spares_waiters r ctx _ fun _ hc => hc).tallies

theorem openRound_active (h : r.openRound.activeRead = some ctx) : ctx = r.nextReadCtx :=
  (Option.some.inj h).symm

theorem openRound_roundOK (hleader : r.state = .kLeader) : r.openRound.RoundOK := by
  refine ⟨fun ctx h => ?_, fun ctx h => ?_, fun ctx _ hcand => ?_⟩
  · rw [openRound_active h]
    exact Nat.lt_succ_self _
  · rw [openRound_active h]
    exact r.openRound_readRounds_self.1.le
  · rw [openRound, hleader] at hcand
    cases hcand

theorem countReadAcks_set_le_one (r : Raft) (n s : Nat) :
    r.countReadAcks ((List.replicate n false).set s true) ≤ 1 := by
  have hle : ∀ i ∈ List.range ((List.replicate n false).set s true).length,
      (((List.replicate n false).set s true).getD i false && r.voter i) = true → (i == s) = true := by
    intro i _ hi
    by_contra hne
    rw [beq_iff_eq] at hne
    rw [Bool.and_eq_true, List.getD_eq_getElem?_getD, List.getElem?_set_ne (Ne.symm hne),
      List.getElem?_replicate] at hi
    obtain ⟨hacked, -⟩ := hi
    split_ifs at hacked <;> cases hacked
  rw [countReadAcks]
  exact (List.countP_mono_left hle).trans (List.nodup_iff_count_le_one.mp List.nodup_range s)

/-- The new round has a majority at once where no other node is a voter. -/
theorem openRound_granted (h : r.openRound.ReadGranted r.nextReadCtx) : r.memberCountLocked ≤ 1 := by
  have hone := countReadAcks_set_le_one r.openRound r.peers r.me
  rw [ReadGranted, r.openRound_readRounds_self.2.1] at h
  have hcount : r.openRound.memberCountLocked = r.memberCountLocked := rfl
  omega

theorem readPart_appendEntriesLocked (r : Raft) (args : AppendEntriesArgs)
    (reply : AppendEntriesReply) : (r.appendEntriesLocked args reply).1.readPart = r.readPart := by
  have hmerge : (r.mergeLocked args).readPart = r.readPart := by
    rw [mergeLocked]
    dsimp only
    split_ifs
    · exact persistLocked_readPart _
    · rfl
  rw [appendEntriesLocked]
  split_ifs
  · rfl
  · rfl
  · refine Eq.trans ?_ hmerge
    rw [followCommit]
    split_ifs <;> rfl

theorem appendEntriesLocked_isMember (r : Raft) (args : AppendEntriesArgs)
    (reply : AppendEntriesReply) : (r.appendEntriesLocked args reply).1.isMember = r.isMember :=
  congrArg (fun part : Nat × List MemberRole × List Int × ServerState => part.2.1)
    (appendEntriesLocked_memberPart r args reply)

theorem readPart_applyTurn (r : Raft) (idx : Int) : ((r.applyTurn idx).raft r).readPart = r.readPart := by
  rw [applyTurn]
  dsimp only
  split_ifs
  · rfl
  · rfl
  · refine (persistLocked_readPart _).trans ?_
    split_ifs <;> rfl
  · rfl
  · rfl

theorem readPart_applyConfAfter (r : Raft) (now : Int) : (r.applyConfAfter now).readPart = r.readPart := by
  rw [applyConfAfter]
  split_ifs <;> rfl

theorem readPart_applyRun (r : Raft) (now : Int) (k : Nat) (idx : Int) (batch : List ApplyMsg) :
    (r.applyRun now k idx batch).1.readPart = r.readPart :=
  applyRun_induction (R := fun r r' => r'.readPart = r.readPart) (fun _ => rfl) (fun h h' => h'.trans h)
    readPart_applyTurn readPart_applyConfAfter r now k idx batch

theorem readPart_snapshotCommit (r : Raft) (index term : Int) (data : Bytes) :
    (r.snapshotCommit index term data).1.readPart = r.readPart := by
  rw [snapshotCommit]
  split_ifs
  · rfl
  · exact persistLocked_readPart _

theorem make_activeRead (peers me : Nat) (d : Disk) (now : Int) :
    (make peers me d now).activeRead = none := by
  have hadopt : ∀ (r : Raft) (b : SnapshotBlob), (r.adoptBlob b).activeRead = r.activeRead := by
    intro r b
    rw [adoptBlob]
    split_ifs <;> rfl
  rw [make]
  dsimp only
  split
  · rw [readPersist]
    dsimp only [restoreRest]
    split
    · exact hadopt _ _
    · rfl
  · rfl

theorem roundOK_make (peers me : Nat) (d : Disk) (now : Int) : (make peers me d now).RoundOK := by
  have h := make_activeRead peers me d now
  exact ⟨fun _ hc => absurd (h.symm.trans hc) (by simp), fun _ hc => absurd (h.symm.trans hc) (by simp),
    fun _ hc => absurd (h.symm.trans hc) (by simp)⟩

theorem tallies_of_part (h : r'.readPart = r.readPart) : Tallies r r' := (Spares.of_part h).tallies

end Raft

namespace Process

open Raft

variable {p : Process}

theorem tallies_settleApply {res : Raft × List ApplyMsg × Option (Nat × Int)}
    (h : Tallies p.raft res.1) : Tallies p.raft (p.settleApply res).raft := by
  rw [settleApply]
  split <;> exact h

theorem tallies_applyLoop (p : Process) (now : Int) : Tallies p.raft (p.applyLoop now).raft := by
  have hrun := readPart_applyRun p.raft now (p.raft.applyStop - p.raft.lastApplied).toNat
    (p.raft.lastApplied + 1) []
  rw [applyLoop]
  split_ifs
  · exact .refl _
  · split
    · exact tallies_of_part rfl
    · exact tallies_settleApply (tallies_of_part hrun)
  · split
    · exact tallies_of_part rfl
    · exact .refl _

theorem tallies_applyResume (p : Process) (now : Int) : Tallies p.raft (p.applyResume now).raft := by
  rw [applyResume]
  split
  · exact .refl _
  · next a _ =>
    have hrun := readPart_applyRun (p.raft.applyConfAfter now) now a.left a.idx a.batch
    split_ifs
    · exact tallies_settleApply (tallies_of_part (hrun.trans (readPart_applyConfAfter _ now)))
    · exact .refl _

theorem tallies_installLogs (p : Process) (args : InstallSnapshotArgs) (blob : Bytes) (old : Int) :
    Tallies p.raft (p.installLogs args blob old).raft := by
  refine tallies_of_part ?_
  exact persistLocked_readPart _

/-- Phase 2 of `InstallSnapshot` takes over the members, and may depose a leader. -/
theorem tallies_installCommit (p : Process) (args : InstallSnapshotArgs) (blob : Bytes) :
    Tallies p.raft (p.installCommit args blob).raft := by
  have hbegin : Tallies p.raft (p.raft.installBegin args blob) := tallies_of_part rfl
  rw [installCommit]
  dsimp only
  split_ifs
  · exact .refl _
  · have hdown : Changes .none (p.raft.installBegin args blob) _ := changes_convertToFollowerLocked le_rfl
    exact hbegin.trans (hdown.tallies (by decide)) hdown.members
  · refine tallies_of_part ?_
    exact persistLocked_readPart _

theorem tallies_saveBlob (p : Process) (u : BlobUser) : Tallies p.raft (p.saveBlob u).raft := by
  rw [saveBlob]
  split_ifs <;> exact .refl _

theorem tallies_runStretch (p : Process) (now : Int) (st : Stretch) :
    Tallies p.raft (p.runStretch now st).raft := by
  cases st with
  | append args => exact tallies_of_part (readPart_appendEntriesLocked _ args {})
  | saveBlob u => exact tallies_saveBlob p u
  | snapshotCommit index term data =>
    have hpart := readPart_snapshotCommit p.raft index term data
    rw [runStretch]
    split_ifs <;> exact tallies_of_part hpart
  | truncateStore index => exact tallies_of_part rfl
  | installCommit args blob => exact tallies_installCommit p args blob
  | installLogs args blob old => exact tallies_installLogs p args blob old
  | installFinish msg keep => exact tallies_of_part rfl
  | _ =>
    refine Changes.tallies (k := .none) ?_ (by decide)
    exact changes_runStretch p now trivial (by simp)

theorem tallies_resume (p : Process) (k : Nat) (now : Int) : Tallies p.raft (p.resume k now).raft := by
  rw [resume]
  split
  · exact .refl _
  · next t _ =>
    split_ifs
    · exact tallies_runStretch { p with threads := p.threads.eraseIdx k } now t.stretch
    · exact .refl _

theorem tallies_appendEntries (p : Process) (args : AppendEntriesArgs) (now : Int) :
    Tallies p.raft (p.appendEntries args now).raft := by
  rcases changes_appendEntries (k := .none) p args now with h | ⟨r, h, hr⟩
  · exact h.tallies (by decide)
  · rw [hr]
    exact (h.tallies (by decide)).trans (tallies_of_part (readPart_appendEntriesLocked r args {}))
      (appendEntriesLocked_isMember r args {})

theorem tallies_writeBlob (p : Process) : Tallies p.raft p.writeBlob.raft := by
  rw [writeBlob]
  split <;> exact tallies_of_part rfl

theorem tallies_flush (p : Process) : Tallies p.raft p.flush.raft := by
  rw [flush]
  split
  · split
    · split_ifs <;> exact tallies_of_part rfl
    · exact .refl _
  · exact tallies_of_part rfl
  · exact tallies_of_part rfl

theorem tallies_step (p : Process) {e : ProcessEvent} (he : e.Plain) (hk : e.reads ≠ .opens) :
    Tallies p.raft (p.step e).raft := (changes_step p he).tallies hk

/-- A step of a process that goes on either opens a round or does not. -/
theorem step_rounds (p : Process) {e : ProcessEvent} (hup : ∀ now, e ≠ .restart now) :
    Tallies p.raft (p.step e).raft ∨ p.raft.state = .kLeader ∧ (p.step e).raft = p.raft.openRound := by
  cases e with
  | appendEntries args now => exact .inl (tallies_appendEntries p args now)
  | applyLoop now => exact .inl (tallies_applyLoop p now)
  | applyResume now => exact .inl (tallies_applyResume p now)
  | resume k now => exact .inl (tallies_resume p k now)
  | writeBlob => exact .inl (tallies_writeBlob p)
  | flush => exact .inl (tallies_flush p)
  | restart now => exact absurd rfl (hup now)
  | readIndexOpen now => exact readIndexOpen_cases p.raft now
  | _ => exact .inl (tallies_step p trivial fun hk => by cases hk)

theorem step_roundOK (h : p.raft.RoundOK) (e : ProcessEvent) : (p.step e).raft.RoundOK := by
  by_cases hup : ∃ now, e = .restart now
  · obtain ⟨now, rfl⟩ := hup
    exact roundOK_make _ _ _ now
  · rcases step_rounds p (not_exists.mp hup) with ht | ⟨hleader, ho⟩
    · exact ht.roundOK h
    · rw [ho]
      exact openRound_roundOK hleader

theorem run_roundOK (h : p.raft.RoundOK) (es : List ProcessEvent) : (p.run es).raft.RoundOK := by
  induction es generalizing p with
  | nil => exact h
  | cons e es ih => exact ih (step_roundOK h e)

variable {e : ProcessEvent} {ctx : Nat}

/-- A round that is served after a step was served before, or has just been opened. -/
theorem served_step (h : p.raft.RoundOK) (hs : (p.step e).raft.ReadServed ctx) :
    (∀ now, e ≠ .restart now) ∧ ((Tallies p.raft (p.step e).raft ∧ p.raft.ReadServed ctx) ∨
      ((p.step e).raft = p.raft.openRound ∧ ctx = p.raft.nextReadCtx)) := by
  have hup : ∀ now, e ≠ .restart now := by
    rintro now rfl
    have hnone := make_activeRead p.raft.peers p.raft.me p.disk now
    exact absurd (hnone.symm.trans hs.active) (by simp)
  refine ⟨hup, ?_⟩
  rcases step_rounds p hup with ht | ⟨-, ho⟩
  · exact .inl ⟨ht, ht.served h ctx hs⟩
  · exact .inr ⟨ho, openRound_active (ho ▸ hs.active)⟩

theorem latched_run {es : List ProcessEvent} (hup : ∀ now, .restart now ∉ es)
    (hctx : ctx < p.raft.nextReadCtx) (hd : (p.raft.readRounds ctx).done = true) :
    ((p.run es).raft.readRounds ctx).done = true := by
  induction es generalizing p with
  | nil => exact hd
  | cons e es ih =>
    have he : ∀ now, e ≠ .restart now := fun now he => hup now (he ▸ List.mem_cons_self)
    have hes : ∀ now, .restart now ∉ es := fun now hmem => hup now (List.mem_cons_of_mem e hmem)
    rcases step_rounds p he with ht | ⟨-, ho⟩
    · exact ih hes (ht.next.symm ▸ hctx) (ht.latched ctx hd)
    · refine ih hes ?_ ?_
      · rw [ho]
        exact hctx.trans (Nat.lt_succ_self _)
      · rw [ho, openRound_readRounds_of_ne hctx.ne]
        exact hd

/-- At some moment since the node came up, the round was served and its acks were a majority. -/
def OnceGranted (p : Process) (es : List ProcessEvent) (ctx : Nat) : Prop :=
  ∃ es₁ es₂, es = es₁ ++ es₂ ∧ (∀ now, .restart now ∉ es₂) ∧
    (p.run es₁).raft.ReadServed ctx ∧ (p.run es₁).raft.ReadGranted ctx

/-- A majority of acks is what marks a round; and a new one is noticed where it comes from an ack: not
where a round is opened with no other voter, nor where the members change. -/
structure ByAcks (p : Process) (e : ProcessEvent) : Prop where
  opens : p.raft.nextReadCtx < (p.step e).raft.nextReadCtx → 1 < p.raft.memberCountLocked
  members : (p.step e).raft.isMember ≠ p.raft.isMember → ∀ ctx, (p.step e).raft.ReadServed ctx →
    ((p.step e).raft.readRounds ctx).done = false → ¬ (p.step e).raft.ReadGranted ctx

/-- The members do not change so that the acks of a round that is done are no majority any more. -/
def KeepsMajority (p : Process) (e : ProcessEvent) : Prop :=
  (p.step e).raft.isMember ≠ p.raft.isMember → ∀ ctx, (p.step e).raft.ReadServed ctx →
    ((p.step e).raft.readRounds ctx).done = true → (p.step e).raft.ReadGranted ctx

theorem byAcks_of_members (hv : 1 < p.raft.memberCountLocked) (hm : (p.step e).raft.isMember = p.raft.isMember) :
    p.ByAcks e :=
  ⟨fun _ => hv, fun hne => absurd hm hne⟩

theorem done_onceGranted (h : p.raft.RoundOK) (hnone : p.raft.activeRead = none)
    (es : List ProcessEvent) (hs : (p.run es).raft.ReadServed ctx)
    (hd : ((p.run es).raft.readRounds ctx).done = true) : p.OnceGranted es ctx := by
  induction es using List.reverseRecOn with
  | nil => exact absurd (hnone.symm.trans hs.active) (by simp)
  | append_singleton es e ih =>
    rw [run_concat] at hs hd
    obtain ⟨hup, ⟨ht, hs'⟩ | ⟨ho, rfl⟩⟩ := served_step (run_roundOK h es) hs
    · rcases ht.marked ctx hd with hd' | hg
      · obtain ⟨es₁, es₂, rfl, hes₂, hgrant⟩ := ih hs' hd'
        refine ⟨es₁, es₂ ++ [e], (List.append_assoc es₁ es₂ [e]).symm ▸ rfl, fun now hmem => ?_, hgrant⟩
        rcases List.mem_append.mp hmem with hmem | hmem
        · exact hes₂ now hmem
        · exact hup now (List.mem_singleton.mp hmem).symm
      · exact ⟨es ++ [e], [], by simp, by simp, by rwa [run_concat], by rwa [run_concat]⟩
    · rw [ho, (openRound_readRounds_self _).2.2] at hd
      cases hd

/-- Every majority has been noticed. -/
def Noticed (p : Process) : Prop :=
  ∀ ctx, p.raft.ReadServed ctx → p.raft.ReadGranted ctx → (p.raft.readRounds ctx).done = true

theorem noticed_step (h : p.raft.RoundOK) (hn : p.Noticed) (he : p.ByAcks e) : (p.step e).Noticed := by
  intro ctx hs hg
  obtain ⟨-, ⟨ht, hs'⟩ | ⟨ho, rfl⟩⟩ := served_step h hs
  · by_cases hm : (p.step e).raft.isMember = p.raft.isMember
    · rcases ht.noticed hm ctx hg with hg' | hd
      · exact ht.latched ctx (hn ctx hs' hg')
      · exact hd
    · by_contra hd
      exact he.members hm ctx hs (Bool.not_eq_true _ ▸ hd) hg
  · rw [ho] at hg
    have hone := openRound_granted hg
    have hopens := he.opens (by rw [ho]; exact Nat.lt_succ_self _)
    omega

theorem noticed_run (h : p.raft.RoundOK) (hn : p.Noticed) {es : List ProcessEvent}
    (hes : Meets ByAcks p es) : (p.run es).Noticed := by
  induction es generalizing p with
  | nil => exact hn
  | cons e es ih => exact ih (step_roundOK h e) (noticed_step h hn hes.1) hes.2

/-- What is done has a majority now. -/
def Lasting (p : Process) : Prop :=
  ∀ ctx, p.raft.ReadServed ctx → (p.raft.readRounds ctx).done = true → p.raft.ReadGranted ctx

theorem lasting_step (h : p.raft.RoundOK) (hl : p.Lasting) (he : p.KeepsMajority e) :
    (p.step e).Lasting := by
  intro ctx hs hd
  obtain ⟨-, ⟨ht, hs'⟩ | ⟨ho, rfl⟩⟩ := served_step h hs
  · by_cases hm : (p.step e).raft.isMember = p.raft.isMember
    · rcases ht.marked ctx hd with hd' | hg
      · exact ht.kept hm ctx (hl ctx hs' hd')
      · exact hg
    · exact he hm ctx hs hd
  · rw [ho, (openRound_readRounds_self _).2.2] at hd
    cases hd

theorem lasting_run (h : p.raft.RoundOK) (hl : p.Lasting) {es : List ProcessEvent}
    (hes : Meets KeepsMajority p es) : (p.run es).Lasting := by
  induction es generalizing p with
  | nil => exact hl
  | cons e es ih => exact ih (step_roundOK h e) (lasting_step h hl hes.1) hes.2

/-- The round that a leader serves is done only if its acks have been a majority at some moment; if they
have, it is done, where majorities come from acks; and while no change of the members takes the majority
away, they still are one. -/
theorem read_round (peers me : Nat) (d : Disk) (now : Int) (es : List ProcessEvent) (ctx : Nat)
    (hs : ((boot peers me d now).run es).raft.ReadServed ctx) :
    let p := boot peers me d now
    let r := (p.run es).raft
    ((r.readRounds ctx).done = true → p.OnceGranted es ctx) ∧
      (Meets ByAcks p es → p.OnceGranted es ctx → (r.readRounds ctx).done = true) ∧
      (Meets KeepsMajority p es → (r.readRounds ctx).done = true → r.ReadGranted ctx) := by
  intro p r
  have hok : p.raft.RoundOK := roundOK_make peers me d now
  have hnone : p.raft.activeRead = none := make_activeRead peers me d now
  refine ⟨done_onceGranted hok hnone es hs, ?_, fun hes hd => ?_⟩
  · rintro hes ⟨es₁, es₂, rfl, hup, hs₁, hg⟩
    have hn : (p.run es₁).Noticed :=
      noticed_run hok (fun ctx hs => absurd (hnone.symm.trans hs.active) (by simp)) (meets_append.mp hes).1
    have hlatched := latched_run hup ((run_roundOK hok es₁).known ctx hs₁.active) (hn ctx hs₁ hg)
    rwa [← run_append] at hlatched
  · exact lasting_run hok (fun ctx hs => absurd (hnone.symm.trans hs.active) (by simp)) hes ctx hs hd

end Process

/-- Node 0 is elected in term 1 by `voters` and itself. -/
def officeBy (voters : List Nat) : List ProcessEvent :=
  [.electionTimeout 200] ++
    voters.map (fun i => .prevoteReply
      { term := 0, candidateId := 0, lastLogIndex := 0, lastLogTerm := 0 } i
      { term := 0, voteGranted := true } 200) ++
    [.resume 0 200, .resume 0 200] ++
    voters.map (fun i => .voteReply
      { term := 1, candidateId := 0, lastLogIndex := 0, lastLogTerm := 0 } i
      { term := 1, voteGranted := true } 200)

def readBeat : AppendEntriesArgs :=
  { term := 1, leaderId := 0, prevLogIndex := 0, prevLogTerm := 0, leaderCommit := 0, readCtx := 1 }

/-- Node `i` acknowledges the first round. -/
def readAckBy (i : Nat) : ProcessEvent :=
  .readHeartbeatReply readBeat i { term := 1, success := true, readCtx := 1 } 210

/-- The role of `s` changes at index 1, which `followers` accept, and is applied. -/
def roleChange (s : Int) (role : MemberRole) (followers : List Nat) : List ProcessEvent :=
  let e : LogEntry :=
    { term := 1, index := 1, type := .kConfChange, confServer := s, confRole := role.toInt }
  [.proposeConf s role, .resume 0 220] ++
    followers.map (fun i => .appendReply { readBeat with entries := [e], readCtx := 0 } i true
      { term := 1, success := true } 230) ++ [.applyLoop 230]

open Process

/-- The first round, and node 1's ack. -/
def firstRound : List ProcessEvent := officeBy [1] ++ [.readIndexOpen 205, readAckBy 1]

theorem read_round_acked :
    let r := ((boot 3 0 {} 0).run firstRound).raft
    (boot 3 0 {} 0).OnceGranted firstRound 1 ∧ (r.readRounds 1).done = true ∧ r.ReadGranted 1 := by
  have hs : ((boot 3 0 {} 0).run firstRound).raft.ReadServed 1 := by decide +kernel
  have hdone : (((boot 3 0 {} 0).run firstRound).raft.readRounds 1).done = true := by decide +kernel
  have hgranted : ((boot 3 0 {} 0).run firstRound).raft.ReadGranted 1 := by decide +kernel
  have hacks : Meets ByAcks (boot 3 0 {} 0) firstRound := by
    refine ⟨byAcks_of_members ?_ ?_, byAcks_of_members ?_ ?_, byAcks_of_members ?_ ?_, byAcks_of_members ?_ ?_,
      byAcks_of_members ?_ ?_, byAcks_of_members ?_ ?_, byAcks_of_members ?_ ?_, trivial⟩
    all_goals decide +kernel
  have hkeeps : Meets KeepsMajority (boot 3 0 {} 0) firstRound := by
    refine ⟨?_, ?_, ?_, ?_, ?_, ?_, ?_, trivial⟩
    all_goals
      refine fun hne => absurd ?_ hne
      decide +kernel
  obtain ⟨honce, hmarked, hlast⟩ := read_round 3 0 {} 0 firstRound 1 hs
  exact ⟨honce hdone, hmarked hacks ⟨firstRound, [], by simp, by simp, hs, hgranted⟩, hlast hkeeps hdone⟩

/-- A round that is done, before its reader has left: an acked voter becomes a learner. A round whose
leader is the only voter. A round that half of four voters have acknowledged, when one of the others is
removed. -/
theorem read_round_apart :
    let done := ((boot 3 0 {} 0).run (firstRound ++ roleChange 1 .kLearner [2])).raft
    let sole := ((boot 1 0 {} 0).run (officeBy [] ++ [.readIndexOpen 205])).raft
    let half := ((boot 4 0 {} 0).run
      (officeBy [1, 2] ++ [.readIndexOpen 205, readAckBy 1] ++ roleChange 3 .kRemoved [1, 2])).raft
    (done.ReadServed 1 ∧ (done.readRounds 1).done = true ∧ ¬ done.ReadGranted 1) ∧
      (sole.ReadServed 1 ∧ (sole.readRounds 1).done = false ∧ sole.ReadGranted 1) ∧
      half.ReadServed 1 ∧ (half.readRounds 1).done = false ∧ half.ReadGranted 1 := by
  decide +kernel

end ChonKV
