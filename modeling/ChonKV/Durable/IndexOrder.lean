import ChonKV.Durable.Alignment
import ChonKV.Durable.Changes
import ChonKV.Durable.SingleFlight

/-!
The four indexes of a node, over the runs of a process: `snapshot_index_`, `last_applied_`,
`commit_index_` and the last log index stay in this order wherever `mu_` is free.
-/

set_option autoImplicit false

namespace ChonKV
namespace Raft

/-- `snapshot_index_ <= last_applied_ <= commit_index_ <=` the last log index. -/
structure InOrder (r : Raft) : Prop extends Level r where
  snapshot_le : r.snapshotIndex ≤ r.lastApplied
  applied_le : r.lastApplied ≤ r.commitIndex
  commit_le : r.commitIndex ≤ r.lastLogIndexLocked

/-- The indexes of `r'` are in order and not behind those of `r`; only a snapshot moves what is
applied. -/
structure Ascends (r r' : Raft) : Prop extends InOrder r' where
  snapshot : r.snapshotIndex ≤ r'.snapshotIndex
  commit : r.commitIndex ≤ r'.commitIndex
  applied : r'.lastApplied = r.lastApplied ∨
    (r.lastApplied ≤ r'.lastApplied ∧ r'.lastApplied ≤ r'.snapshotIndex)

/-- The applier may take the `k` entries from `idx` on: they are committed, and not applied but for
those that the snapshot covers. -/
def InTurn (r : Raft) (k : Nat) (idx : Int) : Prop :=
  r.lastApplied ≤ max (idx - 1) r.snapshotIndex ∧ idx + k ≤ r.commitIndex + 1

/-- What the order of the indexes depends on. -/
def orderPart (r : Raft) : List LogEntry × Int × Int × Int :=
  (r.logs, r.snapshotIndex, r.lastApplied, r.commitIndex)

variable {r r' r'' : Raft}

theorem Ascends.applied_mono (h : Ascends r r') : r.lastApplied ≤ r'.lastApplied := by
  rcases h.applied with heq | ⟨hle, -⟩
  · exact heq.ge
  · exact hle

theorem Ascends.trans (h : Ascends r r') (h' : Ascends r' r'') : Ascends r r'' := by
  refine ⟨h'.toInOrder, h.snapshot.trans h'.snapshot, h.commit.trans h'.commit, ?_⟩
  have hsnap := h'.snapshot
  rcases h.applied with heq | ⟨hle, hcov⟩ <;> rcases h'.applied with heq' | ⟨hle', hcov'⟩
  · exact .inl (heq'.trans heq)
  all_goals exact .inr ⟨by omega, by omega⟩

theorem Ascends.inTurn (h : Ascends r r') {k : Nat} {idx : Int} (ht : r.InTurn k idx) :
    r'.InTurn k idx := by
  obtain ⟨happlied, hcommitted⟩ := ht
  have hsnap := h.snapshot
  have hcommit := h.commit
  refine ⟨?_, by omega⟩
  rcases h.applied with heq | ⟨-, hcov⟩ <;> omega

theorem InOrder.of_part (h : r.InOrder) (hp : r'.orderPart = r.orderPart) : Ascends r r' := by
  simp only [orderPart, Prod.mk.injEq] at hp
  obtain ⟨hlogs, hsnap, happlied, hcommit⟩ := hp
  have hlast : r'.lastLogIndexLocked = r.lastLogIndexLocked := congrArg lastIndexOf hlogs
  refine ⟨⟨⟨hsnap ▸ h.pos, ?_⟩, ?_, ?_, ?_⟩, hsnap.ge, hcommit.ge, .inl happlied⟩
  · rw [hsnap, hlogs]
    exact h.log
  · rw [hsnap, happlied]
    exact h.snapshot_le
  · rw [happlied, hcommit]
    exact h.applied_le
  · rw [hcommit, hlast]
    exact h.commit_le

theorem InOrder.refl (h : r.InOrder) : Ascends r r := h.of_part rfl

theorem orderPart_persistLocked (r : Raft) : r.persistLocked.orderPart = r.orderPart := by
  rw [persistLocked]
  split_ifs <;> rfl

theorem Ascends.persist (h : Ascends r r') : Ascends r r'.persistLocked :=
  h.trans (h.toInOrder.of_part (orderPart_persistLocked r'))

theorem InOrder.last_eq (h : r.InOrder) : r.lastLogIndexLocked = r.snapshotIndex + r.logs.length - 1 :=
  h.log.lastIndexOf_eq

theorem InOrder.push (h : r.InOrder) {e : LogEntry} (he : e.index = r.lastLogIndexLocked + 1) :
    Ascends r (r.push e) := by
  have hlog := h.log.push he
  have hlast : (r.push e).lastLogIndexLocked = r.snapshotIndex + (r.logs ++ [e]).length - 1 :=
    hlog.lastIndexOf_eq
  have hlast' := h.last_eq
  have hcommit := h.commit_le
  rw [List.length_append, List.length_singleton] at hlast
  refine ⟨⟨⟨h.pos, hlog⟩, h.snapshot_le, h.applied_le, ?_⟩, le_rfl, le_rfl, .inl rfl⟩
  have hsame : (r.push e).commitIndex = r.commitIndex := rfl
  omega

theorem InOrder.commitTo (h : r.InOrder) {n : Int} (hle : r.commitIndex ≤ n)
    (hlast : n ≤ r.lastLogIndexLocked) : Ascends r { r with commitIndex := n } :=
  ⟨⟨⟨h.pos, h.log⟩, h.snapshot_le, h.applied_le.trans hle, hlast⟩, le_rfl, hle, .inl rfl⟩

variable {k : ReadUse}

theorem InOrder.change (h : r.InOrder) (hc : Change k r r') : Ascends r r' := by
  cases hc with
  | same hs =>
    refine h.of_part ?_
    simp only [scope, Scope.mk.injEq] at hs
    simp only [orderPart, hs]
  | persist => exact h.of_part (orderPart_persistLocked r)
  | commit hlt hin =>
    have hlast := h.last_eq
    have hin' := hin.2
    exact h.commitTo hlt.le (by omega)
  | push e hindex => exact h.push hindex
  | ack ctx s =>
    refine h.of_part ?_
    rw [recordReadAckLocked]
    dsimp only
    split_ifs <;> rfl
  | openRead now =>
    refine h.of_part ?_
    rw [readIndexOpen]
    split_ifs
    all_goals first | rfl | (split <;> rfl)
  | pollRead ctx term readIndex deadline now =>
    refine h.of_part ?_
    rw [readIndexPoll]
    dsimp only [readIndexLeave]
    split_ifs <;> rfl
  | turn | elect | kill =>
    refine h.of_part ?_
    rfl

theorem InOrder.changes (h : r.InOrder) (hc : Changes k r r') : Ascends r r' := by
  induction hc with
  | refl => exact h.refl
  | tail _ hc ih => exact ih.trans (ih.toInOrder.change hc)

/-- No entry of the request conflicts with the log at or below the commit index. -/
def NoClash (r : Raft) (args : AppendEntriesArgs) : Prop :=
  r.Accepts args →
    ∀ e ∈ args.entries, Conflicting r.snapshotIndex r.logs e → r.commitIndex < e.index

instance (r : Raft) (args : AppendEntriesArgs) : Decidable (r.NoClash args) := by
  unfold NoClash Accepts
  infer_instance

theorem mergeLocked_lastApplied (r : Raft) (args : AppendEntriesArgs) :
    (r.mergeLocked args).lastApplied = r.lastApplied := by
  rw [mergeLocked]
  dsimp only
  split_ifs
  · rw [persistLocked]
    split_ifs <;> rfl
  · rfl

/-- The entries are merged, and the commit index follows up to the last of them. -/
theorem InOrder.appendEntriesLocked (h : r.InOrder) {args : AppendEntriesArgs}
    (hargs : args.Contiguous) (hsafe : r.NoClash args) (reply : AppendEntriesReply) :
    Ascends r (r.appendEntriesLocked args reply).1 := by
  by_cases hacc : r.Accepts args
  · rw [appendEntriesLocked_of_accepts hacc, followCommit_eq]
    obtain ⟨hlogs, hsnap, hcommit, -⟩ := mergeLocked_parts r args
    have hmerge : Merges r.snapshotIndex args.prevLogIndex r.logs args.entries
        (r.mergeLocked args).logs := hlogs ▸ merges h.pos h.log hargs hacc.1 r.logStore
    have hreach := hmerge.reaches
    have hle : r.commitIndex ≤ lastIndexOf (r.mergeLocked args).logs :=
      hmerge.le_last h.log hargs (hsafe hacc) h.commit_le
    have happlied := mergeLocked_lastApplied r args
    have hmerged : Ascends r (r.mergeLocked args) := by
      refine ⟨⟨⟨hsnap ▸ h.pos, hsnap ▸ hmerge.leveled⟩, ?_, ?_, ?_⟩, hsnap.ge, hcommit.ge, .inl happlied⟩
      · rw [hsnap, happlied]
        exact h.snapshot_le
      · rw [happlied, hcommit]
        exact h.applied_le
      · rw [hcommit]
        exact hle
    refine hmerged.trans (hmerged.toInOrder.commitTo (le_max_left _ _) ?_)
    rw [hcommit, lastLogIndexLocked]
    omega
  · rw [(appendEntriesLocked_of_not_accepts hacc reply).1]
    exact h.refl

theorem InOrder.snapshotCut (h : r.InOrder) {index : Int} (hlt : r.snapshotIndex < index)
    (hle : index ≤ r.lastApplied) (term : Int) (data : Bytes) :
    Ascends r (r.snapshotCut index term data) := by
  have hlevel := h.toLevel.snapshotCut hlt term data
  have hlast : r.lastLogIndexLocked ≤ (r.snapshotCut index term data).lastLogIndexLocked :=
    lastIndexOf_cutLogs h.log hlt.le term
  exact ⟨⟨hlevel, hle, h.applied_le, h.commit_le.trans hlast⟩, hlt.le, le_rfl, .inl rfl⟩

theorem InOrder.snapshotCommit (h : r.InOrder) {index : Int} (hle : index ≤ r.lastApplied) (term : Int)
    (data : Bytes) : Ascends r (r.snapshotCommit index term data).1 := by
  rw [snapshotCommit_eq]
  cases hc : r.snapshotCheck index with
  | none => exact h.refl
  | some t =>
    have hlt := (snapshotCheck_eq_some hc).2.1
    exact (h.snapshotCut hlt hle term data).persist

/-- Phase 2 of `InstallSnapshot`, where it deposes nobody. -/
theorem InOrder.installLogs (h : r.InOrder) {args : InstallSnapshotArgs} {blob : Bytes}
    (hlt : r.lastApplied < args.lastIncludedIndex) :
    Ascends r ((r.installBegin args blob).installLogs args r.snapshotIndex) := by
  have hle : r.snapshotIndex ≤ args.lastIncludedIndex := h.snapshot_le.trans hlt.le
  have hcut := h.log.cut hle args.lastIncludedTerm
  have hend := hcut.lastIndexOf_eq
  have hlen := hcut.length_pos
  have hcommit := h.commit_le.trans (lastIndexOf_cutLogs h.log hle args.lastIncludedTerm)
  have hincluded : args.lastIncludedIndex ≤ lastIndexOf
      (cutLogs r.logs (args.lastIncludedIndex - r.snapshotIndex).toNat args.lastIncludedTerm
        args.lastIncludedIndex) := by omega
  rw [Raft.installLogs, installPos_of_le hle]
  refine Ascends.persist ?_
  exact ⟨⟨⟨h.pos.trans hle, hcut⟩, le_max_right _ _, max_le_max_right _ h.applied_le,
    max_le hcommit hincluded⟩, hle, le_max_left _ _, .inr ⟨le_max_left _ _, (max_eq_right hlt.le).le⟩⟩

/-- The applier goes from `r` to `r'`. -/
structure Advances (r r' : Raft) : Prop extends InOrder r' where
  snapshot : r'.snapshotIndex = r.snapshotIndex
  commit : r'.commitIndex = r.commitIndex
  applied : r.lastApplied ≤ r'.lastApplied

theorem Advances.trans (h : Advances r r') (h' : Advances r' r'') : Advances r r'' :=
  ⟨h'.toInOrder, h'.snapshot.trans h.snapshot, h'.commit.trans h.commit, h.applied.trans h'.applied⟩

theorem InOrder.advances (h : r.InOrder) (hp : r'.orderPart = r.orderPart) : Advances r r' := by
  have ha := h.of_part hp
  simp only [orderPart, Prod.mk.injEq] at hp
  exact ⟨ha.toInOrder, hp.2.1, hp.2.2.2, hp.2.2.1.ge⟩

theorem InOrder.applyTo (h : r.InOrder) {idx : Int} (hle : r.lastApplied ≤ idx)
    (hcommit : idx ≤ r.commitIndex) : Advances r { r with lastApplied := idx } :=
  ⟨⟨⟨h.pos, h.log⟩, h.snapshot_le.trans hle, hcommit, h.commit_le⟩, rfl, rfl, hle⟩

theorem orderPart_applyConf (r : Raft) (idx : Int) (e : LogEntry) :
    (r.applyConf idx e).orderPart = r.orderPart := by
  rw [applyConf]
  refine (orderPart_persistLocked _).trans ?_
  split_ifs <;> rfl

/-- The applier takes `idx`, and may take the next one. -/
theorem InOrder.applyTurn (h : r.InOrder) {k : Nat} {idx : Int} (ht : r.InTurn (k+1) idx) :
    Advances r ((r.applyTurn idx).raft r) ∧
      (r.applyTurn idx ≠ .stop → ((r.applyTurn idx).raft r).InTurn k (idx+1)) := by
  obtain ⟨happlied, hcommitted⟩ := ht
  have hsnap := h.snapshot_le
  push_cast at hcommitted
  have htake : ¬ idx ≤ r.snapshotIndex → Advances r { r with lastApplied := idx } :=
    fun hskip => h.applyTo (by omega) (by omega)
  have hnext : InTurn { r with lastApplied := idx } k (idx+1) := ⟨by dsimp only; omega, by dsimp only; omega⟩
  rw [Raft.applyTurn]
  dsimp only
  split_ifs with hgate hskip hin hconf
  · exact ⟨h.advances rfl, fun hne => absurd rfl hne⟩
  · have hmax : max r.lastApplied idx = r.lastApplied := by omega
    dsimp only [ApplyTurn.raft]
    rw [hmax]
    exact ⟨h.advances rfl, fun _ => ⟨by dsimp only; omega, by dsimp only; omega⟩⟩
  · have hto := htake hskip
    have hconf := orderPart_applyConf { r with lastApplied := idx } idx (r.logAt idx)
    exact ⟨hto.trans (hto.toInOrder.advances hconf), fun _ => (hto.toInOrder.of_part hconf).inTurn hnext⟩
  · exact ⟨htake hskip, fun _ => hnext⟩
  · exact ⟨h.advances rfl, fun hne => absurd rfl hne⟩

theorem orderPart_applyConfAfter (r : Raft) (now : Int) :
    (r.applyConfAfter now).orderPart = r.orderPart := by
  rw [applyConfAfter]
  split_ifs <;> rfl

theorem InOrder.applyRun (h : r.InOrder) (now : Int) {k : Nat} {idx : Int} (ht : r.InTurn k idx)
    (batch : List ApplyMsg) :
    Advances r (r.applyRun now k idx batch).1 ∧
      ∀ k' idx', (r.applyRun now k idx batch).2.2 = some (k', idx') →
        (r.applyRun now k idx batch).1.InTurn k' idx' := by
  induction k generalizing r idx batch with
  | zero =>
    refine ⟨h.advances rfl, fun k' idx' hpause => ?_⟩
    cases hpause
  | succ k ih =>
    obtain ⟨hturn, hnext⟩ := h.applyTurn ht
    rw [Raft.applyRun]
    cases hres : r.applyTurn idx with
    | stop => exact ⟨h.advances rfl, by simp⟩
    | skip r' =>
      rw [hres] at hturn hnext
      obtain ⟨hrest, hpause⟩ := ih hturn.toInOrder (hnext (by simp)) batch
      exact ⟨hturn.trans hrest, hpause⟩
    | dispatch r' msg =>
      rw [hres] at hturn hnext
      obtain ⟨hrest, hpause⟩ := ih hturn.toInOrder (hnext (by simp)) (batch ++ [msg])
      exact ⟨hturn.trans hrest, hpause⟩
    | conf r' msg =>
      rw [hres] at hturn hnext
      have hready : r'.InTurn k (idx+1) := hnext (by simp)
      dsimp only
      split_ifs
      · refine ⟨hturn, fun k' idx' heq => ?_⟩
        cases heq
        exact hready
      · have hpart := orderPart_applyConfAfter r' now
        have hafter : Advances r' (r'.applyConfAfter now) := hturn.toInOrder.advances hpart
        have hthen := (hturn.toInOrder.of_part hpart).inTurn hready
        obtain ⟨hrest, hpause⟩ := ih hafter.toInOrder hthen (batch ++ [msg])
        exact ⟨hturn.trans (hafter.trans hrest), hpause⟩

/-- A node comes up with what its snapshot covers as committed and applied. -/
theorem make_indexes (peers me : Nat) (d : Disk) (now : Int) :
    (make peers me d now).lastApplied = (make peers me d now).snapshotIndex ∧
      (make peers me d now).commitIndex = (make peers me d now).snapshotIndex := by
  have hadopt : ∀ (r : Raft) (b : SnapshotBlob), r.lastApplied = r.snapshotIndex →
      r.commitIndex = r.snapshotIndex → (r.adoptBlob b).lastApplied = (r.adoptBlob b).snapshotIndex ∧
        (r.adoptBlob b).commitIndex = (r.adoptBlob b).snapshotIndex := by
    intro r b happlied hcommit
    rw [adoptBlob]
    by_cases hlt : r.snapshotIndex < b.index
    · simp [hlt, happlied, hcommit, hlt.le]
    · simp only [if_neg hlt]
      split_ifs <;> exact ⟨happlied, hcommit⟩
  rw [make]
  dsimp only
  split
  · rw [readPersist]
    dsimp only [restoreRest]
    split
    · exact hadopt _ _ rfl rfl
    · exact ⟨rfl, rfl⟩
  · exact ⟨rfl, rfl⟩

theorem inOrder_make (peers me : Nat) {d : Disk} (now : Int) (hd : d.Whole) :
    (make peers me d now).InOrder := by
  have hlevel := level_make peers me now hd
  obtain ⟨happlied, hcommit⟩ := make_indexes peers me d now
  have hlast : (make peers me d now).lastLogIndexLocked = _ := hlevel.log.lastIndexOf_eq
  have hlen := hlevel.log.length_pos
  exact ⟨hlevel, happlied.ge, by omega, by omega⟩

end Raft

/-- A snapshot of the node's own is one of what is applied. -/
def BlobUser.Paced (applied : Int) : BlobUser → Prop
  | .snapshot index _ _ => index ≤ applied
  | .install _ _ => True

/-- What a waiting thread will do keeps the order: entries without a gap, a snapshot of what is applied,
and no snapshot that is half in place. -/
def Stretch.Paced (applied : Int) : Stretch → Prop
  | .append args => args.Contiguous
  | .saveBlob u => u.Paced applied
  | .snapshotCommit index _ _ => index ≤ applied
  | .installLogs _ _ _ => False
  | _ => True

/-- The stretch merges no entry in conflict with what is committed, and installs no snapshot that makes
a leader a non-voter. -/
def Stretch.Heeded (r : Raft) : Stretch → Prop
  | .append args => r.NoClash args
  | .installCommit args blob =>
    r.installStale args = false → (r.installBegin args blob).installDeposed args = false
  | _ => True

theorem BlobUser.Paced.mono {u : BlobUser} {i i' : Int} (h : u.Paced i) (hle : i ≤ i') : u.Paced i' := by
  cases u with
  | snapshot index term data => exact le_trans h hle
  | install args blob => trivial

theorem BlobUser.Paced.next {u : BlobUser} {i : Int} (h : u.Paced i) : u.next.Paced i := by
  cases u with
  | snapshot index term data => exact h
  | install args blob => trivial

theorem Stretch.Paced.mono {st : Stretch} {i i' : Int} (h : st.Paced i) (hle : i ≤ i') : st.Paced i' := by
  cases st with
  | append args => exact h
  | saveBlob u => exact BlobUser.Paced.mono h hle
  | snapshotCommit index term data => exact le_trans h hle
  | installLogs args blob old => exact h
  | _ => trivial

theorem Stretch.Routine.paced {st : Stretch} (h : st.Routine) (i : Int) : st.Paced i := by
  cases st with
  | saveBlob u =>
    cases u with
    | snapshot index term data => cases h
    | install args blob => trivial
  | append args => cases h
  | snapshotCommit index term data => cases h
  | installLogs args blob old => cases h
  | _ => trivial

namespace Process

open Raft

/-- The indexes are in order, and stay so whatever goes on. -/
structure Ordered (p : Process) : Prop where
  raft : p.raft.InOrder
  threads : ∀ t ∈ p.threads, t.stretch.Paced p.raft.lastApplied
  io : ∀ u b, p.io = some (u, b) → u.Paced p.raft.lastApplied
  applier : ∀ a, p.applier = some a → p.raft.InTurn a.left a.idx

structure Climbs (p p' : Process) : Prop where
  ordered : p'.Ordered
  snapshot : p.raft.snapshotIndex ≤ p'.raft.snapshotIndex
  applied : p.raft.lastApplied ≤ p'.raft.lastApplied
  commit : p.raft.commitIndex ≤ p'.raft.commitIndex

variable {p p' : Process} {r : Raft}

/-- A step that leaves the applier alone. -/
theorem Ordered.climbs (h : p.Ordered) (hr : Ascends p.raft p'.raft) (happlier : p'.applier = p.applier)
    (hthreads : ∀ t ∈ p'.threads, t ∈ p.threads ∨ t.stretch.Paced p'.raft.lastApplied)
    (hio : ∀ u b, p'.io = some (u, b) → u.Paced p'.raft.lastApplied) : Climbs p p' := by
  refine ⟨⟨hr.toInOrder, fun t ht => ?_, hio, fun a ha => ?_⟩, hr.snapshot, hr.applied_mono, hr.commit⟩
  · rcases hthreads t ht with hold | hnew
    · exact (h.threads t hold).mono hr.applied_mono
    · exact hnew
  · exact hr.inTurn (h.applier a (happlier ▸ ha))

/-- Besides, it leaves `snap_io_mu_` alone. -/
theorem Ordered.moves {P : Stretch → Prop} {R : Raft → Raft → Prop} (h : p.Ordered) (hv : Moves P R p p')
    (hr : Ascends p.raft p'.raft) (happlier : p'.applier = p.applier)
    (hP : ∀ st, P st → st.Paced p'.raft.lastApplied) : Climbs p p' := by
  refine h.climbs hr happlier (fun t ht => (hv.threads t ht).imp_right (hP _)) fun u b hio => ?_
  exact (h.io u b (hv.io ▸ hio)).mono hr.applied_mono

theorem Ordered.raft_step (h : p.Ordered) (hr : Ascends p.raft r) : Climbs p { p with raft := r } :=
  h.climbs hr rfl (fun _ ht => .inl ht) fun u b hio => (h.io u b hio).mono hr.applied_mono

theorem Ordered.refl (h : p.Ordered) : Climbs p p := h.raft_step h.raft.refl

theorem Ordered.wait (h : p.Ordered) (hr : Ascends p.raft r) {st : Stretch}
    (hst : st.Paced r.lastApplied) : Climbs p (p.wait r st) :=
  h.moves (moves_wait (P := (st = ·)) (R := fun _ _ => True) trivial rfl) hr rfl fun _ heq => heq ▸ hst

theorem Ordered.spawn (h : p.Ordered) (hr : Ascends p.raft r) {st : Stretch}
    (hst : st.Paced r.lastApplied) : Climbs p (p.spawn r st) :=
  h.moves (moves_spawn (P := (st = ·)) (R := fun _ _ => True) trivial rfl) hr rfl fun _ heq => heq ▸ hst

theorem Ordered.appendEntries (h : p.Ordered) {args : AppendEntriesArgs} (now : Int)
    (hargs : args.Contiguous) (hsafe : p.raft.killed = false → p.raft.currentTerm = args.term →
      p.raft.state = .kFollower → p.raft.NoClash args) : Climbs p (p.appendEntries args now) := by
  rw [Process.appendEntries]
  dsimp only
  split_ifs with hno hwait
  · exact h.refl
  · have hterm : p.raft.currentTerm ≤ args.term := by
      rw [not_or, not_lt] at hno
      exact hno.2
    have hdown : Changes .none (p.raft.heardLeader args now) _ := changes_convertToFollowerLocked hterm
    have hheard : Ascends p.raft (p.raft.heardLeader args now) := h.raft.of_part rfl
    exact h.wait (hheard.trans (hheard.toInOrder.changes hdown)) hargs
  · rw [not_or, not_lt] at hno
    rw [not_or, not_lt, not_not] at hwait
    have hheard : Ascends p.raft (p.raft.heardLeader args now) := h.raft.of_part rfl
    have hmerge := hheard.toInOrder.appendEntriesLocked hargs
      (hsafe (Bool.not_eq_true _ ▸ hno.1) (le_antisymm hno.2 hwait.1) hwait.2) {}
    exact h.raft_step (hheard.trans hmerge)

theorem Ordered.settleApply (h : p.Ordered) {res : Raft × List ApplyMsg × Option (Nat × Int)}
    (hr : Advances p.raft res.1) (hpause : ∀ k idx, res.2.2 = some (k, idx) → res.1.InTurn k idx) :
    Climbs p (p.settleApply res) := by
  have hordered : ∀ p' : Process, p'.raft = res.1 → p'.threads = p.threads → p'.io = p.io →
      (∀ a, p'.applier = some a → res.1.InTurn a.left a.idx) → Climbs p p' := by
    intro p' hraft hthreads hio happlier
    rw [← hraft] at hr happlier
    refine ⟨⟨hr.toInOrder, fun t ht => ?_, fun u b hu => ?_, happlier⟩, hr.snapshot.ge, hr.applied,
      hr.commit.ge⟩
    · exact (h.threads t (hthreads ▸ ht)).mono hr.applied
    · exact (h.io u b (hio ▸ hu)).mono hr.applied
  rw [Process.settleApply]
  split
  · exact hordered _ rfl rfl rfl (by simp)
  · next k idx heq =>
    refine hordered _ rfl rfl rfl fun a ha => ?_
    cases ha
    exact hpause k idx heq

theorem Ordered.applyLoop (h : p.Ordered) (now : Int) : Climbs p (p.applyLoop now) := by
  have hrun : Climbs p (p.settleApply
      (p.raft.applyRun now (p.raft.applyStop - p.raft.lastApplied).toNat (p.raft.lastApplied + 1) [])) := by
    have happlied := h.raft.applied_le
    have hstop : p.raft.applyStop ≤ p.raft.commitIndex := (min_le_left _ _).trans (min_le_left _ _)
    have hturn : p.raft.InTurn (p.raft.applyStop - p.raft.lastApplied).toNat (p.raft.lastApplied + 1) :=
      ⟨by omega, by omega⟩
    have hr := h.raft.applyRun now hturn []
    exact h.settleApply hr.1 hr.2
  rw [Process.applyLoop]
  split_ifs
  · exact h.refl
  · split
    · exact h.climbs (h.raft.of_part rfl) rfl (fun _ ht => .inl ht) h.io
    · exact hrun
  · split
    · exact h.climbs (h.raft.of_part rfl) rfl (fun _ ht => .inl ht) h.io
    · exact h.refl

theorem Ordered.applyResume (h : p.Ordered) (now : Int) : Climbs p (p.applyResume now) := by
  rw [Process.applyResume]
  cases ha : p.applier with
  | none => exact h.refl
  | some a =>
    dsimp only
    split_ifs
    · have hafter := h.raft.of_part (orderPart_applyConfAfter p.raft now)
      have hr := hafter.toInOrder.applyRun now (hafter.inTurn (h.applier a ha)) a.batch
      have hback := h.raft.advances (orderPart_applyConfAfter p.raft now)
      exact h.settleApply (hback.trans hr.1) hr.2
    · exact h.refl

theorem Ordered.saveBlob (h : p.Ordered) {u : BlobUser} (hu : u.Paced p.raft.lastApplied) :
    Climbs p (p.saveBlob u) := by
  rw [Process.saveBlob]
  split_ifs
  · exact h.spawn h.raft.refl hu
  · exact h.spawn h.raft.refl hu.next
  · refine h.climbs h.raft.refl rfl (fun _ ht => .inl ht) fun v b hio => ?_
    cases hio
    exact hu

theorem Ordered.writeBlob (h : p.Ordered) : Climbs p p.writeBlob := by
  rw [Process.writeBlob]
  split
  · exact h.refl
  · next u hio =>
    refine h.climbs (h.raft.of_part rfl) rfl (fun _ ht => .inl ht) fun v b hio' => ?_
    cases hio'
    exact h.io u false hio
  · next u hio =>
    refine h.climbs (h.raft.of_part rfl) rfl (fun t ht => ?_) fun v b hio' => ?_
    · rcases List.mem_append.mp ht with ht | ht
      · exact .inl ht
      · rw [List.mem_singleton.mp ht]
        exact .inr (h.io u true hio).next
    · cases hio'

theorem Ordered.flush (h : p.Ordered) : Climbs p p.flush := by
  have hraft : ∀ p' : Process, p'.raft.orderPart = p.raft.orderPart → p'.applier = p.applier →
      p'.threads = p.threads → p'.io = p.io → Climbs p p' := by
    intro p' hpart happlier hthreads hio
    have hr := h.raft.of_part hpart
    refine h.climbs hr happlier (fun t ht => .inl (hthreads ▸ ht)) fun u b hu => ?_
    exact (h.io u b (hio ▸ hu)).mono hr.applied_mono
  rw [Process.flush]
  split
  · split
    · split_ifs
      · exact hraft _ rfl rfl rfl rfl
      · exact h.refl
    · exact h.refl
  · exact hraft _ rfl rfl rfl rfl
  · exact hraft _ rfl rfl rfl rfl

/-- Phase 2 of `InstallSnapshot`, where it deposes nobody. -/
theorem Ordered.installCommit (h : p.Ordered) {args : InstallSnapshotArgs} {blob : Bytes}
    (hdep : p.raft.installStale args = false → (p.raft.installBegin args blob).installDeposed args = false) :
    Climbs p (p.installCommit args blob) := by
  rw [Process.installCommit]
  cases hstale : p.raft.installStale args with
  | true => exact h.refl
  | false =>
    have hlt : p.raft.lastApplied < args.lastIncludedIndex := by
      simp only [installStale, Bool.or_eq_false_iff, decide_eq_false_iff_not, not_le] at hstale
      exact hstale.2
    simp only [hdep hstale, Bool.false_eq_true, ↓reduceIte]
    exact h.wait (h.raft.installLogs hlt) trivial

theorem Ordered.runStretch (h : p.Ordered) (now : Int) {st : Stretch} (hst : st.Paced p.raft.lastApplied)
    (hheeded : st.Heeded p.raft) : Climbs p (p.runStretch now st) := by
  cases st with
  | append args => exact h.raft_step (h.raft.appendEntriesLocked hst hheeded {})
  | saveBlob u => exact h.saveBlob hst
  | snapshotCommit index term data =>
    have hr := h.raft.snapshotCommit hst term data
    rw [Process.runStretch]
    split_ifs
    · exact h.wait hr trivial
    · exact h.raft_step hr
  | truncateStore index => exact h.raft_step (h.raft.of_part rfl)
  | installCommit args blob => exact h.installCommit hheeded
  | installLogs args blob old => cases hst
  | installFinish msg keep => exact h.raft_step (h.raft.of_part rfl)
  | _ =>
    refine h.moves (goes_runStretch p now trivial (by simp)) ?_ (applier_runStretch p now _)
      fun _ hst => hst.paced _
    exact h.raft.changes (k := .none) (changes_runStretch p now trivial (by simp))

/-- What the order of the indexes relies on: entries arrive without a gap, none in conflict with what is
committed; a snapshot is taken of what is applied; one that is installed makes no leader a non-voter;
and a restart finds a whole disk. -/
def Heeds (p : Process) : ProcessEvent → Prop
  | .appendEntries args _ => args.Contiguous ∧
      (p.raft.killed = false → p.raft.currentTerm = args.term → p.raft.state = .kFollower →
        p.raft.NoClash args)
  | .snapshot index _ => index ≤ p.raft.lastApplied
  | .resume k _ => ∀ t, p.threads[k]? = some t → p.ready t.version = true → t.stretch.Heeded p.raft
  | .restart _ => p.disk.Whole
  | _ => True

theorem Ordered.resume (h : p.Ordered) {k : Nat} {now : Int} (hheeds : p.Heeds (.resume k now)) :
    Climbs p (p.resume k now) := by
  rw [Process.resume]
  cases ht : p.threads[k]? with
  | none => exact h.refl
  | some t =>
    dsimp only
    split_ifs with hready
    · have h₀ : Ordered { p with threads := p.threads.eraseIdx k } :=
        ⟨h.raft, fun t ht => h.threads t (List.mem_of_mem_eraseIdx ht), h.io, h.applier⟩
      have hrun := h₀.runStretch now (h.threads t (List.mem_of_getElem? ht)) (hheeds t ht hready)
      exact ⟨hrun.ordered, hrun.snapshot, hrun.applied, hrun.commit⟩
    · exact h.refl

theorem Ordered.plain (h : p.Ordered) {e : ProcessEvent} (he : e.Plain)
    (hno : ∀ index data, e ≠ .snapshot index data) (hstays : ApplierStays e) : Climbs p (p.step e) :=
  h.moves (goes_step p he hno) (h.raft.changes (changes_step p he)) (applier_step p hstays)
    fun _ hst => hst.paced _

theorem Ordered.step (h : p.Ordered) {e : ProcessEvent} (hup : ∀ now, e ≠ .restart now)
    (he : p.Heeds e) : Climbs p (p.step e) := by
  cases e with
  | appendEntries args now => exact h.appendEntries now he.1 he.2
  | snapshot index data =>
    rw [Process.step, Process.snapshot]
    split
    · exact h.refl
    · exact h.spawn h.raft.refl he
  | applyLoop now => exact h.applyLoop now
  | applyResume now => exact h.applyResume now
  | resume k now => exact h.resume he
  | writeBlob => exact h.writeBlob
  | flush => exact h.flush
  | restart now => exact absurd rfl (hup now)
  | _ => exact h.plain trivial (by simp) trivial

theorem ordered_boot (peers me : Nat) {d : Disk} (now : Int) (hd : d.Whole) :
    (boot peers me d now).Ordered :=
  ⟨inOrder_make peers me now hd, fun _ ht => absurd ht List.not_mem_nil, by simp [boot], by simp [boot]⟩

theorem Ordered.next (h : p.Ordered) {e : ProcessEvent} (he : p.Heeds e) : (p.step e).Ordered := by
  by_cases hup : ∃ now, e = .restart now
  · obtain ⟨now, rfl⟩ := hup
    exact ordered_boot p.raft.peers p.raft.me now he
  · exact (h.step (not_exists.mp hup) he).ordered

theorem Ordered.run (h : p.Ordered) {es : List ProcessEvent} (hes : Meets Heeds p es) :
    (p.run es).Ordered := by
  induction es generalizing p with
  | nil => exact h
  | cons e es ih => exact ih (h.next hes.1) hes.2

/-- While the node runs, no index goes back. -/
theorem Ordered.climbs_run (h : p.Ordered) {es : List ProcessEvent} (hup : ∀ now, .restart now ∉ es)
    (hes : Meets Heeds p es) : Climbs p (p.run es) := by
  induction es generalizing p with
  | nil => exact h.refl
  | cons e es ih =>
    have hstep := h.step (fun now he => hup now (he ▸ List.mem_cons_self)) hes.1
    have hrest := ih hstep.ordered (fun now hmem => hup now (List.mem_cons_of_mem e hmem)) hes.2
    exact ⟨hrest.ordered, hstep.snapshot.trans hrest.snapshot, hstep.applied.trans hrest.applied,
      hstep.commit.trans hrest.commit⟩

/-- In every state of a run that heeds all this the four indexes are in order, and from one state to a
later one the first three do not go back unless the node restarts. -/
theorem index_order (peers me : Nat) (d : Disk) (now : Int) (hd : d.Whole) (es : List ProcessEvent)
    (hes : Meets Heeds (boot peers me d now) es) :
    let p := boot peers me d now
    let r := (p.run es).raft
    (r.snapshotIndex ≤ r.lastApplied ∧ r.lastApplied ≤ r.commitIndex ∧
      r.commitIndex ≤ r.lastLogIndexLocked) ∧
      ∀ es₁ es₂, es = es₁ ++ es₂ → (∀ now, .restart now ∉ es₂) →
        (p.run es₁).raft.snapshotIndex ≤ r.snapshotIndex ∧
          (p.run es₁).raft.lastApplied ≤ r.lastApplied ∧
          (p.run es₁).raft.commitIndex ≤ r.commitIndex := by
  intro p r
  have h := (ordered_boot peers me now hd).run hes
  refine ⟨⟨h.raft.snapshot_le, h.raft.applied_le, h.raft.commit_le⟩, ?_⟩
  rintro es₁ es₂ rfl hup
  obtain ⟨hes₁, hes₂⟩ := meets_append.mp hes
  have hclimbs := ((ordered_boot peers me now hd).run hes₁).climbs_run hup hes₂
  rw [← run_append] at hclimbs
  exact ⟨hclimbs.snapshot, hclimbs.applied, hclimbs.commit⟩

/-- No thread is about to install a snapshot, or to merge entries in conflict. -/
theorem heeds_resume {k : Nat} {now : Int}
    (h : (p.threads.all fun t => match t.stretch with
      | .append args => decide (p.raft.NoClash args)
      | .installCommit _ _ => false
      | _ => true) = true) : p.Heeds (.resume k now) := by
  intro t ht _
  have hall := List.all_eq_true.mp h t (List.mem_of_getElem? ht)
  cases hst : t.stretch with
  | append args =>
    rw [hst] at hall
    have hsafe : p.raft.NoClash args := of_decide_eq_true hall
    exact hsafe
  | installCommit args blob => simp [hst] at hall
  | _ => trivial

end Process

open Process

theorem index_order_window :
    let r := ((boot 2 0 { persister := { fileBacked := true } } 0).run (snapshotWindow 2)).raft
    (r.snapshotIndex = 3 ∧ r.lastLogIndexLocked = 5) ∧ r.snapshotIndex ≤ r.lastApplied ∧
      r.lastApplied ≤ r.commitIndex ∧ r.commitIndex ≤ r.lastLogIndexLocked := by
  have hes : Meets Heeds (boot 2 0 { persister := { fileBacked := true } } 0) (snapshotWindow 2) := by
    refine ⟨⟨⟨rfl, rfl, rfl, trivial⟩, ?_⟩, trivial, trivial, trivial, ?_, trivial, ?_, ?_, trivial, trivial,
      ?_, ⟨⟨rfl, rfl, trivial⟩, ?_⟩, trivial⟩
    · decide +kernel
    · exact heeds_resume (by decide +kernel)
    · change (_ : Int) ≤ _
      decide +kernel
    · exact heeds_resume (by decide +kernel)
    · exact heeds_resume (by decide +kernel)
    · decide +kernel
  have hwhole : Disk.Whole { persister := { fileBacked := true } } :=
    ⟨fun _ => rfl, by simp, by simp, by simp⟩
  exact ⟨by decide +kernel, (index_order 2 0 _ 0 hwhole (snapshotWindow 2) hes).1⟩

/-- A leader of term 1 gets a snapshot of that term that lists it as a learner: while it waits to be a
follower, its snapshot is ahead of what is applied, committed and held. -/
theorem index_out_of_order :
    let r := ((boot 2 0 { persister := { fileBacked := true } } 0).run
      [.electionTimeout 200,
        .prevoteReply { term := 0, candidateId := 0, lastLogIndex := 0, lastLogTerm := 0 } 1
          { term := 0, voteGranted := true } 200, .resume 0 200,
        .voteReply { term := 1, candidateId := 0, lastLogIndex := 0, lastLogTerm := 0 } 1
          { term := 1, voteGranted := true } 200,
        .installSnapshot { lastChunk 5 with members := [1, 2] } 200, .resume 1 200, .writeBlob, .writeBlob,
        .resume 1 200]).raft
    r.state = .kFollower ∧ r.snapshotIndex = 5 ∧ r.lastApplied = 0 ∧ r.commitIndex = 0 ∧
      r.lastLogIndexLocked = 0 := by
  decide +kernel

end ChonKV
