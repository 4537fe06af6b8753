import ChonKV.Durable.BlobOrder
import ChonKV.Durable.Mirror

/-!
The rule for runs of a process: a property of the `Raft` object that the stretches of its handlers keep
holds wherever `mu_` is free.
-/

set_option autoImplicit false

namespace ChonKV

open Raft

/-- What a waiting thread will do to the log fits the snapshot. -/
def Stretch.Fits (snapshotIndex : Int) : Stretch → Prop
  | .append args => args.Contiguous
  | .truncateStore index => index ≤ snapshotIndex
  | .installFinish msg _ => msg.snapshotIndex ≤ snapshotIndex
  | .installLogs _ _ _ => False
  | _ => True

theorem Stretch.Plain.fits {st : Stretch} (h : st.Plain) (i : Int) : st.Fits i := by
  cases st <;> trivial

theorem Stretch.Fits.mono {st : Stretch} {i i' : Int} (h : st.Fits i) (hle : i ≤ i') : st.Fits i' := by
  cases st <;> first | trivial | exact h | exact le_trans h hle

theorem BlobUser.fits_next (u : BlobUser) (i : Int) : u.next.Fits i := by
  cases u <;> trivial

namespace Raft

/-- `r` becomes `r'`, which is no new leader, with the same log, snapshot and freezing points. -/
structure Quiet (r r' : Raft) : Prop where
  index : r'.snapshotIndex = r.snapshotIndex
  backed : r'.persister.fileBacked = r.persister.fileBacked
  logs : r'.logs = r.logs
  logStore : r'.logStore = r.logStore
  peers : r'.peers = r.peers
  members : r'.isMember.length = r.isMember.length
  leader : r'.state = .kLeader → r.state = .kLeader
  removedAt : r'.removedAtIndex = r.removedAtIndex

theorem Still.quiet {r r' : Raft} (h : Still r r') : Quiet r r' :=
  ⟨h.index, h.backed, h.logs, h.logStore, h.peers, h.members, h.leader, h.removedAt⟩

/-- What the handlers keep, apart from the entries that they merge or apply. -/
structure Kept (Q : Raft → Prop) : Prop where
  quiet : ∀ {r r' : Raft}, Q r → Quiet r r' → Q r'
  edit : ∀ {r r' : Raft}, Q r → Edit r r' → Q r'
  snapshotCut : ∀ {r : Raft} {index : Int}, Q r → r.snapshotIndex < index → r.inLogs index →
    ∀ term data, Q (r.snapshotCut index term data)
  truncatePrefix : ∀ {r : Raft} {index : Int}, Q r → index ≤ r.snapshotIndex →
    Q { r with logStore := r.logStore.truncatePrefix index }
  installLogs : ∀ {r : Raft} {args : InstallSnapshotArgs} {blob : Bytes}, Q r →
    r.snapshotIndex ≤ args.lastIncludedIndex → (r.installBegin args blob).installDeposed args = false →
    Q ((r.installBegin args blob).installLogs args r.snapshotIndex)
  make : ∀ {p : Process}, Q p.raft → p.disk.Whole → ∀ now,
    Q (make p.raft.peers p.raft.me p.disk now)

variable {Q : Raft → Prop} {r r' : Raft}

theorem Kept.still (hQ : Kept Q) (h : Q r) (hs : Still r r') : Q r' := hQ.quiet h hs.quiet

theorem Kept.edited (hQ : Kept Q) (h : Q r) (hg : Edited r r') : Q r' := by
  induction hg with
  | still hs => exact hQ.still h hs
  | edit _ he hs ih => exact hQ.still (hQ.edit ih he) hs

theorem Kept.installFinish (hQ : Kept Q) (h : Q r) {msg : ApplyMsg} (keep : Bool)
    (hmsg : msg.snapshotIndex ≤ r.snapshotIndex) : Q (r.installFinish msg keep) := by
  have hle : (if keep = true then msg.snapshotIndex - 1 else msg.snapshotIndex) ≤ r.snapshotIndex := by
    split_ifs <;> omega
  exact hQ.quiet (hQ.truncatePrefix h hle) ⟨rfl, rfl, rfl, rfl, rfl, rfl, id, rfl⟩

end Raft

namespace Process

/-- The property holds of the `Raft` object, and the waiting threads fit its snapshot. -/
structure Holds (Q : Raft → Prop) (p : Process) : Prop where
  raft : Q p.raft
  threads : ∀ t ∈ p.threads, t.stretch.Fits p.raft.snapshotIndex

variable {Q : Raft → Prop} {p p' : Process} {r : Raft}

/-- A step that keeps the snapshot. -/
theorem Holds.moves {P : Stretch → Prop} (h : p.Holds Q)
    (hv : Moves P (fun r r' => r'.snapshotIndex = r.snapshotIndex ∧ Q r') p p')
    (hP : ∀ st, P st → st.Fits p.raft.snapshotIndex) : p'.Holds Q := by
  obtain ⟨hidx, hr⟩ := hv.raft
  refine ⟨hr, fun t ht => ?_⟩
  rw [hidx]
  cases hv.threads t ht with
  | inl hold => exact h.threads t hold
  | inr hnew => exact hP _ hnew

theorem Holds.raft_step (h : p.Holds Q) (hidx : r.snapshotIndex = p.raft.snapshotIndex) (hr : Q r) :
    Holds Q { p with raft := r } :=
  h.moves (P := Stretch.Plain) (moves_raft ⟨hidx, hr⟩) fun _ hst => hst.fits _

theorem Holds.via (hQ : Kept Q) (h : p.Holds Q) (hv : Via p p') : p'.Holds Q :=
  h.moves ⟨⟨hv.raft.keeps.index, hQ.edited h.raft hv.raft⟩, hv.io, hv.flusher, hv.threads⟩
    fun _ hst => hst.fits _

/-- A stretch that leaves a later snapshot behind, and a thread that fits it. -/
theorem Holds.wait (h : p.Holds Q) (hr : Q r) (hle : p.raft.snapshotIndex ≤ r.snapshotIndex)
    {st : Stretch} (hst : st.Fits r.snapshotIndex) : (p.wait r st).Holds Q := by
  refine ⟨hr, fun t ht => ?_⟩
  cases List.mem_append.mp ht with
  | inl ht => exact (h.threads t ht).mono hle
  | inr ht =>
    rw [List.mem_singleton.mp ht]
    exact hst

theorem Holds.spawn (h : p.Holds Q) {st : Stretch} (hst : st.Fits p.raft.snapshotIndex) :
    (p.spawn p.raft st).Holds Q := by
  refine ⟨h.raft, fun t ht => ?_⟩
  cases List.mem_append.mp ht with
  | inl ht => exact h.threads t ht
  | inr ht =>
    rw [List.mem_singleton.mp ht]
    exact hst

/-- What stands on the disk, and what is known of it, has no part in the property. -/
theorem Holds.quiet (hQ : Kept Q) (h : p.Holds Q) (hq : Quiet p.raft p'.raft)
    (hthreads : p'.threads = p.threads) : p'.Holds Q := by
  refine ⟨hQ.quiet h.raft hq, fun t ht => ?_⟩
  rw [hq.index]
  exact h.threads t (hthreads ▸ ht)

theorem Holds.saveBlob (hQ : Kept Q) (h : p.Holds Q) (u : BlobUser) : (p.saveBlob u).Holds Q := by
  rw [Process.saveBlob]
  split_ifs
  · exact h.spawn trivial
  · exact h.spawn (u.fits_next _)
  · exact h.quiet hQ ⟨rfl, rfl, rfl, rfl, rfl, rfl, id, rfl⟩ rfl

theorem Holds.writeBlob (hQ : Kept Q) (h : p.Holds Q) : Holds Q p.writeBlob := by
  rw [Process.writeBlob]
  split
  · exact h
  · exact h.quiet hQ ⟨rfl, rfl, rfl, rfl, rfl, rfl, id, rfl⟩ rfl
  · next u _ =>
    have hdone : Holds Q { p with
        raft := { p.raft with savedBlobIndex := max p.raft.savedBlobIndex u.blob.index }
        io := none } := h.quiet hQ ⟨rfl, rfl, rfl, rfl, rfl, rfl, id, rfl⟩ rfl
    exact hdone.spawn (u.fits_next _)

theorem Holds.flush (hQ : Kept Q) (h : p.Holds Q) : p.flush.Holds Q := by
  rw [Process.flush]
  cases p.flusher with
  | idle =>
    dsimp only
    cases p.raft.pendingStateBlob with
    | none => exact h
    | some st =>
      dsimp only
      split_ifs
      · exact h.quiet hQ ⟨rfl, rfl, rfl, rfl, rfl, rfl, id, rfl⟩ rfl
      · exact h
  | saving st v => exact h.quiet hQ ⟨rfl, rfl, rfl, rfl, rfl, rfl, id, rfl⟩ rfl
  | saved v => exact h.quiet hQ ⟨rfl, rfl, rfl, rfl, rfl, rfl, id, rfl⟩ rfl

theorem Holds.snapshotCommit (hQ : Kept Q) (h : p.Holds Q) (index term : Int) (data : Bytes)
    (now : Int) : (p.runStretch now (.snapshotCommit index term data)).Holds Q := by
  rw [runStretch, snapshotCommit_eq]
  cases hc : p.raft.snapshotCheck index with
  | none => exact h
  | some t =>
    obtain ⟨-, hlt, hin⟩ := snapshotCheck_eq_some hc
    have hs := still_persistLocked (p.raft.snapshotCut index term data)
    exact h.wait (hQ.still (hQ.snapshotCut h.raft hlt hin term data) hs) (hs.index ▸ hlt.le) hs.index.ge

/-- Phase 2 of `InstallSnapshot` on a node that it does not depose, with a snapshot that is not
behind its own. -/
theorem Holds.installCommit (hQ : Kept Q) (h : p.Holds Q) {args : InstallSnapshotArgs} {blob : Bytes}
    (hargs : p.raft.installStale args = false → p.raft.snapshotIndex ≤ args.lastIncludedIndex ∧
      (p.raft.installBegin args blob).installDeposed args = false) :
    (p.installCommit args blob).Holds Q := by
  unfold Process.installCommit
  cases hstale : p.raft.installStale args with
  | true => exact h
  | false =>
    obtain ⟨hle, hdep⟩ := hargs hstale
    simp only [hdep, Bool.false_eq_true, ↓reduceIte]
    have hk := keeps_installLogs (p.raft.installBegin args blob) args p.raft.snapshotIndex
    exact h.wait (hQ.installLogs h.raft hle hdep) (hle.trans hk.index.ge) hk.index.ge

/-- What keeps the log in step: entries arrive without a gap; a snapshot is installed neither over a
later one nor on a leader that it makes a non-voter; and a restart finds a whole disk. -/
def Steady (p : Process) : ProcessEvent → Prop
  | .appendEntries args _ => args.Contiguous
  | .resume k _ => ∀ t args blob, p.threads[k]? = some t → t.stretch = .installCommit args blob →
      p.raft.installStale args = false → p.raft.snapshotIndex ≤ args.lastIncludedIndex ∧
        (p.raft.installBegin args blob).installDeposed args = false
  | .restart _ => p.disk.Whole
  | _ => True

/-- The property survives the entries that the step merges or applies. -/
structure Survives (Q : Raft → Prop) (p : Process) (e : ProcessEvent) : Prop where
  appendEntries : ∀ {args now r}, e = .appendEntries args now → args.Contiguous → Still p.raft r →
    r.state = .kFollower → Q (r.appendEntriesLocked args {}).1
  append : ∀ {k now t args}, e = .resume k now → p.threads[k]? = some t → t.stretch = .append args →
    args.Contiguous → Q (p.raft.appendEntriesLocked args {}).1
  applyLoop : ∀ {now}, e = .applyLoop now →
    Q (p.raft.applyRun now (p.raft.applyStop - p.raft.lastApplied).toNat (p.raft.lastApplied + 1) []).1
  applyResume : ∀ {now a}, e = .applyResume now → p.applier = some a →
    Q ((p.raft.applyConfAfter now).applyRun now a.left a.idx a.batch).1

theorem Holds.resume (hQ : Kept Q) (h : p.Holds Q) {k : Nat} {now : Int}
    (hsteady : p.Steady (.resume k now)) (hsurvives : p.Survives Q (.resume k now)) :
    (p.resume k now).Holds Q := by
  rw [Process.resume]
  cases ht : p.threads[k]? with
  | none => exact h
  | some t =>
    dsimp only
    split_ifs
    · have hfits := h.threads t (List.mem_of_getElem? ht)
      have h₀ : Holds Q { p with threads := p.threads.eraseIdx k } :=
        ⟨h.raft, fun t ht => h.threads t (List.mem_of_mem_eraseIdx ht)⟩
      cases hst : t.stretch with
      | append args =>
        rw [hst] at hfits
        exact h₀.raft_step (keeps_appendEntriesLocked p.raft args {}).index
          (hsurvives.append rfl ht hst hfits)
      | saveBlob u => exact h₀.saveBlob hQ u
      | snapshotCommit index term data => exact h₀.snapshotCommit hQ index term data now
      | truncateStore index =>
        rw [hst] at hfits
        exact h₀.raft_step rfl (hQ.truncatePrefix h.raft hfits)
      | installCommit args blob => exact h₀.installCommit hQ (hsteady t args blob ht hst)
      | installLogs args blob old =>
        rw [hst] at hfits
        cases hfits
      | installFinish msg keep =>
        rw [hst] at hfits
        exact h₀.raft_step (keeps_installFinish p.raft msg keep).index
          (hQ.installFinish h.raft keep hfits)
      | _ => exact h₀.via hQ (via_runStretch _ now trivial (by simp))
    · exact h

theorem Holds.step (hQ : Kept Q) (h : p.Holds Q) {e : ProcessEvent} (he : p.Steady e)
    (hsurvives : p.Survives Q e) : (p.step e).Holds Q := by
  have hquiet : ∀ r', Still p.raft r' → r'.snapshotIndex = p.raft.snapshotIndex ∧ Q r' :=
    fun r' hr => ⟨hr.index, hQ.still h.raft hr⟩
  cases e with
  | appendEntries args now =>
    refine h.moves (moves_appendEntries p args now hquiet fun r' hr hst => ?_) fun st hst => ?_
    · exact ⟨(keeps_appendEntriesLocked r' args {}).index.trans hr.index,
        hsurvives.appendEntries rfl he hr hst⟩
    · rw [hst]
      exact he
  | applyLoop now =>
    refine h.moves (P := Stretch.Plain) (moves_applyLoop p now hquiet ?_) fun _ hst => hst.fits _
    exact ⟨(sameLog_applyRun _ _ _ _ _).index, hsurvives.applyLoop rfl⟩
  | applyResume now =>
    refine h.moves (P := Stretch.Plain) (moves_applyResume p now hquiet fun a ha => ?_)
      fun _ hst => hst.fits _
    exact ⟨(sameLog_applyRun _ _ _ _ _).index.trans (still_applyConfAfter _ now).index,
      hsurvives.applyResume rfl ha⟩
  | resume k now => exact h.resume hQ he hsurvives
  | writeBlob => exact h.writeBlob hQ
  | flush => exact h.flush hQ
  | restart now => exact ⟨hQ.make h.raft he now, fun _ ht => absurd ht List.not_mem_nil⟩
  | _ => exact h.via hQ (via_step p trivial)

/-- The rule for runs, where `C` is what is asked of each step. -/
theorem Holds.run (hQ : Kept Q) {C : Process → ProcessEvent → Prop}
    (hsteady : ∀ p e, C p e → p.Steady e) (hsurvives : ∀ p e, p.Holds Q → C p e → p.Survives Q e)
    (h : p.Holds Q) {es : List ProcessEvent} (hes : Meets C p es) : (p.run es).Holds Q := by
  induction es generalizing p with
  | nil => exact h
  | cons e es ih =>
    exact ih (h.step hQ (hsteady p e hes.1) (hsurvives p e h hes.1)) hes.2

/-- No thread is about to install a snapshot. -/
theorem steady_resume {k : Nat} {now : Int}
    (h : (p.threads.all fun t => match t.stretch with
      | .installCommit _ _ => false
      | _ => true) = true) : p.Steady (.resume k now) := by
  intro t args blob ht hst
  have hall := List.all_eq_true.mp h t (List.mem_of_getElem? ht)
  simp [hst] at hall

end Process
end ChonKV
