import ChonKV.Durable.Via

/-!
The snapshot blob and the state blob on the disk of one process: the snapshot blob is written first,
and never over a later one.
-/

set_option autoImplicit false

namespace ChonKV

open Raft

/-- The index of the snapshot blob, where no blob stands for the empty snapshot. -/
def Persister.blobIndex (p : Persister) : Int := (p.snapshot.map SnapshotBlob.index).getD 0

/-- The snapshot blob is not behind the state blob. -/
structure Persister.Covered (p : Persister) : Prop where
  blob : ∀ st b, p.raftState = some st → p.snapshot = some b → st.snapshotIndex ≤ b.index
  noBlob : ∀ st, p.raftState = some st → p.snapshot = none → st.snapshotIndex = 0

namespace Raft

theorem adoptBlob_snapshotIndex (r : Raft) (b : SnapshotBlob) :
    (r.adoptBlob b).snapshotIndex = max r.snapshotIndex b.index := by
  rw [adoptBlob]
  by_cases h : r.snapshotIndex < b.index
  · simp [h, h.le]
  · simp only [if_neg h]
    split_ifs <;> exact (max_eq_left (not_lt.mp h)).symm

theorem adoptBlob_persister (r : Raft) (b : SnapshotBlob) : (r.adoptBlob b).persister = r.persister := by
  rw [adoptBlob]
  split_ifs <;> rfl

theorem adoptBlob_pending (r : Raft) (b : SnapshotBlob) :
    (r.adoptBlob b).pendingStateBlob = r.pendingStateBlob := by
  rw [adoptBlob]
  split_ifs <;> rfl

/-- What a restart takes over from the disk, when there is a state blob. -/
theorem readPersist_snapshotPart (r : Raft) (st : RaftState) :
    (r.readPersist st).snapshotIndex =
        ((r.persister.snapshot.map fun b => max st.snapshotIndex b.index).getD st.snapshotIndex) ∧
      (r.readPersist st).savedBlobIndex = (r.readPersist st).snapshotIndex ∧
      (r.readPersist st).persister = r.persister ∧
      (r.readPersist st).pendingStateBlob = r.pendingStateBlob := by
  rw [readPersist]
  have hp : (r.restoreState st).persister = r.persister := rfl
  simp only [hp]
  cases r.persister.snapshot with
  | none => exact ⟨rfl, rfl, rfl, rfl⟩
  | some b =>
    refine ⟨adoptBlob_snapshotIndex _ b, rfl, ?_, ?_⟩
    · exact adoptBlob_persister _ b
    · exact adoptBlob_pending _ b

theorem readPersist_lastApplied (r : Raft) (st : RaftState) (h : r.persister.snapshot = none) :
    (r.readPersist st).lastApplied = st.snapshotIndex := by
  rw [readPersist]
  have hp : (r.restoreState st).persister = r.persister := rfl
  simp only [hp, h]
  rfl

theorem make_persister (peers me : Nat) (d : Disk) (now : Int) :
    (make peers me d now).persister = d.persister := by
  rw [make]
  cases d.persister.raftState with
  | none => rfl
  | some st => exact (readPersist_snapshotPart (blank peers me d now) st).2.2.1

theorem make_pending (peers me : Nat) (d : Disk) (now : Int) :
    (make peers me d now).pendingStateBlob = none := by
  rw [make]
  cases d.persister.raftState with
  | none => rfl
  | some st => exact (readPersist_snapshotPart (blank peers me d now) st).2.2.2

theorem make_savedBlobIndex (peers me : Nat) (d : Disk) (now : Int) :
    (make peers me d now).savedBlobIndex = (make peers me d now).snapshotIndex := by
  rw [make]
  cases d.persister.raftState with
  | none => rfl
  | some st => exact (readPersist_snapshotPart (blank peers me d now) st).2.1

/-- A restart finds a blob at the index that it recovers, when a blob does not come without a state. -/
theorem make_snapshotIndex (peers me : Nat) (d : Disk) (now : Int) (hd : d.persister.Covered)
    (hs : d.persister.snapshot ≠ none → d.persister.raftState ≠ none) :
    (make peers me d now).snapshotIndex = d.persister.blobIndex := by
  rw [make, Persister.blobIndex]
  cases hst : d.persister.raftState with
  | none =>
    have hnone : d.persister.snapshot = none := not_not.mp fun hne => hs hne hst
    simp [hnone, blank]
  | some st =>
    have hidx := (readPersist_snapshotPart (blank peers me d now) st).1
    have hp : (blank peers me d now).persister = d.persister := rfl
    rw [hp] at hidx
    refine hidx.trans ?_
    cases hb : d.persister.snapshot with
    | none => exact hd.noBlob st hst hb
    | some b => exact max_eq_right (hd.blob st b hst hb)

theorem make_lastApplied (peers me : Nat) (d : Disk) (now : Int) (hd : d.persister.Covered)
    (hb : d.persister.snapshot = none) : 0 ≤ (make peers me d now).lastApplied := by
  rw [make]
  cases hst : d.persister.raftState with
  | none => exact le_refl (0 : Int)
  | some st =>
    have h := readPersist_lastApplied (blank peers me d now) st hb
    exact (h.trans (hd.noBlob st hst hb)).ge

theorem keeps_truncateStore (r : Raft) (index : Int) : KeepsSnapshot r (r.truncateStore index) :=
  .of_part rfl

theorem keeps_installFinish (r : Raft) (msg : ApplyMsg) (keep : Bool) :
    KeepsSnapshot r (r.installFinish msg keep) :=
  .of_part rfl

theorem keeps_installLogs (r : Raft) (args : InstallSnapshotArgs) (old : Int) :
    KeepsSnapshot r (r.installLogs args old) := by
  rw [installLogs]
  refine KeepsSnapshot.persist ?_
  exact ⟨rfl, rfl, rfl, rfl, .inl rfl, .inl rfl, (min_le_right _ _).trans (le_max_left _ _)⟩

end Raft

/-- The snapshot that the stretch commits has its blob on the disk. -/
def Stretch.Bounded (saved : Int) : Stretch → Prop
  | .snapshotCommit index _ _ => index ≤ saved
  | .installCommit args _ => args.lastIncludedIndex ≤ saved
  | _ => True

theorem Stretch.Plain.bounded {st : Stretch} (h : st.Plain) (saved : Int) : st.Bounded saved := by
  cases st <;> trivial

theorem Stretch.Bounded.mono {st : Stretch} {saved saved' : Int} (h : st.Bounded saved)
    (hle : saved ≤ saved') : st.Bounded saved' := by
  cases st <;> first | trivial | exact le_trans h hle

namespace Process

def blobIndex (p : Process) : Int := p.raft.persister.blobIndex

/-- `st` is on the disk, registered, or on its way to the disk. -/
def HoldsState (p : Process) (st : RaftState) : Prop :=
  p.raft.persister.raftState = some st ∨ p.raft.pendingStateBlob = some st ∨
    ∃ v, p.flusher = .saving st v

/-- A snapshot at `i` has its blob on the disk. -/
structure Backed (p : Process) (i : Int) : Prop where
  saved : i ≤ p.raft.savedBlobIndex
  first : p.raft.persister.snapshot = none → i = 0

/-- What `saved_blob_index_` says of the disk, given the thread that holds `snap_io_mu_`. -/
def IoOK (p : Process) : Prop :=
  match p.io with
  | none => p.raft.savedBlobIndex = p.blobIndex
  | some (u, false) => p.raft.savedBlobIndex = p.blobIndex ∧ p.raft.savedBlobIndex < u.blob.index
  | some (u, true) =>
    p.raft.persister.snapshot = some u.blob ∧ p.raft.savedBlobIndex < u.blob.index

structure BlobOK (p : Process) : Prop where
  index : p.Backed p.raft.snapshotIndex
  states : ∀ st, p.HoldsState st → p.Backed st.snapshotIndex
  applied : p.raft.persister.snapshot = none → 0 ≤ p.raft.lastApplied
  stated : p.raft.persister.snapshot ≠ none → p.raft.persister.raftState ≠ none
  threads : ∀ t ∈ p.threads, t.stretch.Bounded p.raft.savedBlobIndex
  io : p.IoOK

/-- `p` becomes `p'`, which is as well off, and whose blob is not older. -/
structure BlobStep (p p' : Process) : Prop where
  ok : p'.BlobOK
  mono : p.blobIndex ≤ p'.blobIndex

variable {p p' : Process}

theorem BlobOK.saved_le (h : p.BlobOK) : p.raft.savedBlobIndex ≤ p.blobIndex := by
  have hio := h.io
  rw [IoOK] at hio
  split at hio
  · exact hio.le
  · exact hio.1.le
  · rw [blobIndex, Persister.blobIndex, hio.1]
    exact hio.2.le

theorem BlobOK.saved_zero (h : p.BlobOK) (hnone : p.raft.persister.snapshot = none) :
    p.raft.savedBlobIndex ≤ 0 := by
  have hle := h.saved_le
  rwa [blobIndex, Persister.blobIndex, hnone] at hle

theorem BlobOK.covered (h : p.BlobOK) : p.raft.persister.Covered := by
  refine ⟨fun st b hst hb => ?_, fun st hst hb => (h.states st (.inl hst)).first hb⟩
  have hle := ((h.states st (.inl hst)).saved).trans h.saved_le
  rwa [blobIndex, Persister.blobIndex, hb] at hle

/-- A step that keeps the snapshot. -/
theorem BlobOK.moves {P : Stretch → Prop} (h : p.BlobOK) (hv : Moves P KeepsSnapshot p p')
    (hP : ∀ st, P st → st.Bounded p.raft.savedBlobIndex) : BlobStep p p' := by
  have hk := hv.raft
  have hbacked : ∀ i, p.Backed i → p'.Backed i := fun i hi =>
    ⟨hk.saved ▸ hi.saved, fun hnone => hi.first (hk.blob ▸ hnone)⟩
  have hidx : p'.blobIndex = p.blobIndex := by rw [blobIndex, blobIndex, Persister.blobIndex, hk.blob]; rfl
  refine ⟨⟨?_, fun st hst => ?_, fun hnone => ?_, fun hne => ?_, fun t ht => ?_, ?_⟩, hidx.ge⟩
  · rw [hk.index]
    exact hbacked _ h.index
  · have hown : ∀ st : RaftState, st.snapshotIndex = p.raft.snapshotIndex → p'.Backed st.snapshotIndex := by
      intro st heq
      rw [heq]
      exact hbacked _ h.index
    rcases hst with hst | hst | ⟨v, hst⟩
    · rcases hk.state with heq | ⟨st', hst', hi⟩
      · exact hbacked _ (h.states st (.inl (heq ▸ hst)))
      · rw [hst'] at hst
        cases hst
        exact hown st hi
    · rcases hk.pending with heq | ⟨st', hst', hi⟩
      · exact hbacked _ (h.states st (.inr (.inl (heq ▸ hst))))
      · rw [hst'] at hst
        cases hst
        exact hown st hi
    · exact hbacked _ (h.states st (.inr (.inr ⟨v, hv.flusher ▸ hst⟩)))
  · rw [hk.blob] at hnone
    have hle := hk.applied
    have hzero := h.index.first hnone
    have happlied := h.applied hnone
    omega
  · rw [hk.blob] at hne
    rcases hk.state with heq | ⟨st', hst', -⟩
    · rw [heq]
      exact h.stated hne
    · simp [hst']
  · rw [hk.saved]
    rcases hv.threads t ht with hold | hnew
    · exact h.threads t hold
    · exact hP _ hnew
  · have hio := h.io
    rw [IoOK] at hio ⊢
    rw [hv.io, hk.saved, hk.blob, hidx]
    exact hio

theorem BlobOK.via (h : p.BlobOK) (hv : Via p p') : BlobStep p p' :=
  h.moves (hv.mono fun _ _ h => h.keeps) fun _ hst => hst.bounded _

theorem BlobOK.raft_step (h : p.BlobOK) {r : Raft} (hr : KeepsSnapshot p.raft r) :
    BlobStep p { p with raft := r } :=
  h.moves (P := Stretch.Plain) (moves_raft hr) fun _ hst => hst.bounded _

/-- Another snapshot index, whose blob is on the disk. -/
theorem BlobOK.index_step (h : p.BlobOK) {r : Raft} (hindex : p.Backed r.snapshotIndex)
    (hsaved : r.savedBlobIndex = p.raft.savedBlobIndex) (hdisk : r.persister = p.raft.persister)
    (hpending : r.pendingStateBlob = p.raft.pendingStateBlob)
    (happlied : r.lastApplied = p.raft.lastApplied) : BlobOK { p with raft := r } := by
  have hbacked : ∀ i, p.Backed i → Backed { p with raft := r } i := fun i hi =>
    ⟨hsaved ▸ hi.saved, fun hnone => hi.first (hdisk ▸ hnone)⟩
  refine ⟨hbacked _ hindex, fun st hst => ?_, ?_, ?_, ?_, ?_⟩
  · refine hbacked _ (h.states st ?_)
    simpa only [HoldsState, hdisk, hpending] using hst
  · simpa only [hdisk, happlied] using h.applied
  · simpa only [hdisk] using h.stated
  · simpa only [hsaved] using h.threads
  · simpa only [IoOK, blobIndex, hsaved, hdisk] using h.io

/-- A thread of the way of a snapshot, whose blob is on the disk. -/
theorem BlobOK.spawn (h : p.BlobOK) {st : Stretch} (hst : st.Bounded p.raft.savedBlobIndex) :
    (p.spawn p.raft st).BlobOK := by
  refine ⟨⟨h.index.1, h.index.2⟩, fun s hs => ⟨(h.states s hs).1, (h.states s hs).2⟩, h.applied,
    h.stated, fun t ht => ?_, h.io⟩
  rcases List.mem_append.mp ht with ht | ht
  · exact h.threads t ht
  · rw [List.mem_singleton.mp ht]
    exact hst

/-- The wait of a stretch that commits nothing any more. -/
theorem BlobOK.wait_keeps (h : p.BlobOK) {r : Raft} (hr : KeepsSnapshot p.raft r) {st : Stretch}
    (hst : ∀ saved, st.Bounded saved) : BlobStep p (p.wait r st) := by
  have h₁ := h.raft_step hr
  refine ⟨⟨⟨h₁.ok.index.1, h₁.ok.index.2⟩,
    fun s hs => ⟨(h₁.ok.states s hs).1, (h₁.ok.states s hs).2⟩, h₁.ok.applied, h₁.ok.stated,
    fun t ht => ?_, h₁.ok.io⟩, h₁.mono⟩
  rcases List.mem_append.mp ht with ht | ht
  · exact h₁.ok.threads t ht
  · rw [List.mem_singleton.mp ht]
    exact hst _

theorem BlobOK.snapshotCommit (h : p.BlobOK) {index term : Int} {data : Bytes} (now : Int)
    (hle : index ≤ p.raft.savedBlobIndex) :
    BlobStep p (p.runStretch now (.snapshotCommit index term data)) := by
  rw [runStretch, snapshotCommit_eq]
  cases hc : p.raft.snapshotCheck index with
  | none => exact ⟨h, le_refl _⟩
  | some t =>
    have hlt := (snapshotCheck_eq_some hc).2.1
    have hbacked : p.Backed index := by
      refine ⟨hle, fun hnone => ?_⟩
      have hzero := h.index.first hnone
      have hsaved := h.saved_zero hnone
      omega
    have h₁ : BlobOK { p with raft := p.raft.snapshotCut index term data } :=
      h.index_step hbacked rfl rfl rfl rfl
    have hst : ∀ saved, (Stretch.truncateStore index).Bounded saved := fun _ => trivial
    have h₂ := h₁.wait_keeps (still_persistLocked _).toKeepsSnapshot hst
    exact ⟨h₂.ok, h₂.mono⟩

theorem BlobOK.installLogs (h : p.BlobOK) (args : InstallSnapshotArgs) (blob : Bytes) (old : Int) :
    BlobStep p (p.installLogs args blob old) := by
  have hst : ∀ msg keep saved, (Stretch.installFinish msg keep).Bounded saved := fun _ _ _ => trivial
  exact h.wait_keeps (keeps_installLogs _ args old) (hst _ _)

theorem BlobOK.installCommit (h : p.BlobOK) {args : InstallSnapshotArgs} {blob : Bytes}
    (hle : args.lastIncludedIndex ≤ p.raft.savedBlobIndex) :
    BlobStep p (p.installCommit args blob) := by
  rw [Process.installCommit]
  split_ifs with hstale
  · exact ⟨h, le_refl _⟩
  · have hlt : p.raft.lastApplied < args.lastIncludedIndex := by
      simp only [installStale, Bool.or_eq_true, decide_eq_true_eq, not_or, not_le] at hstale
      exact hstale.2
    have hbacked : p.Backed args.lastIncludedIndex := by
      refine ⟨hle, fun hnone => ?_⟩
      have happlied := h.applied hnone
      have hsaved := h.saved_zero hnone
      omega
    have h₁ : BlobOK { p with raft := p.raft.installBegin args blob } :=
      h.index_step hbacked rfl rfl rfl rfl
    have hst : ∀ old saved, (Stretch.installLogs args blob old).Bounded saved := fun _ _ => trivial
    dsimp only
    split_ifs
    · have h₂ := h₁.wait_keeps
        (still_convertToFollowerLocked _ (p.raft.installBegin args blob).currentTerm).toKeepsSnapshot
        (hst p.raft.snapshotIndex)
      exact ⟨h₂.ok, h₂.mono⟩
    · have h₂ := h₁.installLogs args blob p.raft.snapshotIndex
      exact ⟨h₂.ok, h₂.mono⟩

theorem BlobOK.saveBlob (h : p.BlobOK) (u : BlobUser) : BlobStep p (p.saveBlob u) := by
  rw [Process.saveBlob]
  split_ifs with hio hle
  · exact ⟨h.spawn trivial, le_refl _⟩
  · refine ⟨h.spawn ?_, le_refl _⟩
    cases u <;> exact hle
  · refine ⟨⟨⟨h.index.1, h.index.2⟩, fun s hs => ⟨(h.states s hs).1, (h.states s hs).2⟩, h.applied,
      h.stated, h.threads, ?_⟩, le_refl _⟩
    have hold := h.io
    rw [IoOK] at hold
    split at hold
    · exact ⟨hold, not_le.mp hle⟩
    all_goals
      rename_i heq
      exact absurd (by rw [heq]; rfl) hio

theorem BlobOK.writeBlob (h : p.BlobOK) (hstate : (∃ u, p.io = some (u, false)) →
    p.raft.persister.raftState ≠ none) : BlobStep p p.writeBlob := by
  have hold := h.io
  rw [IoOK] at hold
  rw [Process.writeBlob]
  cases hio : p.io with
  | none => exact ⟨h, le_refl _⟩
  | some job =>
    obtain ⟨u, wrote⟩ := job
    rw [hio] at hold
    cases wrote with
    | false =>
      obtain ⟨hsaved, hlt⟩ := hold
      refine ⟨⟨⟨h.index.1, by simp [Persister.saveSnapshotOnly]⟩, fun s hs => ?_,
        by simp [Persister.saveSnapshotOnly], fun _ => hstate ⟨u, hio⟩, h.threads, ?_⟩, ?_⟩
      · exact ⟨(h.states s hs).1, by simp [Persister.saveSnapshotOnly]⟩
      · exact ⟨rfl, hlt⟩
      · rw [← hsaved]
        exact hlt.le
    | true =>
      obtain ⟨hblob, hlt⟩ := hold
      have hne : p.raft.persister.snapshot ≠ none := by simp [hblob]
      have hidx : p.blobIndex = u.blob.index := by rw [Process.blobIndex, Persister.blobIndex, hblob]; rfl
      have hgrow : ∀ i, p.Backed i → i ≤ max p.raft.savedBlobIndex u.blob.index :=
        fun i hi => hi.saved.trans (le_max_left _ _)
      refine ⟨⟨⟨hgrow _ h.index, fun hnone => absurd hnone hne⟩, fun s hs => ?_, h.applied, h.stated,
        fun t ht => ?_, ?_⟩, le_refl _⟩
      · exact ⟨hgrow _ (h.states s hs), fun hnone => absurd hnone hne⟩
      · rcases List.mem_append.mp ht with ht | ht
        · exact (h.threads t ht).mono (le_max_left _ _)
        · rw [List.mem_singleton.mp ht]
          cases u <;> exact le_max_right _ _
      · exact (max_eq_right hlt.le).trans hidx.symm

theorem BlobOK.flush (h : p.BlobOK) : BlobStep p p.flush := by
  rw [Process.flush]
  cases hf : p.flusher with
  | idle =>
    dsimp only
    cases hst : p.raft.pendingStateBlob with
    | none => exact ⟨h, le_refl _⟩
    | some st =>
      dsimp only
      split_ifs
      · refine ⟨⟨⟨h.index.1, h.index.2⟩, fun s hs => ?_, h.applied, h.stated, h.threads, h.io⟩,
          le_refl _⟩
        rcases hs with hs | hs | ⟨v, hs⟩
        · exact ⟨(h.states s (.inl hs)).1, (h.states s (.inl hs)).2⟩
        · cases hs
        · cases hs
          exact ⟨(h.states st (.inr (.inl hst))).1, (h.states st (.inr (.inl hst))).2⟩
      · exact ⟨h, le_refl _⟩
  | saving st v =>
    refine ⟨⟨⟨h.index.1, h.index.2⟩, fun s hs => ?_, h.applied, fun _ => Option.some_ne_none st,
      h.threads, h.io⟩, le_refl _⟩
    rcases hs with hs | hs | ⟨w, hs⟩
    · cases hs
      have hst := h.states st (.inr (.inr ⟨v, hf⟩))
      exact ⟨hst.1, hst.2⟩
    · exact ⟨(h.states s (.inr (.inl hs))).1, (h.states s (.inr (.inl hs))).2⟩
    · cases hs
  | saved v =>
    refine ⟨⟨⟨h.index.1, h.index.2⟩, fun s hs => ?_, h.applied, h.stated, h.threads, h.io⟩,
      le_refl _⟩
    rcases hs with hs | hs | ⟨w, hs⟩
    · exact ⟨(h.states s (.inl hs)).1, (h.states s (.inl hs)).2⟩
    · exact ⟨(h.states s (.inr (.inl hs))).1, (h.states s (.inr (.inl hs))).2⟩
    · cases hs

theorem boot_blobOK (peers me : Nat) (d : Disk) (now : Int) (hd : d.persister.Covered)
    (hs : d.persister.snapshot ≠ none → d.persister.raftState ≠ none) :
    (boot peers me d now).BlobOK := by
  have hdisk := make_persister peers me d now
  have hsaved := make_savedBlobIndex peers me d now
  have hindex := make_snapshotIndex peers me d now hd hs
  have hidx : (boot peers me d now).blobIndex = d.persister.blobIndex := by
    rw [blobIndex, boot, hdisk]
  have hzero : d.persister.snapshot = none → d.persister.blobIndex = 0 := by
    intro hnone
    rw [Persister.blobIndex, hnone]
    rfl
  refine ⟨⟨hsaved.ge, fun hnone => ?_⟩, fun st hst => ?_, fun hnone => ?_, fun hne => ?_,
    by simp [boot], ?_⟩
  · rw [boot, hdisk] at hnone
    exact hindex.trans (hzero hnone)
  · rcases hst with hst | hst | ⟨v, hst⟩
    · rw [boot, hdisk] at hst
      refine ⟨?_, fun hnone => ?_⟩
      · rw [boot, hsaved, hindex, Persister.blobIndex]
        cases hb : d.persister.snapshot with
        | none => exact (hd.noBlob st hst hb).le
        | some b => exact hd.blob st b hst hb
      · rw [boot, hdisk] at hnone
        exact hd.noBlob st hst hnone
    · rw [boot, make_pending] at hst
      cases hst
    · cases hst
  · rw [boot, hdisk] at hnone
    exact make_lastApplied peers me d now hd hnone
  · rw [boot, hdisk] at hne ⊢
    exact hs hne
  · exact (hsaved.trans hindex).trans hidx.symm

theorem BlobOK.resume (h : p.BlobOK) (k : Nat) (now : Int) : BlobStep p (p.resume k now) := by
  rw [Process.resume]
  cases ht : p.threads[k]? with
  | none => exact ⟨h, le_refl _⟩
  | some t =>
    dsimp only
    split_ifs
    · have hbound := h.threads t (List.mem_of_getElem? ht)
      have hmem : ∀ t ∈ p.threads.eraseIdx k, t ∈ p.threads := fun t ht => List.mem_of_mem_eraseIdx ht
      have h₀ : BlobOK { p with threads := p.threads.eraseIdx k } :=
        ⟨⟨h.index.1, h.index.2⟩, fun s hs => ⟨(h.states s hs).1, (h.states s hs).2⟩, h.applied,
          h.stated, fun t ht => h.threads t (hmem t ht), h.io⟩
      suffices hgoal : BlobStep { p with threads := p.threads.eraseIdx k }
          ({ p with threads := p.threads.eraseIdx k }.runStretch now t.stretch) from
        ⟨hgoal.ok, hgoal.mono⟩
      cases hst : t.stretch with
      | saveBlob u => exact h₀.saveBlob u
      | snapshotCommit index term data =>
        rw [hst] at hbound
        exact h₀.snapshotCommit now hbound
      | truncateStore index => exact h₀.raft_step (keeps_truncateStore _ index)
      | installCommit args blob =>
        rw [hst] at hbound
        exact h₀.installCommit hbound
      | installLogs args blob old => exact h₀.installLogs args blob old
      | installFinish msg keep => exact h₀.raft_step (keeps_installFinish _ msg keep)
      | append args => exact h₀.raft_step (keeps_appendEntriesLocked _ args {})
      | _ => exact h₀.via (via_runStretch _ now trivial (by simp))
    · exact ⟨h, le_refl _⟩

/-- The disk has a state blob by the time that a snapshot blob is written. -/
def StateFirst (p : Process) : ProcessEvent → Prop
  | .writeBlob => (∃ u, p.io = some (u, false)) → p.raft.persister.raftState ≠ none
  | _ => True

theorem BlobOK.step (h : p.BlobOK) (e : ProcessEvent) (he : p.StateFirst e) :
    BlobStep p (p.step e) := by
  cases e with
  | appendEntries args now =>
    refine h.moves (moves_appendEntries p args now (fun _ hr => hr.toKeepsSnapshot) fun r' hr _ =>
      hr.toKeepsSnapshot.trans (keeps_appendEntriesLocked r' args {})) fun st hst => ?_
    rw [hst]
    trivial
  | applyLoop now =>
    exact h.moves (P := Stretch.Plain) (moves_applyLoop p now (fun _ hr => hr.toKeepsSnapshot)
      (sameLog_applyRun _ _ _ _ _).toKeepsSnapshot) fun _ hst => hst.bounded _
  | applyResume now =>
    exact h.moves (P := Stretch.Plain) (moves_applyResume p now (fun _ hr => hr.toKeepsSnapshot)
      fun a _ => (still_applyConfAfter _ now).toKeepsSnapshot.trans
        (sameLog_applyRun _ _ _ _ _).toKeepsSnapshot) fun _ hst => hst.bounded _
  | resume k now => exact h.resume k now
  | writeBlob => exact h.writeBlob he
  | flush => exact h.flush
  | restart now =>
    have hboot := boot_blobOK p.raft.peers p.raft.me p.disk now h.covered h.stated
    refine ⟨hboot, ?_⟩
    have hdisk := make_persister p.raft.peers p.raft.me p.disk now
    rw [blobIndex, blobIndex, Process.step, hdisk]
    exact le_refl _
  | _ => exact h.via (via_step p trivial)

theorem BlobOK.run {es : List ProcessEvent} (h : p.BlobOK) (hes : Meets StateFirst p es) :
    (p.run es).BlobOK := by
  induction es generalizing p with
  | nil => exact h
  | cons e es ih => exact ih (h.step e hes.1).ok hes.2

/-- In a run whose first snapshot blob comes after its first state blob, the snapshot blob is never
behind the state blob, it never goes back, and a restart recovers the index of the blob it finds. -/
theorem blob_covers_state (peers me : Nat) (d : Disk) (now : Int) (hd : d.persister.Covered)
    (hs : d.persister.snapshot ≠ none → d.persister.raftState ≠ none) (es : List ProcessEvent)
    (hes : Meets StateFirst (boot peers me d now) es) :
    let p := (boot peers me d now).run es
    p.disk.persister.Covered ∧
      (∀ e, p.StateFirst e → p.disk.persister.blobIndex ≤ (p.step e).disk.persister.blobIndex) ∧
      ∀ n i t, (Raft.make n i p.disk t).snapshotIndex = p.disk.persister.blobIndex := by
  intro p
  have hok : p.BlobOK := (boot_blobOK peers me d now hd hs).run hes
  exact ⟨hok.covered, fun e he => (hok.step e he).mono,
    fun n i t => make_snapshotIndex n i p.disk t hok.covered hok.stated⟩

end Process

/-- The last chunk of an empty snapshot at `index`. -/
def lastChunk (index : Int) : InstallSnapshotArgs :=
  { term := 1, leaderId := 1, lastIncludedIndex := index, lastIncludedTerm := 1, crc := crc32 []
    done := true }

open Process

theorem blob_covers_state_install :
    ((boot 2 0 { persister := { fileBacked := true } } 0).run [.installSnapshot (lastChunk 5) 0,
        .flush, .flush, .flush, .resume 0 0, .resume 0 0, .writeBlob]).disk.persister.blobIndex = 5 ∧
      ((boot 2 0 { persister := { fileBacked := true } } 0).run [.installSnapshot (lastChunk 5) 0,
        .flush, .flush, .flush, .resume 0 0, .resume 0 0, .writeBlob]).disk.persister.Covered := by
  refine ⟨by decide +kernel, (blob_covers_state 2 0 { persister := { fileBacked := true } } 0
    ⟨by simp, by simp⟩ (by simp) _ ?_).1⟩
  refine ⟨trivial, trivial, trivial, trivial, trivial, trivial, fun _ => ?_, trivial⟩
  decide +kernel

/-- Two handlers of one term on an empty disk: the second does not wait for the state that the first
registered. The restart does not see the blob, which the next one overwrites with an older one. -/
theorem blob_left_behind :
    let p := (boot 2 0 { persister := { fileBacked := true } } 0).run
      [.installSnapshot (lastChunk 5) 0, .installSnapshot (lastChunk 5) 0, .resume 1 0, .writeBlob]
    let q := p.run [.restart 0, .installSnapshot (lastChunk 3) 0, .installSnapshot (lastChunk 3) 0,
      .resume 1 0, .writeBlob]
    p.disk.persister.blobIndex = 5 ∧ (Raft.make 2 0 p.disk 0).snapshotIndex = 0 ∧
      q.disk.persister.blobIndex = 3 := by
  decide +kernel

end ChonKV
