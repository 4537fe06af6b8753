import ChonKV.Cluster.Takeover

/-!
A node of a static membership with the memory back end: what its fields keep besides the log, what
its persister keeps of it, and what every snapshot it holds stands for.
-/

set_option autoImplicit false

namespace ChonKV

open Ballot Ballot.Ledger
open Function (update)

/-- The members of `Raft` that safety depends on. -/
structure Frame extends Core where
  killed : Bool
  me : Nat
  peers : Nat
  isMember : List MemberRole
  logStore : LogStorage
  persistAsync : Bool
  persister : Persister
  savedBlobIndex : Int
  pendingSnapshot : Option ApplyMsg
  snapshotData : Bytes
  snapCrc : UInt32
  snapCrcIndex : Int

def Raft.frame (r : Raft) : Frame where
  toCore := r.core
  killed := r.killed
  me := r.me
  peers := r.peers
  isMember := r.isMember
  logStore := r.logStore
  persistAsync := r.persistAsync
  persister := r.persister
  savedBlobIndex := r.savedBlobIndex
  pendingSnapshot := r.pendingSnapshot
  snapshotData := r.snapshotData
  snapCrc := r.snapCrc
  snapCrcIndex := r.snapCrcIndex

/-- `f` with everything blank that neither the persister nor a snapshot depends on. -/
def Frame.hard (f : Frame) : Frame :=
  { f with state := .kFollower, voteGranted := [], commitIndex := 0, nextIndex := [], matchIndex := [] }

/-- The state of the upper layer after the entries `l`. -/
def replay {σ : Type} (svc : Service σ) (l : List LogEntry) : σ :=
  l.foldl (fun s e => svc.apply s (Raft.commandMsg e.index e)) svc.init

/-- What a persister without a state blob stands for. -/
def firstState (n : Nat) : RaftState where
  currentTerm := 0
  votedFor := -1
  snapshotIndex := 0
  snapshotTerm := 0
  logs := [sentinel 0 0]
  isMember := List.replicate n .kVoter
  pendingConfIndex := 0

section
variable {σ : Type} (n : Nat) (svc : Service σ) (E : Record)

/-- A snapshot at index `x` and term `t` stands for a prefix that is settled by `T`, and its bytes
for the state of the upper layer after that prefix, unless a checksum failed to tell buffers apart. -/
def SnapOK (G : Ghost) (x t : Int) (raw : Bytes) (T : Int) : Prop :=
  ∃ (l : List LogEntry) (k : Nat), x = k ∧ 0 < k ∧ G.L.Settled (majority n) l k T ∧
    t = termAt l k ∧ (E.intact → E.taken raw ∧ svc.load raw = replay svc (l.take k))

variable {n svc E} in
theorem SnapOK.mono {G G' : Ghost} {x t : Int} {raw : Bytes} {T U : Int}
    (h : SnapOK n svc E G x t raw T) (hle : G.Le E G') (hT : T ≤ U) :
    SnapOK n svc E G' x t raw U := by
  obtain ⟨l, k, hx, h0, hs, ht, hc⟩ := h
  exact ⟨l, k, hx, h0, (hs.ext hle.ext).mono le_rfl hT, ht, hc⟩

/-- What holds of the fields of a node besides its log and what its persister has of it. -/
structure Held (G : Ghost) (i : Nat) (f : Frame) : Prop where
  alive : f.killed = false
  me : f.me = i
  peers : f.peers = n
  members : f.isMember = List.replicate n .kVoter
  store : f.logStore = .memory
  sync : f.persistAsync = false
  disk : f.persister.fileBacked = false
  blob : ∀ b, f.persister.snapshot = some b → b.index = f.savedBlobIndex ∧
    SnapOK n svc E G b.index b.term b.raw f.currentTerm
  noBlob : f.persister.snapshot = none → f.savedBlobIndex = 0
  blobIndex : f.snapshotIndex ≤ f.savedBlobIndex
  data : 0 < f.snapshotIndex →
    SnapOK n svc E G f.snapshotIndex f.snapshotTerm f.snapshotData f.currentTerm
  crc : f.snapCrcIndex = f.snapshotIndex → f.snapCrc = crc32 f.snapshotData
  pending : ∀ m, f.pendingSnapshot = some m → m.snapshotValid = true ∧ m.commandValid = false ∧
    m.snapshotIndex = f.lastApplied ∧
    SnapOK n svc E G m.snapshotIndex m.snapshotTerm m.snapshot f.currentTerm

/-- The state blob `st` is that of the node, or lags behind the snapshot blob, from which a restart
cuts the log. -/
structure Stored (f : Frame) (st : RaftState) : Prop where
  term : st.currentTerm = f.currentTerm
  vote : st.votedFor = f.votedFor
  members : st.isMember = f.isMember
  logs : (st.snapshotIndex = f.snapshotIndex ∧ st.snapshotTerm = f.snapshotTerm ∧ st.logs = f.logs) ∨
    (0 ≤ st.snapshotIndex ∧ st.snapshotIndex < f.snapshotIndex ∧ f.logs = cutLogs st.logs
      (f.snapshotIndex - st.snapshotIndex).toNat f.snapshotTerm f.snapshotIndex)

structure NodeOK (G : Ghost) (i : Nat) (f : Frame) : Prop extends Held n svc E G i f where
  saved : Stored f (f.persister.raftState.getD (firstState n))

/-- What only grows while a node is up. -/
structure Ahead (f f' : Frame) : Prop where
  me : f'.me = f.me
  term : f.currentTerm ≤ f'.currentTerm
  applied : f.lastApplied ≤ f'.lastApplied
  blob : f.savedBlobIndex ≤ f'.savedBlobIndex

/-- Only the applier moves on from what it has passed on. -/
structure Grows (f f' : Frame) : Prop extends Ahead f f' where
  feed : f'.pendingSnapshot = none → f.pendingSnapshot = none ∧ f'.lastApplied = f.lastApplied

theorem Grows.refl (f : Frame) : Grows f f := ⟨⟨rfl, le_rfl, le_rfl, le_rfl⟩, fun hp => ⟨hp, rfl⟩⟩

theorem Grows.trans {f f' f'' : Frame} (h : Grows f f') (h' : Grows f' f'') : Grows f f'' := by
  refine ⟨⟨h'.me.trans h.me, h.term.trans h'.term, h.applied.trans h'.applied,
    h.blob.trans h'.blob⟩, fun hp => ?_⟩
  obtain ⟨hp', hx'⟩ := h'.feed hp
  obtain ⟨hp'', hx''⟩ := h.feed hp'
  exact ⟨hp'', hx'.trans hx''⟩

/-- Node `i` of a run is as `f` says. -/
structure At (G : Ghost) (K : Nat → Core) (i : Nat) (f : Frame) : Prop where
  inv : Inv n E G K
  core : K i = f.toCore
  lt : i < n
  ok : NodeOK n svc E G i f

/-- Node `i` gets from `f` to `f'`, and `P` holds of a later abstract state. -/
def Acts (G : Ghost) (K : Nat → Core) (i : Nat) (f f' : Frame) (P : Ghost → Prop) : Prop :=
  ∃ G', G.Le E G' ∧ At n svc E G' (update K i f'.toCore) i f' ∧ Grows f f' ∧ P G'

/-- `Acts` for the applier, which may move on. -/
def Applying (G : Ghost) (K : Nat → Core) (i : Nat) (f f' : Frame) : Prop :=
  ∃ G', G.Le E G' ∧ At n svc E G' (update K i f'.toCore) i f' ∧ Ahead f f'

variable {n svc E} {G : Ghost} {K : Nat → Core} {i : Nat} {f f' f'' : Frame}

theorem Held.mono {G' : Ghost} (h : Held n svc E G i f) (hle : G.Le E G') :
    Held n svc E G' i f where
  alive := h.alive
  me := h.me
  peers := h.peers
  members := h.members
  store := h.store
  sync := h.sync
  disk := h.disk
  blob b hb := (h.blob b hb).imp_right fun hs => hs.mono hle le_rfl
  noBlob := h.noBlob
  blobIndex := h.blobIndex
  data h0 := (h.data h0).mono hle le_rfl
  crc := h.crc
  pending m hm := by
    obtain ⟨hv, hc, hx, hs⟩ := h.pending m hm
    exact ⟨hv, hc, hx, hs.mono hle le_rfl⟩

/-- A node may come to a later term, and vote and write there. -/
theorem Held.raise (h : Held n svc E G i f) {T v : Int} {logs : List LogEntry} {st : ServerState}
    {vg : List Int} {nx mt : List Int} {ci : Int} (hT : f.currentTerm ≤ T) :
    Held n svc E G i { f with
      currentTerm := T, votedFor := v, logs := logs, state := st, voteGranted := vg,
      nextIndex := nx, matchIndex := mt, commitIndex := ci } where
  alive := h.alive
  me := h.me
  peers := h.peers
  members := h.members
  store := h.store
  sync := h.sync
  disk := h.disk
  blob b hb := (h.blob b hb).imp_right fun hs => hs.mono (Ghost.Le.refl E G) hT
  noBlob := h.noBlob
  blobIndex := h.blobIndex
  data h0 := (h.data h0).mono (Ghost.Le.refl E G) hT
  crc := h.crc
  pending m hm := by
    obtain ⟨hv, hc, hx, hs⟩ := h.pending m hm
    exact ⟨hv, hc, hx, hs.mono (Ghost.Le.refl E G) hT⟩

theorem NodeOK.mono {G' : Ghost} (h : NodeOK n svc E G i f) (hle : G.Le E G') :
    NodeOK n svc E G' i f := ⟨h.toHeld.mono hle, h.saved⟩

theorem NodeOK.hard (h : NodeOK n svc E G i f) (hf : f'.hard = f.hard) : NodeOK n svc E G i f' := by
  have hs := h.saved
  have hh : NodeOK n svc E G i f.hard :=
    ⟨h.toHeld.raise le_rfl, hs.term, hs.vote, hs.members, hs.logs⟩
  rw [← hf] at hh
  have hs' := hh.saved
  exact ⟨⟨hh.alive, hh.me, hh.peers, hh.members, hh.store, hh.sync, hh.disk, hh.blob, hh.noBlob,
    hh.blobIndex, hh.data, hh.crc, hh.pending⟩, hs'.term, hs'.vote, hs'.members, hs'.logs⟩

@[simp] theorem Raft.core_persistLocked (r : Raft) : r.persistLocked.core = r.core := by
  unfold Raft.persistLocked
  split <;> rfl

theorem Raft.persistLocked_of_sync {r : Raft} (h : r.persistAsync = false) :
    r.persistLocked = { r with
      raftStateBytes := r.encodeRaftStateLocked.encode.length
      persister := r.persister.saveRaftState r.encodeRaftStateLocked } := by
  simp [Raft.persistLocked, h]

theorem Raft.frame_persistLocked {r : Raft} (h : r.persistAsync = false) : r.persistLocked.frame =
    { r.frame with persister := r.persister.saveRaftState r.encodeRaftStateLocked } := by
  rw [Raft.persistLocked_of_sync h]
  rfl

/-- `PersistLocked` saves all that the invariant asks for. -/
theorem Held.persist {r : Raft} (h : Held n svc E G i r.frame) :
    NodeOK n svc E G i r.persistLocked.frame := by
  have hsync : r.persistAsync = false := h.sync
  have hstore : r.logStore = .memory := h.store
  rw [Raft.frame_persistLocked hsync]
  refine ⟨⟨h.alive, h.me, h.peers, h.members, h.store, h.sync, h.disk, h.blob, h.noBlob, h.blobIndex,
    h.data, h.crc, h.pending⟩, rfl, rfl, rfl, .inl ⟨rfl, rfl, ?_⟩⟩
  simp only [Persister.saveRaftState, Option.getD_some, Raft.encodeRaftStateLocked, hstore,
    LogStorage.keepsLogExternally_memory]
  rfl

theorem Acts.imp {P Q : Ghost → Prop} (h : Acts n svc E G K i f f' P)
    (hPQ : ∀ G', G.Le E G' → P G' → Q G') : Acts n svc E G K i f f' Q := by
  obtain ⟨G', hle, hat, hg, hp⟩ := h
  exact ⟨G', hle, hat, hg, hPQ G' hle hp⟩

theorem Acts.refl (h : At n svc E G K i f) {P : Ghost → Prop} (hp : P G) :
    Acts n svc E G K i f f P := by
  refine ⟨G, Ghost.Le.refl E G, ?_, Grows.refl f, hp⟩
  rw [← h.core, Function.update_eq_self]
  exact h

theorem Acts.trans {P Q : Ghost → Prop} (h : Acts n svc E G K i f f' P)
    (hnext : ∀ G₁, G.Le E G₁ → At n svc E G₁ (update K i f'.toCore) i f' → P G₁ →
      Acts n svc E G₁ (update K i f'.toCore) i f' f'' Q) : Acts n svc E G K i f f'' Q := by
  obtain ⟨G₁, hle, hat, hg, hp⟩ := h
  obtain ⟨G₂, hle', hat', hg', hq⟩ := hnext G₁ hle hat hp
  exact ⟨G₂, hle.trans hle', by simpa using hat', hg.trans hg', hq⟩

theorem Acts.of_moves (h : At n svc E G K i f) {P : Ghost → Prop}
    (hm : Moves n E G K i f'.toCore P) (hg : Grows f f')
    (hok : ∀ G', G.Le E G' → NodeOK n svc E G' i f') : Acts n svc E G K i f f' P := by
  obtain ⟨G', hle, hinv, hp⟩ := hm
  exact ⟨G', hle, ⟨hinv, by simp, h.lt, hok G' hle⟩, hg, hp⟩

theorem Applying.of_moves (h : At n svc E G K i f)
    (hm : Moves n E G K i f'.toCore fun _ => True) (hg : Ahead f f')
    (hok : ∀ G', G.Le E G' → NodeOK n svc E G' i f') : Applying n svc E G K i f f' := by
  obtain ⟨G', hle, hinv, -⟩ := hm
  exact ⟨G', hle, ⟨hinv, by simp, h.lt, hok G' hle⟩, hg⟩

theorem Applying.refl (h : At n svc E G K i f) : Applying n svc E G K i f f :=
  Applying.of_moves h (Moves.refl h.inv h.core trivial) ⟨rfl, le_rfl, le_rfl, le_rfl⟩
    fun _ hle => h.ok.mono hle

/-- A step that the persister and the snapshots do not depend on. -/
theorem Acts.of_hard (h : At n svc E G K i f) {P : Ghost → Prop}
    (hm : Moves n E G K i f'.toCore P) (hf : f'.hard = f.hard) : Acts n svc E G K i f f' P := by
  refine Acts.of_moves h hm ⟨⟨?_, ?_, ?_, ?_⟩, fun hp => ⟨?_, ?_⟩⟩ fun G' hle => (h.ok.mono hle).hard hf
  · exact (congrArg (fun f : Frame => f.me) hf :)
  · exact (congrArg (fun f : Frame => f.currentTerm) hf).ge
  · exact (congrArg (fun f : Frame => f.lastApplied) hf).ge
  · exact (congrArg (fun f : Frame => f.savedBlobIndex) hf).ge
  · exact (congrArg (fun f : Frame => f.pendingSnapshot) hf).symm.trans hp
  · exact (congrArg (fun f : Frame => f.lastApplied) hf :)

/-- A step that ends in `PersistLocked`. -/
theorem Acts.of_persist (h : At n svc E G K i f) {r : Raft} {P : Ghost → Prop}
    (hm : Moves n E G K i r.core P) (hg : Grows f r.frame)
    (held : ∀ G', G.Le E G' → Held n svc E G' i r.frame) :
    Acts n svc E G K i f r.persistLocked.frame P := by
  have hsync : r.persistAsync = false := (held G (Ghost.Le.refl E G)).sync
  refine Acts.of_moves h ?_ ?_ fun G' hle => (held G' hle).persist
  · rwa [Raft.frame_persistLocked hsync]
  · rw [Raft.frame_persistLocked hsync]
    exact ⟨⟨hg.me, hg.term, hg.applied, hg.blob⟩, hg.feed⟩

theorem At.node (h : At n svc E G K i f) : NodeInv n G i f.toCore := h.core ▸ h.inv.node i h.lt

end

end ChonKV
