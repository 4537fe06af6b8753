import ChonKV.Raft.Snapshot
import ChonKV.Raft.SnapshotBlob

/-!
`ReadPersist` on the bytes of the two files: the state that `EncodeRaftStateLocked` wrote, and the snapshot
blob.
-/

set_option autoImplicit false

namespace ChonKV

open Framing

/-- The decoder takes no more log entries than this. -/
def kMaxStateEntries : Nat := 2^22

instance (v : Int) : Decidable (Fits64 v) := inferInstanceAs (Decidable (_ ∧ _))

instance (v : Int) : Decidable (Fits32 v) := inferInstanceAs (Decidable (_ ∧ _))

instance (e : LogEntry) : Decidable e.Fits :=
  decidable_of_iff ((Fits64 e.term ∧ Fits64 e.index ∧ e.command.length < 2^64) ∧ Fits32 e.type.toInt ∧
      Fits32 e.confServer ∧ Fits32 e.confRole)
    ⟨fun ⟨⟨h₁, h₂, h₃⟩, h₄, h₅, h₆⟩ => ⟨h₁, h₂, h₃, h₄, h₅, h₆⟩,
      fun h => ⟨⟨h.term, h.index, h.command⟩, h.type, h.confServer, h.confRole⟩⟩

namespace RaftState

/-- The fields of a state; with an external log the entries are not looked for. -/
def read (external : Bool) : Framing.Reader UInt8 RaftState := do
  let term ← getZigzag
  let voted ← getInt
  let snapIdx ← getZigzag
  let snapTerm ← getZigzag
  let n ← getInt
  if n < 0 ∨ (kMaxStateEntries : Int) < n then failure
  else
    let logs ← if external then pure [] else readN LogEntry.read n.toNat
    let nm ← getInt
    let restored ← readN getInt nm.toNat
    let pc ← getZigzag
    pure ⟨term, voted, snapIdx, snapTerm, logs, restored.map MemberRole.ofInt, pc⟩

/-- What the types of the source can hold. -/
structure Fits (s : RaftState) : Prop where
  currentTerm : Fits64 s.currentTerm
  votedFor : Fits32 s.votedFor
  snapshotIndex : Fits64 s.snapshotIndex
  snapshotTerm : Fits64 s.snapshotTerm
  logs : ∀ e ∈ s.logs, e.Fits
  count : s.logs.length < 2^31
  roles : ∀ m ∈ s.isMember, Fits32 m.toInt ∧ MemberRole.ofInt m.toInt = m
  members : s.isMember.length < 2^31
  pendingConfIndex : Fits64 s.pendingConfIndex

instance (s : RaftState) : Decidable s.Fits :=
  decidable_of_iff ((Fits64 s.currentTerm ∧ Fits32 s.votedFor ∧ Fits64 s.snapshotIndex ∧
      Fits64 s.snapshotTerm) ∧ (∀ e ∈ s.logs, e.Fits) ∧ s.logs.length < 2^31 ∧
      (∀ m ∈ s.isMember, Fits32 m.toInt ∧ MemberRole.ofInt m.toInt = m) ∧ s.isMember.length < 2^31 ∧
      Fits64 s.pendingConfIndex)
    ⟨fun ⟨⟨h₁, h₂, h₃, h₄⟩, h₅, h₆, h₇, h₈, h₉⟩ => ⟨h₁, h₂, h₃, h₄, h₅, h₆, h₇, h₈, h₉⟩,
      fun h => ⟨⟨h.currentTerm, h.votedFor, h.snapshotIndex, h.snapshotTerm⟩, h.logs, h.count, h.roles,
        h.members, h.pendingConfIndex⟩⟩

variable {s : RaftState}

theorem frames_roles (h : s.Fits) : Frames (s.isMember.flatMap fun m => putInt m.toInt)
    (readN getInt s.isMember.length) (s.isMember.map MemberRole.toInt) := by
  have hf : Frames ((s.isMember.map MemberRole.toInt).flatMap putInt)
      (readN getInt (s.isMember.map MemberRole.toInt).length) (s.isMember.map MemberRole.toInt) := by
    refine Frames.readN fun v hv => ?_
    obtain ⟨m, hm, rfl⟩ := List.mem_map.mp hv
    exact frames_putInt (h.roles m hm).1
  rwa [List.flatMap_map, List.length_map] at hf

theorem map_ofInt (h : s.Fits) : (s.isMember.map MemberRole.toInt).map MemberRole.ofInt = s.isMember := by
  rw [List.map_map]
  exact (List.map_congr_left fun m hm => (h.roles m hm).2).trans (List.map_id _)

/-- A state with few enough entries is read back. -/
theorem frames (h : s.Fits) (hn : s.logs.length ≤ kMaxStateEntries) : Frames s.encode (read false) s := by
  refine (frames_putZigzag h.currentTerm).next <| (frames_putInt h.votedFor).next <|
    (frames_putZigzag h.snapshotIndex).next <| (frames_putZigzag h.snapshotTerm).next <|
    (frames_putInt ⟨by omega, by have := h.count; omega⟩).next ?_
  rw [if_neg (by omega), Int.toNat_natCast]
  refine (Frames.readN fun e he => frames_entry (h.logs e he)).next <|
    (frames_putInt ⟨by omega, by have := h.members; omega⟩).next ?_
  rw [Int.toNat_natCast]
  refine (frames_roles h).next <| (frames_putZigzag h.pendingConfIndex).last ?_
  rw [map_ofInt h]

/-- A state with more entries is not. -/
theorem read_overlong (h : s.Fits) (hn : kMaxStateEntries < s.logs.length) (external : Bool) :
    read external s.encode = none := by
  simp only [encode, List.flatten_cons]
  rw [read, (frames_putZigzag h.currentTerm).bind_reads, (frames_putInt h.votedFor).bind_reads,
    (frames_putZigzag h.snapshotIndex).bind_reads, (frames_putZigzag h.snapshotTerm).bind_reads,
    (frames_putInt ⟨by omega, by have := h.count; omega⟩).bind_reads, if_pos (.inr (by omega))]
  rfl

theorem readAll_encode_iff (h : s.Fits) :
    readAll (read false) s.encode = some s ↔ s.logs.length ≤ kMaxStateEntries := by
  constructor
  · intro hr
    by_contra hn
    simp [readAll, read_overlong h (by omega)] at hr
  · intro hn
    exact (frames h hn).readAll_eq

end RaftState

namespace Raft

/-- `ReadPersist`; `none` is its `abort`. -/
def readPersistData (r : Raft) (data diskBlob : Bytes) : Option Raft :=
  if data = [] then some r
  else
    match readAll (RaftState.read r.logStore.keepsLogExternally) data with
    | none => none
    | some st =>
      let r := r.restoreState st
      match decodeSnapshotBlob diskBlob with
      | .decoded i t raw => some ((r.adoptBlob ⟨i.toInt, t.toInt, raw⟩).restoreRest st)
      | .corrupt => none
      | .noSnapshot => some (r.restoreRest st)

variable {r : Raft} {st : RaftState} {data : Bytes}

theorem nonempty_of_decodable {external : Bool} (h : readAll (RaftState.read external) data = some st) :
    data ≠ [] := by
  rintro rfl
  have hnone : RaftState.read external [] = none := bind_eq_none (d := getZigzag) rfl _
  simp [readAll, hnone] at h

/-- What `ReadPersist` makes of a state that it can decode. -/
theorem readPersistData_eq (h : readAll (RaftState.read r.logStore.keepsLogExternally) data = some st)
    (diskBlob : Bytes) : r.readPersistData data diskBlob =
      match decodeSnapshotBlob diskBlob with
      | .decoded i t raw =>
        some (((r.restoreState st).adoptBlob ⟨i.toInt, t.toInt, raw⟩).restoreRest st)
      | .corrupt => none
      | .noSnapshot => some ((r.restoreState st).restoreRest st) := by
  rw [readPersistData, if_neg (nonempty_of_decodable h), h]

end Raft

namespace Disk

/-- The bytes of the state file, none where there is no file. -/
def stateData (d : Disk) : Bytes :=
  match d.persister.raftState with
  | some st => st.encode
  | none => []

def snapshotBlob (d : Disk) : Bytes :=
  match d.persister.snapshot with
  | some b => encodeSnapshotBlob (.ofInt b.index) (.ofInt b.term) b.raw
  | none => []

/-- The state and the blob are such as the decoders take. -/
structure Fits (d : Disk) : Prop where
  state : ∀ st, d.persister.raftState = some st → st.Fits ∧ st.logs.length ≤ kMaxStateEntries
  blob : ∀ b, d.persister.snapshot = some b →
    Fits64 b.index ∧ Fits64 b.term ∧ b.raw.length < kMaxRecvSnapBuf

instance (d : Disk) : Decidable d.Fits :=
  decidable_of_iff ((∀ st ∈ d.persister.raftState.toList, st.Fits ∧ st.logs.length ≤ kMaxStateEntries) ∧
      ∀ b ∈ d.persister.snapshot.toList,
        Fits64 b.index ∧ Fits64 b.term ∧ b.raw.length < kMaxRecvSnapBuf) <| by
    simp only [Option.mem_toList]
    exact ⟨fun h => ⟨h.1, h.2⟩, fun h => ⟨h.state, h.blob⟩⟩

end Disk

namespace Raft

/-- The constructor, over the bytes of the two files; `none` is the `abort` of `ReadPersist`. -/
def makeOfFiles (peers me : Nat) (d : Disk) (now : Int) : Option Raft :=
  ((blank peers me d now).readPersistData d.stateData d.snapshotBlob).map fun r =>
    { r with
      nextIndex := List.replicate peers (r.lastLogIndexLocked + 1)
      snapInFlight := List.replicate peers false
      snapEpoch := List.replicate peers 0 }

/-- A node without a file store comes up with what it saved, if that fits. -/
theorem makeOfFiles_eq_make (peers me : Nat) {d : Disk} (hmem : d.persister.fileBacked = false) (h : d.Fits)
    (now : Int) : makeOfFiles peers me d now = some (make peers me d now) := by
  have hexternal : (blank peers me d now).logStore.keepsLogExternally = false := by
    simp [blank, hmem, LogStorage.keepsLogExternally]
  rw [makeOfFiles, make, Disk.stateData]
  cases hst : d.persister.raftState with
  | none => simp [readPersistData]
  | some st =>
    obtain ⟨hfits, hn⟩ := h.state st hst
    have hread : readAll (RaftState.read (blank peers me d now).logStore.keepsLogExternally) st.encode =
        some st := by
      rw [hexternal]
      exact (RaftState.readAll_encode_iff hfits).mpr hn
    have hsame : ((blank peers me d now).restoreState st).persister.snapshot = d.persister.snapshot := rfl
    dsimp only
    rw [readPersistData_eq hread, readPersist, hsame, Disk.snapshotBlob]
    cases hb : d.persister.snapshot with
    | none =>
      dsimp only
      rw [decode_short (by decide)]
      rfl
    | some b =>
      obtain ⟨hi, ht, hlen⟩ := h.blob b hb
      dsimp only
      rw [(decode_encode_iff _ _ b.raw hlen.le).mpr hlen]
      dsimp only
      rw [Int64.toInt_ofInt_of_le hi.1 hi.2, Int64.toInt_ofInt_of_le ht.1 ht.2]
      rfl

end Raft
end ChonKV
