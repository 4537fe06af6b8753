import ChonKV.Kv.Convergence
import ChonKV.Raft.ReadPersist

/-!
The start of a server from its two files: what the log was compacted to is found in the snapshot blob, or
nowhere.
-/

set_option autoImplicit false

namespace ChonKV

open Framing

namespace Raft

/-- Nothing was compacted, or the snapshot is the payload of the blob on the disk, which is verified. -/
def Recovered (r : Raft) (diskBlob : Bytes) : Prop :=
  r.snapshotIndex = 0 ∨ ∃ i t raw, decodeSnapshotBlob diskBlob = .decoded i t raw ∧
    i.toInt = r.snapshotIndex ∧ r.snapshotData = raw

theorem restoreRest_snapshot (r : Raft) (st : RaftState) :
    (r.restoreRest st).snapshotIndex = r.snapshotIndex ∧
      (r.restoreRest st).snapshotData = r.snapshotData := ⟨rfl, rfl⟩

/-- A blob that is not behind the state is adopted, one that is behind it is left alone. -/
theorem adoptBlob_snapshot (r : Raft) (b : SnapshotBlob) :
    (r.adoptBlob b).snapshotIndex = max r.snapshotIndex b.index ∧
      (r.adoptBlob b).snapshotData = if b.index < r.snapshotIndex then r.snapshotData else b.raw := by
  rw [adoptBlob]
  rcases lt_trichotomy r.snapshotIndex b.index with hlt | heq | hgt
  · simp [hlt, hlt.le, hlt.not_gt]
  · simp [heq]
  · simp [hgt, hgt.le, hgt.not_gt, hgt.ne]

end Raft

namespace KVServer

variable {s s' : KVServer} {i : Int} {snap : Bytes}

theorem applySnapshot_nil (s : KVState) : s.applySnapshot [] = none := by
  have hnone : KVState.readSnapshot [] = none := bind_eq_none (d := KVState.readSize) rfl _
  simp [KVState.applySnapshot, readAll, hnone]

/-- A server that starts behind index 0 has its state from the snapshot, unless that is empty. -/
theorem boot_restores_iff (s : KVServer) (h0 : s.lastCmdIndex = 0) (i : Int) (snap : Bytes) :
    (∀ s', s.boot i snap = some s' → 0 < s'.lastCmdIndex → s.state.applySnapshot snap = some s'.state) ↔
      (0 < i → snap ≠ []) := by
  rw [boot]
  by_cases hi : 0 < i
  · rw [if_pos hi]
    by_cases hs : snap = []
    · simp [hi, hs, applySnapshot_nil]
    · simp only [hs, ↓reduceIte, hi, ne_eq, not_false_eq_true, implies_true, iff_true]
      intro s' hb _
      obtain ⟨state, hstate, rfl⟩ := Option.map_eq_some_iff.mp hb
      exact hstate
  · simp [hi, h0]

end KVServer

open Raft

/-- No state that was compacted is lost without a word: what `ReadPersist` returns is recovered, and the
server over it has its state from that snapshot. -/
def NoSilentLoss (kv : KVServer) (r : Raft) (data diskBlob : Bytes) : Prop :=
  ∀ r', r.readPersistData data diskBlob = some r' → r'.Recovered diskBlob ∧
    ∀ kv', kv.boot r'.snapshotIndex r'.snapshotData = some kv' → 0 < kv'.lastCmdIndex →
      kv.state.applySnapshot r'.snapshotData = some kv'.state

/-- The blob on the disk goes with a state that was compacted to `snapshotIndex`: it is known to be bad, or
it is not behind the state and holds something; and without one nothing was compacted. -/
def Recoverable (snapshotIndex : Int) (diskBlob : Bytes) : Prop :=
  match decodeSnapshotBlob diskBlob with
  | .decoded i _ raw => if i.toInt < snapshotIndex then snapshotIndex = 0 else 0 < i.toInt → raw ≠ []
  | .noSnapshot => snapshotIndex = 0
  | .corrupt => True

/-- A restart loses nothing silently just where the snapshot blob goes with the state. -/
theorem no_silent_loss_iff (cap : Nat) (maxIdleIndex : UInt64) (peers me : Nat) (d : Disk) (now : Int)
    (data diskBlob : Bytes) {st : RaftState}
    (h : readAll (RaftState.read (blank peers me d now).logStore.keepsLogExternally) data = some st) :
    NoSilentLoss (KVServer.fresh cap maxIdleIndex) (blank peers me d now) data diskBlob ↔
      Recoverable st.snapshotIndex diskBlob := by
  have hboot := KVServer.boot_restores_iff (KVServer.fresh cap maxIdleIndex) rfl
  rw [NoSilentLoss, readPersistData_eq h, Recoverable]
  cases hd : decodeSnapshotBlob diskBlob with
  | decoded i t raw =>
    obtain ⟨hidx, hdata⟩ := adoptBlob_snapshot ((blank peers me d now).restoreState st)
      ⟨i.toInt, t.toInt, raw⟩
    have hst : ((blank peers me d now).restoreState st).snapshotIndex = st.snapshotIndex ∧
        ((blank peers me d now).restoreState st).snapshotData = [] := ⟨rfl, rfl⟩
    rw [hst.1] at hidx hdata
    rw [hst.2] at hdata
    simp only [Option.some.injEq, forall_eq', Recovered, hd, DecodedBlob.decoded.injEq, hboot,
      restoreRest_snapshot, hidx, hdata]
    by_cases hlt : i.toInt < st.snapshotIndex
    · -- the blob is behind the state, which keeps its index and no data
      simp only [hlt, ↓reduceIte, max_eq_left hlt.le]
      refine ⟨fun ⟨hrec, _⟩ => ?_, fun h0 => ⟨.inl h0, fun hpos => absurd h0 hpos.ne'⟩⟩
      obtain h0 | ⟨_, _, _, ⟨rfl, -, -⟩, heq, -⟩ := hrec
      · exact h0
      · exact absurd heq hlt.ne
    · simp only [hlt, ↓reduceIte, max_eq_right (not_lt.mp hlt)]
      exact ⟨fun h => h.2, fun h => ⟨.inr ⟨i, t, raw, ⟨rfl, rfl, rfl⟩, rfl, rfl⟩, h⟩⟩
  | noSnapshot =>
    simp only [Option.some.injEq, forall_eq', Recovered, hd, hboot, restoreRest_snapshot]
    refine ⟨fun ⟨hrec, _⟩ => ?_, fun h0 => ⟨.inl h0, fun hpos => absurd h0 hpos.ne'⟩⟩
    obtain h0 | ⟨_, _, _, hno, -⟩ := hrec
    · exact h0
    · cases hno
  | corrupt => simp

/-- The state of a node that took its snapshot at 5. -/
def compactedState : RaftState where
  currentTerm := 1
  votedFor := -1
  snapshotIndex := 5
  snapshotTerm := 1
  logs := [sentinel 1 5]
  isMember := [.kVoter]
  pendingConfIndex := 0

theorem compactedState_decodes :
    readAll (RaftState.read false) compactedState.encode = some compactedState := by
  decide +kernel

/-- Its blob was written for a later snapshot, whose state was not saved. -/
theorem no_silent_loss_ahead :
    NoSilentLoss (KVServer.fresh 1 0) (blank 1 0 {} 0) compactedState.encode
      (encodeSnapshotBlob 7 1 [0]) := by
  have hd : decodeSnapshotBlob (encodeSnapshotBlob 7 1 [0]) = .decoded 7 1 [0] := by decide +kernel
  refine (no_silent_loss_iff 1 0 1 0 {} 0 _ _ compactedState_decodes).mpr ?_
  rw [Recoverable, hd]
  decide

/-- Its blob is missing: the server starts all the same, with nothing and at 5. -/
theorem silent_loss :
    ¬ NoSilentLoss (KVServer.fresh 1 0) (blank 1 0 {} 0) compactedState.encode [] ∧
      ((KVServer.fresh 1 0).boot 5 []).map KVServer.lastCmdIndex = some 5 ∧
      ((KVServer.fresh 1 0).boot 5 []).map (fun kv => kv.state.kvStore.entries) = some [] := by
  refine ⟨fun h => ?_, rfl, rfl⟩
  obtain ⟨hrec, -⟩ := h _ (readPersistData_eq (r := blank 1 0 {} 0) compactedState_decodes [])
  obtain h0 | ⟨_, _, _, hdec, -⟩ := hrec
  · exact absurd h0 (by decide)
  · cases hdec

end ChonKV
