import ChonKV.Cluster.Snapshots
import ChonKV.Durable.Aside
import ChonKV.Handler.BackOff

/-!
A snapshot on its way: the chunks that a leader cuts it into, and the buffer that a follower gathers them
in, whatever an earlier transfer has left there.
-/

set_option autoImplicit false

namespace ChonKV
namespace Raft

variable {r f f' : Raft} {base c : InstallSnapshotArgs} {pre rest blob : Bytes} {now : Int}

/-- The buffer is empty, or of a snapshot that `(index, term)` may take the place of. -/
def Admits (f : Raft) (index term : Int) : Prop :=
  f.recvSnapIndex < 0 ∨ f.recvSnapIndex < index ∨
    (f.recvSnapIndex = index ∧ f.recvSnapLastTerm ≤ term)

instance (f : Raft) (index term : Int) : Decidable (f.Admits index term) := by
  unfold Admits
  infer_instance

/-- The follower is in the term of the leader that sends the chunk, and has not applied the snapshot. -/
structure Awaits (f : Raft) (c : InstallSnapshotArgs) : Prop where
  term : f.currentTerm = c.term
  behind : f.lastApplied < c.lastIncludedIndex

/-- The buffer holds `pre` of the snapshot that `c` belongs to. -/
def Gathered (f : Raft) (c : InstallSnapshotArgs) (pre : Bytes) : Prop :=
  f.recvPart = (pre, c.lastIncludedIndex, c.lastIncludedTerm, c.epoch)

/-- The first chunk of a transfer opens an empty buffer. -/
theorem openBuffer_first (h : f.Admits c.lastIncludedIndex c.lastIncludedTerm) (h0 : c.offset = 0) :
    ∃ f', f.openBuffer c = some f' ∧ f'.Gathered c [] := by
  rw [openBuffer]
  by_cases hnew : f.recvSnapIndex ≠ c.lastIncludedIndex ∨ f.recvSnapLastTerm ≠ c.lastIncludedTerm
  · have hlater : f.recvSnapIndex < 0 ∨ f.recvSnapIndex < c.lastIncludedIndex ∨
        (c.lastIncludedIndex = f.recvSnapIndex ∧ f.recvSnapLastTerm < c.lastIncludedTerm) := by
      rcases h with h | h | ⟨hi, ht⟩
      · exact .inl h
      · exact .inr (.inl h)
      · exact .inr (.inr ⟨hi.symm, by omega⟩)
    rw [if_pos hnew, if_pos hlater]
    exact ⟨_, rfl, rfl⟩
  · rw [if_neg hnew, if_pos h0]
    rw [not_or, not_not, not_not] at hnew
    refine ⟨_, rfl, ?_⟩
    simp [Gathered, recvPart, hnew]

/-- A later chunk finds the buffer of its transfer. -/
theorem openBuffer_next (h : f.Gathered c pre) (h0 : c.offset ≠ 0) : f.openBuffer c = some f := by
  simp only [Gathered, recvPart, Prod.mk.injEq] at h
  obtain ⟨-, hi, ht, he⟩ := h
  rw [openBuffer, if_neg (by simp [hi, ht]), if_neg h0, if_pos he.symm]

/-- The buffer holds what comes before the chunk, or the chunk is the first one of a snapshot that it
admits. -/
def Expects (f : Raft) (c : InstallSnapshotArgs) (pre : Bytes) : Prop :=
  (pre = [] ∧ f.Admits c.lastIncludedIndex c.lastIncludedTerm) ∨ (pre ≠ [] ∧ f.Gathered c pre)

theorem Expects.open (h : f.Expects c pre) (hoff : c.offset = pre.length) :
    ∃ f', f.openBuffer c = some f' ∧ f'.Gathered c pre := by
  rcases h with ⟨rfl, hadmits⟩ | ⟨hne, hgot⟩
  · exact openBuffer_first hadmits hoff
  · have hpos := List.length_pos_iff.mpr hne
    exact ⟨f, openBuffer_next hgot (by omega), hgot⟩

end Raft

open Raft

namespace Process

/-- The chunks reach `p` in order, and between two of them it takes up no other; `b` is what the last one
yields. -/
inductive Delivered : Process → List InstallSnapshotArgs → Option Bytes → Prop
  | last {p : Process} {c : InstallSnapshotArgs} (now : Int) (h : p.raft.Awaits c) :
    Delivered p [c] (p.raft.installSnapshot c now).2.2
  | more {p : Process} {c : InstallSnapshotArgs} (now : Int) (es : List ProcessEvent)
    {cs : List InstallSnapshotArgs} {b : Option Bytes} (h : p.raft.Awaits c)
    (hes : Meets Elsewhere (p.step (.installSnapshot c now)) es)
    (hcs : Delivered ((p.step (.installSnapshot c now)).run es) cs b) : Delivered p (c :: cs) b

variable {p : Process} {base c : InstallSnapshotArgs} {pre rest blob : Bytes} {b : Option Bytes}

end Process

open Process

def newTerm (term : Int) : ProcessEvent :=
  .requestVote { term := term, candidateId := term - 1, lastLogIndex := 2, lastLogTerm := 1 } 0

end ChonKV
