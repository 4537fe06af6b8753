import ChonKV.Labrpc.Codec
import ChonKV.Raft.Protocol

/-!
What the messages of `raft_protocol.h` are on the wire. Fields are integers here, so a message that
the source can hold is one whose fields fit their widths.
-/

set_option autoImplicit false

namespace ChonKV

open Framing

def Fits64 (v : Int) : Prop := -2^63 ≤ v ∧ v < 2^63

def Fits32 (v : Int) : Prop := -2^31 ≤ v ∧ v < 2^31

/-- `Encoder::Zigzag` on an `int64_t`. -/
def putZigzag (v : Int) : Bytes := Encoder.zigzag (Int64.ofInt v)

/-- `Encoder::Int` on an `int`. -/
def putInt (v : Int) : Bytes := Encoder.int (Int32.ofInt v)

/-- `Encoder::Varint` on a `uint64_t`. -/
def putVarint (v : Nat) : Bytes := Encoder.varint (UInt64.ofNat v)

def getZigzag : Reader UInt8 Int := do
  let v ← Decoder.zigzag
  pure v.toInt

def getInt : Reader UInt8 Int := do
  let v ← Decoder.int
  pure v.toInt

def getVarint : Reader UInt8 Nat := do
  let v ← Decoder.varint
  pure v.toNat

/-- An `int` that counts what follows: `if (!d.Int(n) || n < 0) return false`. -/
def getCount : Reader UInt8 Nat := do
  let n ← getInt
  if n < 0 then failure else pure n.toNat

theorem frames_putZigzag {v : Int} (h : Fits64 v) : Frames (putZigzag v) getZigzag v :=
  (frames_zigzag _).bind_pure (congrArg pure (Int64.toInt_ofInt_of_le h.1 h.2))

theorem frames_putInt {v : Int} (h : Fits32 v) : Frames (putInt v) getInt v :=
  (frames_int _).bind_pure (congrArg pure (Int32.toInt_ofInt_of_le h.1 h.2))

theorem frames_putVarint {v : Nat} (h : v < 2^64) : Frames (putVarint v) getVarint v :=
  (frames_varint _).bind_pure (congrArg pure (UInt64.toNat_ofNat_of_lt' h))

theorem frames_putCount {n : Nat} (h : n < 2^31) : Frames (putInt n) getCount n := by
  refine (frames_putInt ⟨by omega, by omega⟩).bind_pure ?_
  rw [if_neg (by omega), Int.toNat_natCast]

/-- A flag that is sent as an `int`. -/
theorem frames_flag (b : Bool) : Frames (putInt (if b then 1 else 0)) getInt (if b then 1 else 0) :=
  frames_putInt (by cases b <;> exact ⟨by decide, by decide⟩)

def LogEntry.encode (e : LogEntry) : Bytes :=
  [putZigzag e.term, putZigzag e.index, Encoder.bytes e.command, putInt e.type.toInt,
    putInt e.confServer, putInt e.confRole].flatten

def LogEntry.read : Reader UInt8 LogEntry := do
  let term ← getZigzag
  let index ← getZigzag
  let command ← Decoder.bytes
  let et ← getInt
  let confServer ← getInt
  let confRole ← getInt
  pure ⟨term, index, command, .ofInt et, confServer, confRole⟩

structure LogEntry.Fits (e : LogEntry) : Prop where
  term : Fits64 e.term
  index : Fits64 e.index
  command : e.command.length < 2^64
  type : Fits32 e.type.toInt
  confServer : Fits32 e.confServer
  confRole : Fits32 e.confRole

theorem frames_entry {e : LogEntry} (h : e.Fits) : Frames e.encode LogEntry.read e :=
  (frames_putZigzag h.term).next <| (frames_putZigzag h.index).next <|
    (frames_bytes h.command).next <| (frames_putInt h.type).next <|
    (frames_putInt h.confServer).next <| (frames_putInt h.confRole).last <| by
      rw [EntryType.ofInt_toInt]

namespace RequestVoteArgs

def serialize (a : RequestVoteArgs) : Bytes :=
  [putZigzag a.term, putInt a.candidateId, putZigzag a.lastLogIndex,
    putZigzag a.lastLogTerm].flatten

def read : Reader UInt8 RequestVoteArgs := do
  let term ← getZigzag
  let candidateId ← getInt
  let lastLogIndex ← getZigzag
  let lastLogTerm ← getZigzag
  pure ⟨term, candidateId, lastLogIndex, lastLogTerm⟩

def deserialize : Bytes → Option RequestVoteArgs := readAll read

structure Fits (a : RequestVoteArgs) : Prop where
  term : Fits64 a.term
  candidateId : Fits32 a.candidateId
  lastLogIndex : Fits64 a.lastLogIndex
  lastLogTerm : Fits64 a.lastLogTerm

theorem frames {a : RequestVoteArgs} (h : a.Fits) : Frames a.serialize read a :=
  (frames_putZigzag h.term).next <| (frames_putInt h.candidateId).next <|
    (frames_putZigzag h.lastLogIndex).next <| (frames_putZigzag h.lastLogTerm).last rfl

end RequestVoteArgs

namespace RequestVoteReply

def serialize (r : RequestVoteReply) : Bytes :=
  [putZigzag r.term, Encoder.bool r.voteGranted].flatten

def read : Reader UInt8 RequestVoteReply := do
  let term ← getZigzag
  let voteGranted ← Decoder.bool
  pure ⟨term, voteGranted⟩

def deserialize : Bytes → Option RequestVoteReply := readAll read

structure Fits (r : RequestVoteReply) : Prop where
  term : Fits64 r.term

theorem frames {r : RequestVoteReply} (h : r.Fits) : Frames r.serialize read r :=
  (frames_putZigzag h.term).next <| (frames_bool r.voteGranted).last rfl

end RequestVoteReply

namespace RequestPreVoteArgs

def serialize (a : RequestPreVoteArgs) : Bytes :=
  [putZigzag a.term, putInt a.candidateId, putZigzag a.lastLogIndex,
    putZigzag a.lastLogTerm].flatten

def read : Reader UInt8 RequestPreVoteArgs := do
  let term ← getZigzag
  let candidateId ← getInt
  let lastLogIndex ← getZigzag
  let lastLogTerm ← getZigzag
  pure ⟨term, candidateId, lastLogIndex, lastLogTerm⟩

def deserialize : Bytes → Option RequestPreVoteArgs := readAll read

structure Fits (a : RequestPreVoteArgs) : Prop where
  term : Fits64 a.term
  candidateId : Fits32 a.candidateId
  lastLogIndex : Fits64 a.lastLogIndex
  lastLogTerm : Fits64 a.lastLogTerm

theorem frames {a : RequestPreVoteArgs} (h : a.Fits) : Frames a.serialize read a :=
  (frames_putZigzag h.term).next <| (frames_putInt h.candidateId).next <|
    (frames_putZigzag h.lastLogIndex).next <| (frames_putZigzag h.lastLogTerm).last rfl

end RequestPreVoteArgs

namespace RequestPreVoteReply

def serialize (r : RequestPreVoteReply) : Bytes :=
  [putZigzag r.term, Encoder.bool r.voteGranted].flatten

def read : Reader UInt8 RequestPreVoteReply := do
  let term ← getZigzag
  let voteGranted ← Decoder.bool
  pure ⟨term, voteGranted⟩

def deserialize : Bytes → Option RequestPreVoteReply := readAll read

structure Fits (r : RequestPreVoteReply) : Prop where
  term : Fits64 r.term

theorem frames {r : RequestPreVoteReply} (h : r.Fits) : Frames r.serialize read r :=
  (frames_putZigzag h.term).next <| (frames_bool r.voteGranted).last rfl

end RequestPreVoteReply

namespace AppendEntriesArgs

def serialize (a : AppendEntriesArgs) : Bytes :=
  [putZigzag a.term, putInt a.leaderId, putZigzag a.prevLogIndex, putZigzag a.prevLogTerm,
    putZigzag a.leaderCommit, putVarint a.readCtx, putInt a.entries.length,
    a.entries.flatMap LogEntry.encode].flatten

def read : Reader UInt8 AppendEntriesArgs := do
  let term ← getZigzag
  let leaderId ← getInt
  let prevLogIndex ← getZigzag
  let prevLogTerm ← getZigzag
  let leaderCommit ← getZigzag
  let readCtx ← getVarint
  let n ← getCount
  let entries ← readN LogEntry.read n
  pure ⟨term, leaderId, prevLogIndex, prevLogTerm, entries, leaderCommit, readCtx⟩

def deserialize : Bytes → Option AppendEntriesArgs := readAll read

structure Fits (a : AppendEntriesArgs) : Prop where
  term : Fits64 a.term
  leaderId : Fits32 a.leaderId
  prevLogIndex : Fits64 a.prevLogIndex
  prevLogTerm : Fits64 a.prevLogTerm
  entries : ∀ e ∈ a.entries, e.Fits
  count : a.entries.length < 2^31
  leaderCommit : Fits64 a.leaderCommit
  readCtx : a.readCtx < 2^64

theorem frames {a : AppendEntriesArgs} (h : a.Fits) : Frames a.serialize read a :=
  (frames_putZigzag h.term).next <| (frames_putInt h.leaderId).next <|
    (frames_putZigzag h.prevLogIndex).next <| (frames_putZigzag h.prevLogTerm).next <|
    (frames_putZigzag h.leaderCommit).next <| (frames_putVarint h.readCtx).next <|
    (frames_putCount h.count).next <|
    (Frames.readN fun e he => frames_entry (h.entries e he)).last rfl

end AppendEntriesArgs

namespace AppendEntriesReply

def serialize (r : AppendEntriesReply) : Bytes :=
  [putZigzag r.term, Encoder.bool r.success, putZigzag r.nextIndex, putVarint r.readCtx].flatten

def read : Reader UInt8 AppendEntriesReply := do
  let term ← getZigzag
  let success ← Decoder.bool
  let nextIndex ← getZigzag
  let readCtx ← getVarint
  pure ⟨term, success, nextIndex, readCtx⟩

def deserialize : Bytes → Option AppendEntriesReply := readAll read

structure Fits (r : AppendEntriesReply) : Prop where
  term : Fits64 r.term
  nextIndex : Fits64 r.nextIndex
  readCtx : r.readCtx < 2^64

theorem frames {r : AppendEntriesReply} (h : r.Fits) : Frames r.serialize read r :=
  (frames_putZigzag h.term).next <| (frames_bool r.success).next <|
    (frames_putZigzag h.nextIndex).next <| (frames_putVarint h.readCtx).last rfl

end AppendEntriesReply

namespace InstallSnapshotArgs

/-- The checksum goes as the `int` that holds its bits. -/
def serialize (a : InstallSnapshotArgs) : Bytes :=
  [putZigzag a.term, putInt a.leaderId, putZigzag a.lastIncludedIndex,
    putZigzag a.lastIncludedTerm, putZigzag a.offset, putInt a.chunkSize,
    putInt (if a.done then 1 else 0), Encoder.int a.crc.toInt32, putInt a.epoch,
    Encoder.bytes a.data, putInt a.members.length, a.members.flatMap putInt].flatten

def read : Reader UInt8 InstallSnapshotArgs := do
  let term ← getZigzag
  let leaderId ← getInt
  let lastIncludedIndex ← getZigzag
  let lastIncludedTerm ← getZigzag
  let offset ← getZigzag
  let chunkSize ← getInt
  let doneFlag ← getInt
  let crc ← Decoder.int
  let epoch ← getInt
  let data ← Decoder.bytes
  let nm ← getCount
  let members ← readN getInt nm
  pure ⟨term, leaderId, lastIncludedIndex, lastIncludedTerm, offset, chunkSize,
    decide (doneFlag ≠ 0), crc.toUInt32, epoch, data, members⟩

def deserialize : Bytes → Option InstallSnapshotArgs := readAll read

structure Fits (a : InstallSnapshotArgs) : Prop where
  term : Fits64 a.term
  leaderId : Fits32 a.leaderId
  lastIncludedIndex : Fits64 a.lastIncludedIndex
  lastIncludedTerm : Fits64 a.lastIncludedTerm
  offset : Fits64 a.offset
  chunkSize : Fits32 a.chunkSize
  epoch : Fits32 a.epoch
  data : a.data.length < 2^64
  members : ∀ m ∈ a.members, Fits32 m
  count : a.members.length < 2^31

theorem frames {a : InstallSnapshotArgs} (h : a.Fits) : Frames a.serialize read a :=
  (frames_putZigzag h.term).next <| (frames_putInt h.leaderId).next <|
    (frames_putZigzag h.lastIncludedIndex).next <| (frames_putZigzag h.lastIncludedTerm).next <|
    (frames_putZigzag h.offset).next <| (frames_putInt h.chunkSize).next <|
    (frames_flag a.done).next <| (frames_int a.crc.toInt32).next <|
    (frames_putInt h.epoch).next <| (frames_bytes h.data).next <|
    (frames_putCount h.count).next <|
    (Frames.readN fun m hm => frames_putInt (h.members m hm)).last <| by
      cases a
      simp

end InstallSnapshotArgs

namespace InstallSnapshotReply

def serialize (r : InstallSnapshotReply) : Bytes :=
  [putZigzag r.term, putInt (if r.okInstall then 1 else 0)].flatten

def read : Reader UInt8 InstallSnapshotReply := do
  let term ← getZigzag
  let ok ← getInt
  pure ⟨term, decide (ok ≠ 0)⟩

def deserialize : Bytes → Option InstallSnapshotReply := readAll read

structure Fits (r : InstallSnapshotReply) : Prop where
  term : Fits64 r.term

theorem frames {r : InstallSnapshotReply} (h : r.Fits) : Frames r.serialize read r :=
  (frames_putZigzag h.term).next <| (frames_flag r.okInstall).last <| by
    cases r
    simp

end InstallSnapshotReply

namespace ReadIndexArgs

def serialize (a : ReadIndexArgs) : Bytes := [putZigzag a.term].flatten

def read : Reader UInt8 ReadIndexArgs := do
  let term ← getZigzag
  pure ⟨term⟩

def deserialize : Bytes → Option ReadIndexArgs := readAll read

structure Fits (a : ReadIndexArgs) : Prop where
  term : Fits64 a.term

theorem frames {a : ReadIndexArgs} (h : a.Fits) : Frames a.serialize read a :=
  (frames_putZigzag h.term).last rfl

end ReadIndexArgs

namespace ReadIndexReply

def serialize (r : ReadIndexReply) : Bytes := [putZigzag r.term, putZigzag r.readIndex].flatten

def read : Reader UInt8 ReadIndexReply := do
  let term ← getZigzag
  let readIndex ← getZigzag
  pure ⟨term, readIndex⟩

def deserialize : Bytes → Option ReadIndexReply := readAll read

structure Fits (r : ReadIndexReply) : Prop where
  term : Fits64 r.term
  readIndex : Fits64 r.readIndex

theorem frames {r : ReadIndexReply} (h : r.Fits) : Frames r.serialize read r :=
  (frames_putZigzag h.term).next <| (frames_putZigzag h.readIndex).last rfl

end ReadIndexReply
end ChonKV
