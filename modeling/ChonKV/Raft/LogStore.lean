import ChonKV.Raft.Crc32
import ChonKV.Raft.Messages

/-!
The persister and the two log back ends. A state blob and a snapshot blob are the records that
their encodings stand for; a segment file is the list of whole records it holds.
-/

set_option autoImplicit false

namespace ChonKV

/-- What `EncodeRaftStateLocked` writes. -/
structure RaftState where
  currentTerm : Int
  votedFor : Int
  snapshotIndex : Int
  snapshotTerm : Int
  logs : List LogEntry
  isMember : List MemberRole
  pendingConfIndex : Int
  deriving DecidableEq, Repr

def RaftState.encode (s : RaftState) : Bytes :=
  [putZigzag s.currentTerm, putInt s.votedFor, putZigzag s.snapshotIndex, putZigzag s.snapshotTerm,
    putInt s.logs.length, s.logs.flatMap LogEntry.encode, putInt s.isMember.length,
    s.isMember.flatMap (fun m => putInt m.toInt), putZigzag s.pendingConfIndex].flatten

/-- What `EncodeSnapshotBlob` writes. -/
structure SnapshotBlob where
  index : Int
  term : Int
  raw : Bytes
  deriving DecidableEq, Repr

structure Persister where
  raftState : Option RaftState := none
  snapshot : Option SnapshotBlob := none
  fileBacked : Bool := false
  deriving DecidableEq, Repr

def Persister.saveRaftState (p : Persister) (s : RaftState) : Persister :=
  { p with raftState := some s }

def Persister.saveSnapshotOnly (p : Persister) (b : SnapshotBlob) : Persister :=
  { p with snapshot := some b }

/-- What a crash leaves: the persister and the records of the segment file. -/
structure Disk where
  persister : Persister := {}
  segFile : List LogEntry := []
  deriving DecidableEq, Repr

/-- `SegmentLogStorage`: the mirror `entries_`, the end of each of its records counted in records
of the file, and the file itself. `aborted` is a failed continuity check. -/
structure SegmentLogStorage where
  entries : List LogEntry := []
  offsets : List Nat := []
  file : List LogEntry := []
  aborted : Bool := false
  deriving DecidableEq, Repr

namespace SegmentLogStorage

/-- `pwrite` of one record at `file_size_`. -/
def writeRecord (s : SegmentLogStorage) (e : LogEntry) : SegmentLogStorage :=
  { s with file := s.file ++ [e], offsets := s.offsets ++ [s.file.length + 1] }

/-- The file is emptied in place and every entry of the mirror is written again. -/
def rewriteFile (s : SegmentLogStorage) : SegmentLogStorage :=
  s.entries.foldl writeRecord { s with file := [], offsets := [] }

def append (s : SegmentLogStorage) (e : LogEntry) : SegmentLogStorage :=
  let s := if s.entries.isEmpty ∧ s.file ≠ [] then s.rewriteFile else s
  if (s.entries.getLast?.map fun l => decide (e.index ≠ l.index + 1)).getD false then
    { s with aborted := true }
  else
    let s := s.writeRecord e
    { s with entries := s.entries ++ [e] }

def truncateSuffix (s : SegmentLogStorage) (index : Int) : SegmentLogStorage :=
  let keep := (s.entries.takeWhile fun e => decide (e.index ≤ index)).length
  let size := if keep = 0 then 0 else s.offsets.getD (keep-1) 0
  { s with entries := s.entries.take keep, offsets := s.offsets.take keep, file := s.file.take size }

def dropPrefix (s : SegmentLogStorage) (index : Int) : SegmentLogStorage :=
  let drop := (s.entries.takeWhile fun e => decide (e.index ≤ index)).length
  { s with entries := s.entries.drop drop, offsets := s.offsets.drop drop }

def truncatePrefix (s : SegmentLogStorage) (index : Int) : SegmentLogStorage :=
  (s.dropPrefix index).rewriteFile

def replay (s : SegmentLogStorage) (snapTerm snapIdx : Int) : List LogEntry :=
  sentinel snapTerm snapIdx :: s.entries.filter fun e => decide (¬ e.index ≤ snapIdx)

def resetFromLogs (s : SegmentLogStorage) (logs : List LogEntry) : SegmentLogStorage :=
  if s.entries.length + 1 = logs.length ∧ s.entries = logs.tail then s
  else { s with entries := logs.tail }.rewriteFile

/-- `Rebuild`: the mirror of the records that are in the file when it is opened. -/
def rebuild (file : List LogEntry) : SegmentLogStorage :=
  { entries := file
    offsets := (List.range file.length).map (· + 1)
    file := file
    aborted := !decide (List.IsChain (fun a b : LogEntry => b.index = a.index + 1) file) }

def fileSize (s : SegmentLogStorage) : Nat := (s.file.map fun e => 8 + e.encode.length).sum

end SegmentLogStorage

/-- `LogStorage`: the in-memory back end does nothing, the segment back end mirrors the log. -/
inductive LogStorage where
  | memory
  | segment (s : SegmentLogStorage)
  deriving DecidableEq, Repr

namespace LogStorage

def keepsLogExternally : LogStorage → Bool
  | .memory => false
  | .segment _ => true

def append : LogStorage → LogEntry → LogStorage
  | .memory, _ => .memory
  | .segment s, e => .segment (s.append e)

def truncateSuffix : LogStorage → Int → LogStorage
  | .memory, _ => .memory
  | .segment s, i => .segment (s.truncateSuffix i)

def truncatePrefix : LogStorage → Int → LogStorage
  | .memory, _ => .memory
  | .segment s, i => .segment (s.truncatePrefix i)

def dropPrefix : LogStorage → Int → LogStorage
  | .memory, _ => .memory
  | .segment s, i => .segment (s.dropPrefix i)

def replay : LogStorage → Int → Int → List LogEntry
  | .memory, _, _ => []
  | .segment s, t, i => s.replay t i

def resetFromLogs : LogStorage → List LogEntry → LogStorage
  | .memory, _ => .memory
  | .segment s, l => .segment (s.resetFromLogs l)

def fileSize : LogStorage → Nat
  | .memory => 0
  | .segment s => s.fileSize

def aborted : LogStorage → Bool
  | .memory => false
  | .segment s => s.aborted

@[simp] theorem append_memory (e : LogEntry) : append .memory e = .memory := rfl
@[simp] theorem truncateSuffix_memory (i : Int) : truncateSuffix .memory i = .memory := rfl
@[simp] theorem truncatePrefix_memory (i : Int) : truncatePrefix .memory i = .memory := rfl
@[simp] theorem dropPrefix_memory (i : Int) : dropPrefix .memory i = .memory := rfl
@[simp] theorem resetFromLogs_memory (l : List LogEntry) : resetFromLogs .memory l = .memory := rfl
@[simp] theorem keepsLogExternally_memory : keepsLogExternally .memory = false := rfl

end LogStorage
end ChonKV
