import ChonKV.Labrpc.Filling
import ChonKV.Raft.Messages
import ChonKV.Raft.Snapshot

/-!
`MakeRaftService`: a handler decodes its arguments into a fresh struct, does not look at what `Deserialize`
says of them, and calls the `Raft` object.
-/

set_option autoImplicit false

namespace ChonKV

open Framing

namespace RequestVoteArgs

def fill (st : Filling UInt8 RequestVoteArgs) : Filling UInt8 RequestVoteArgs :=
  st |> fillField getZigzag (fun v a => { a with term := v })
    |> fillField getInt (fun v a => { a with candidateId := v })
    |> fillField getZigzag (fun v a => { a with lastLogIndex := v })
    |> fillField getZigzag (fun v a => { a with lastLogTerm := v })

theorem agrees_fill : Agrees fill {} read :=
  .field (fun _ => rfl) fun _ => .field (fun _ => rfl) fun _ => .field (fun _ => rfl) fun _ =>
    .field (fun _ => rfl) fun _ => agrees_done _

/-- The struct after `Deserialize`, whatever that returns. -/
def filled (s : Bytes) : RequestVoteArgs := (fill ({}, some s)).1

/-- A payload that `Deserialize` accepts leaves the arguments that it holds. -/
theorem filled_of_deserialize {s : Bytes} {a : RequestVoteArgs} (h : deserialize s = some a) :
    filled s = a := congrArg Prod.fst ((agrees_fill.readAll_iff s).mp h)

end RequestVoteArgs

namespace RequestPreVoteArgs

def fill (st : Filling UInt8 RequestPreVoteArgs) : Filling UInt8 RequestPreVoteArgs :=
  st |> fillField getZigzag (fun v a => { a with term := v })
    |> fillField getInt (fun v a => { a with candidateId := v })
    |> fillField getZigzag (fun v a => { a with lastLogIndex := v })
    |> fillField getZigzag (fun v a => { a with lastLogTerm := v })

theorem agrees_fill : Agrees fill {} read :=
  .field (fun _ => rfl) fun _ => .field (fun _ => rfl) fun _ => .field (fun _ => rfl) fun _ =>
    .field (fun _ => rfl) fun _ => agrees_done _

def filled (s : Bytes) : RequestPreVoteArgs := (fill ({}, some s)).1

theorem filled_of_deserialize {s : Bytes} {a : RequestPreVoteArgs} (h : deserialize s = some a) :
    filled s = a := congrArg Prod.fst ((agrees_fill.readAll_iff s).mp h)

end RequestPreVoteArgs

namespace AppendEntriesArgs

def fill (st : Filling UInt8 AppendEntriesArgs) : Filling UInt8 AppendEntriesArgs :=
  st |> fillField getZigzag (fun v a => { a with term := v })
    |> fillField getInt (fun v a => { a with leaderId := v })
    |> fillField getZigzag (fun v a => { a with prevLogIndex := v })
    |> fillField getZigzag (fun v a => { a with prevLogTerm := v })
    |> fillField getZigzag (fun v a => { a with leaderCommit := v })
    |> fillField getVarint (fun v a => { a with readCtx := v })
    |> fillLoop getCount LogEntry.read (fun e a => { a with entries := a.entries ++ [e] })

theorem foldl_entries (a : AppendEntriesArgs) (l : List LogEntry) :
    l.foldl (fun a e => { a with entries := a.entries ++ [e] }) a = { a with entries := a.entries ++ l } := by
  induction l generalizing a with
  | nil => simp
  | cons e l ih => simp [ih]

theorem agrees_fill : Agrees fill {} read :=
  .field (fun _ => rfl) fun _ => .field (fun _ => rfl) fun _ => .field (fun _ => rfl) fun _ =>
    .field (fun _ => rfl) fun _ => .field (fun _ => rfl) fun _ => .field (fun _ => rfl) fun _ =>
    .loop fun l => by rw [foldl_entries]; rfl

def filled (s : Bytes) : AppendEntriesArgs := (fill ({}, some s)).1

theorem filled_of_deserialize {s : Bytes} {a : AppendEntriesArgs} (h : deserialize s = some a) :
    filled s = a := congrArg Prod.fst ((agrees_fill.readAll_iff s).mp h)

end AppendEntriesArgs

namespace InstallSnapshotArgs

/-- The struct, and the local `done_flag`, which goes into it once the data are read. -/
def fill (st : Filling UInt8 (InstallSnapshotArgs × Int)) : Filling UInt8 (InstallSnapshotArgs × Int) :=
  st |> fillField getZigzag (fun v a => ({ a.1 with term := v }, a.2))
    |> fillField getInt (fun v a => ({ a.1 with leaderId := v }, a.2))
    |> fillField getZigzag (fun v a => ({ a.1 with lastIncludedIndex := v }, a.2))
    |> fillField getZigzag (fun v a => ({ a.1 with lastIncludedTerm := v }, a.2))
    |> fillField getZigzag (fun v a => ({ a.1 with offset := v }, a.2))
    |> fillField getInt (fun v a => ({ a.1 with chunkSize := v }, a.2))
    |> fillField getInt (fun v a => (a.1, v))
    |> fillField Decoder.int (fun v a => ({ a.1 with crc := v.toUInt32 }, a.2))
    |> fillField getInt (fun v a => ({ a.1 with epoch := v }, a.2))
    |> fillField Decoder.bytes (fun v a => ({ a.1 with data := v, done := decide (a.2 ≠ 0) }, a.2))
    |> fillLoop getCount getInt (fun m a => ({ a.1 with members := a.1.members ++ [m] }, a.2))

/-- `read`, with `done_flag` beside it. -/
def readFlagged : Framing.Reader UInt8 (InstallSnapshotArgs × Int) := do
  let term ← getZigzag
  let leaderId ← getInt
  let lastIncludedIndex ← getZigzag
  let lastIncludedTerm ← getZigzag
  let offset ← getZigzag
  let chunkSize ← getInt
  let doneFlag ← getInt
  let crc ← Decoder.int
  let epoch ← getInt
  let data ← Decoder.bytes
  let nm ← getCount
  let members ← readN getInt nm
  pure (⟨term, leaderId, lastIncludedIndex, lastIncludedTerm, offset, chunkSize,
    decide (doneFlag ≠ 0), crc.toUInt32, epoch, data, members⟩, doneFlag)

theorem read_eq : read = Prod.fst <$> readFlagged := by
  simp [read, readFlagged]

theorem foldl_members (a : InstallSnapshotArgs × Int) (l : List Int) :
    l.foldl (fun a m => ({ a.1 with members := a.1.members ++ [m] }, a.2)) a =
      ({ a.1 with members := a.1.members ++ l }, a.2) := by
  induction l generalizing a with
  | nil => simp
  | cons m l ih => simp [ih]

theorem agrees_fill : Agrees fill ({}, 0) readFlagged :=
  .field (fun _ => rfl) fun _ => .field (fun _ => rfl) fun _ => .field (fun _ => rfl) fun _ =>
    .field (fun _ => rfl) fun _ => .field (fun _ => rfl) fun _ => .field (fun _ => rfl) fun _ =>
    .field (fun _ => rfl) fun _ => .field (fun _ => rfl) fun _ => .field (fun _ => rfl) fun _ =>
    .field (fun _ => rfl) fun _ => .loop fun l => by rw [foldl_members]; rfl

def filled (s : Bytes) : InstallSnapshotArgs := (fill (({}, 0), some s)).1.1

theorem filled_of_deserialize {s : Bytes} {a : InstallSnapshotArgs} (h : deserialize s = some a) :
    filled s = a := by
  rw [deserialize, read_eq, readAll_map, Option.map_eq_some_iff] at h
  obtain ⟨b, hb, rfl⟩ := h
  exact congrArg (·.1.1) ((agrees_fill.readAll_iff s).mp hb)

end InstallSnapshotArgs

namespace ReadIndexArgs

def fill (st : Filling UInt8 ReadIndexArgs) : Filling UInt8 ReadIndexArgs :=
  st |> fillField getZigzag (fun v a => { a with term := v })

theorem agrees_fill : Agrees fill {} read := .field (fun _ => rfl) fun _ => agrees_done _

def filled (s : Bytes) : ReadIndexArgs := (fill ({}, some s)).1

theorem filled_of_deserialize {s : Bytes} {a : ReadIndexArgs} (h : deserialize s = some a) :
    filled s = a := congrArg Prod.fst ((agrees_fill.readAll_iff s).mp h)

end ReadIndexArgs

namespace Raft

/-- `InstallSnapshot` in its three phases, where no wait releases the lock. -/
def installSnapshotRPC (r : Raft) (args : InstallSnapshotArgs) (now : Int) :
    Raft × InstallSnapshotReply :=
  match r.installSnapshot args now with
  | (r, reply, none) => (r, reply)
  | (r, _, some blob) =>
    (r.saveSnapshotBlob args.lastIncludedIndex args.lastIncludedTerm blob).installCommit args blob

/-- `ReadIndex` of a leader, up to the first look at its round at the deadline. -/
def readIndex (r : Raft) (now : Int) : Raft × Int :=
  match r.readIndexOpen now with
  | (r, .wait ctx term readIndex _) =>
    let deadline := now + kElectionTimeoutMin
    let (r, result) := r.readIndexPoll ctx term readIndex deadline deadline
    (r, result.getD (-1))
  | (r, .ret result) => (r, result)
  | (r, .forward _ _) => (r, -1)

end Raft

/-- The methods of the service. -/
inductive RaftMethod where
  | requestVote
  | requestPreVote
  | appendEntries
  | installSnapshot
  | readIndex
  deriving DecidableEq, Repr

namespace RaftMethod

/-- `Deserialize` of the arguments of the method returns false. -/
def Rejects (s : Bytes) : RaftMethod → Prop
  | .requestVote => RequestVoteArgs.deserialize s = none
  | .requestPreVote => RequestPreVoteArgs.deserialize s = none
  | .appendEntries => AppendEntriesArgs.deserialize s = none
  | .installSnapshot => InstallSnapshotArgs.deserialize s = none
  | .readIndex => ReadIndexArgs.deserialize s = none

instance (s : Bytes) (m : RaftMethod) : Decidable (m.Rejects s) := by
  cases m
  all_goals
    unfold Rejects
    infer_instance

end RaftMethod

/-- The handlers of `MakeRaftService`. -/
def Raft.serve (r : Raft) (s : Bytes) (now : Int) : RaftMethod → Raft × Bytes
  | .requestVote =>
    let (r, reply) := r.requestVote (.filled s) now
    (r, reply.serialize)
  | .requestPreVote => (r, (r.requestPreVote (.filled s)).serialize)
  | .appendEntries =>
    let (r, reply) := r.appendEntries (.filled s) now
    (r, reply.serialize)
  | .installSnapshot =>
    let (r, reply) := r.installSnapshotRPC (.filled s) now
    (r, reply.serialize)
  | .readIndex =>
    let (reply, asks) := r.readIndexRPC (.filled s)
    if asks then
      let (r, ri) := r.readIndex now
      (r, (if 0 ≤ ri then { reply with readIndex := ri } else reply).serialize)
    else (r, reply.serialize)

end ChonKV
