import ChonKV.Kv.Common
import ChonKV.Raft.Messages

/-!
Every message that goes over the wire: those of the protocol, those of the store, and the command in
the log.
-/

set_option autoImplicit false

namespace ChonKV

open Framing

inductive MessageKind where
  | requestVoteArgs
  | requestVoteReply
  | requestPreVoteArgs
  | requestPreVoteReply
  | appendEntriesArgs
  | appendEntriesReply
  | installSnapshotArgs
  | installSnapshotReply
  | readIndexArgs
  | readIndexReply
  | op
  | getArgs
  | getReply
  | putAppendArgs
  | putAppendReply
  deriving DecidableEq, Repr

inductive Message where
  | requestVoteArgs (m : RequestVoteArgs)
  | requestVoteReply (m : RequestVoteReply)
  | requestPreVoteArgs (m : RequestPreVoteArgs)
  | requestPreVoteReply (m : RequestPreVoteReply)
  | appendEntriesArgs (m : AppendEntriesArgs)
  | appendEntriesReply (m : AppendEntriesReply)
  | installSnapshotArgs (m : InstallSnapshotArgs)
  | installSnapshotReply (m : InstallSnapshotReply)
  | readIndexArgs (m : ReadIndexArgs)
  | readIndexReply (m : ReadIndexReply)
  | op (m : Op)
  | getArgs (m : GetArgs)
  | getReply (m : GetReply)
  | putAppendArgs (m : PutAppendArgs)
  | putAppendReply (m : PutAppendReply)
  deriving DecidableEq

namespace Message

def kind : Message → MessageKind
  | requestVoteArgs _ => .requestVoteArgs
  | requestVoteReply _ => .requestVoteReply
  | requestPreVoteArgs _ => .requestPreVoteArgs
  | requestPreVoteReply _ => .requestPreVoteReply
  | appendEntriesArgs _ => .appendEntriesArgs
  | appendEntriesReply _ => .appendEntriesReply
  | installSnapshotArgs _ => .installSnapshotArgs
  | installSnapshotReply _ => .installSnapshotReply
  | readIndexArgs _ => .readIndexArgs
  | readIndexReply _ => .readIndexReply
  | op _ => .op
  | getArgs _ => .getArgs
  | getReply _ => .getReply
  | putAppendArgs _ => .putAppendArgs
  | putAppendReply _ => .putAppendReply

def serialize : Message → Bytes
  | requestVoteArgs m => m.serialize
  | requestVoteReply m => m.serialize
  | requestPreVoteArgs m => m.serialize
  | requestPreVoteReply m => m.serialize
  | appendEntriesArgs m => m.serialize
  | appendEntriesReply m => m.serialize
  | installSnapshotArgs m => m.serialize
  | installSnapshotReply m => m.serialize
  | readIndexArgs m => m.serialize
  | readIndexReply m => m.serialize
  | op m => m.serialize
  | getArgs m => m.serialize
  | getReply m => m.serialize
  | putAppendArgs m => m.serialize
  | putAppendReply m => m.serialize

/-- The receiver knows which message it expects. -/
def deserialize (s : Bytes) : MessageKind → Option Message
  | .requestVoteArgs => (RequestVoteArgs.deserialize s).map requestVoteArgs
  | .requestVoteReply => (RequestVoteReply.deserialize s).map requestVoteReply
  | .requestPreVoteArgs => (RequestPreVoteArgs.deserialize s).map requestPreVoteArgs
  | .requestPreVoteReply => (RequestPreVoteReply.deserialize s).map requestPreVoteReply
  | .appendEntriesArgs => (AppendEntriesArgs.deserialize s).map appendEntriesArgs
  | .appendEntriesReply => (AppendEntriesReply.deserialize s).map appendEntriesReply
  | .installSnapshotArgs => (InstallSnapshotArgs.deserialize s).map installSnapshotArgs
  | .installSnapshotReply => (InstallSnapshotReply.deserialize s).map installSnapshotReply
  | .readIndexArgs => (ReadIndexArgs.deserialize s).map readIndexArgs
  | .readIndexReply => (ReadIndexReply.deserialize s).map readIndexReply
  | .op => (Op.deserialize s).map op
  | .getArgs => (GetArgs.deserialize s).map getArgs
  | .getReply => (GetReply.deserialize s).map getReply
  | .putAppendArgs => (PutAppendArgs.deserialize s).map putAppendArgs
  | .putAppendReply => (PutAppendReply.deserialize s).map putAppendReply

/-- The fields are within their widths, and every list that is counted has fewer than `2^31`
members. -/
def Fits : Message → Prop
  | requestVoteArgs m => m.Fits
  | requestVoteReply m => m.Fits
  | requestPreVoteArgs m => m.Fits
  | requestPreVoteReply m => m.Fits
  | appendEntriesArgs m => m.Fits
  | appendEntriesReply m => m.Fits
  | installSnapshotArgs m => m.Fits
  | installSnapshotReply m => m.Fits
  | readIndexArgs m => m.Fits
  | readIndexReply m => m.Fits
  | op m => m.Fits
  | getArgs m => m.Fits
  | getReply m => m.Fits
  | putAppendArgs m => m.Fits
  | putAppendReply _ => True

end Message

/-- What a reader that frames a message makes of the message, of a part of it and of more. -/
theorem verdicts_of_frames {α : Type} {w : Bytes} {d : Reader UInt8 α} {a : α} (h : Frames w d a)
    (f : α → Message) : (readAll d w).map f = some (f a) ∧
      (∀ p, p <+: w → p ≠ w → (readAll d p).map f = none) ∧
      ∀ x, x ≠ [] → (readAll d (w ++ x)).map f = none :=
  ⟨by rw [h.readAll_eq, Option.map_some],
    fun p hp hne => by rw [h.readAll_cut hp hne, Option.map_none],
    fun x hx => by rw [h.readAll_longer hx, Option.map_none]⟩

/-- A message is read back from its bytes, and neither from fewer nor from more. -/
theorem message_codec (m : Message) (h : m.Fits) :
    Message.deserialize m.serialize m.kind = some m ∧
      (∀ p, p <+: m.serialize → p ≠ m.serialize → Message.deserialize p m.kind = none) ∧
      ∀ x, x ≠ [] → Message.deserialize (m.serialize ++ x) m.kind = none := by
  cases m with
  | requestVoteArgs m => exact verdicts_of_frames (RequestVoteArgs.frames h) .requestVoteArgs
  | requestVoteReply m => exact verdicts_of_frames (RequestVoteReply.frames h) .requestVoteReply
  | requestPreVoteArgs m => exact verdicts_of_frames (RequestPreVoteArgs.frames h) .requestPreVoteArgs
  | requestPreVoteReply m => exact verdicts_of_frames (RequestPreVoteReply.frames h) .requestPreVoteReply
  | appendEntriesArgs m => exact verdicts_of_frames (AppendEntriesArgs.frames h) .appendEntriesArgs
  | appendEntriesReply m => exact verdicts_of_frames (AppendEntriesReply.frames h) .appendEntriesReply
  | installSnapshotArgs m => exact verdicts_of_frames (InstallSnapshotArgs.frames h) .installSnapshotArgs
  | installSnapshotReply m => exact verdicts_of_frames (InstallSnapshotReply.frames h) .installSnapshotReply
  | readIndexArgs m => exact verdicts_of_frames (ReadIndexArgs.frames h) .readIndexArgs
  | readIndexReply m => exact verdicts_of_frames (ReadIndexReply.frames h) .readIndexReply
  | op m => exact verdicts_of_frames (Op.frames h) .op
  | getArgs m => exact verdicts_of_frames (GetArgs.frames h) .getArgs
  | getReply m => exact verdicts_of_frames (GetReply.frames h) .getReply
  | putAppendArgs m => exact verdicts_of_frames (PutAppendArgs.frames h) .putAppendArgs
  | putAppendReply m => exact verdicts_of_frames (PutAppendReply.frames m) .putAppendReply

/-- An entry that removes server 2, behind a negative index. -/
def removalMessage : AppendEntriesArgs :=
  { term := 7
    leaderId := 1
    prevLogIndex := -1
    entries := [{ term := 7, index := 0, type := .kConfChange, confServer := 2 }]
    leaderCommit := -1
    readCtx := 2^64 - 1 }

theorem message_codec_removal : (Message.appendEntriesArgs removalMessage).Fits ∧
    Message.deserialize removalMessage.serialize .appendEntriesArgs =
      some (.appendEntriesArgs removalMessage) := by
  have hfits : (Message.appendEntriesArgs removalMessage).Fits := by
    refine ⟨⟨by decide, by decide⟩, ⟨by decide, by decide⟩, ⟨by decide, by decide⟩,
      ⟨by decide, by decide⟩, fun e he => ?_, by decide, ⟨by decide, by decide⟩, by decide⟩
    rw [List.mem_singleton.mp he]
    exact ⟨⟨by decide, by decide⟩, ⟨by decide, by decide⟩, by decide, ⟨by decide, by decide⟩,
      ⟨by decide, by decide⟩, ⟨by decide, by decide⟩⟩
  exact ⟨hfits, (message_codec _ hfits).1⟩

end ChonKV
