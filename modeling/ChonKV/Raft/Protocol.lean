import Mathlib.Data.List.Basic
import Mathlib.Tactic.Common

/-!
The wire types of `raft_protocol.h`. 64-bit terms and log indexes are integers, with `-1` where the
source uses it as a sentinel; strings are byte lists.
-/

set_option autoImplicit false

namespace ChonKV

abbrev Bytes := List UInt8

abbrev Command := Bytes

inductive MemberRole where
  | kRemoved
  | kLearner
  | kVoter
  /-- The cast of an integer that names no role. -/
  | other (v : Int)
  deriving DecidableEq, Repr

def MemberRole.ofInt (v : Int) : MemberRole :=
  if v = 0 then .kRemoved else if v = 1 then .kLearner else if v = 2 then .kVoter else .other v

def MemberRole.toInt : MemberRole → Int
  | .kRemoved => 0
  | .kLearner => 1
  | .kVoter => 2
  | .other v => v

@[simp] theorem MemberRole.ofInt_kVoter : MemberRole.ofInt (MemberRole.toInt .kVoter) = .kVoter := rfl

def isVoter (r : MemberRole) : Bool := r == .kVoter

@[simp] theorem isVoter_kVoter : isVoter .kVoter = true := rfl

inductive EntryType where
  | kNormal
  | kConfChange
  | kNoOp
  /-- The cast of an integer that names no type. -/
  | other (v : Int) (h : v < 0 ∨ 2 < v)
  deriving DecidableEq, Repr

def EntryType.toInt : EntryType → Int
  | .kNormal => 0
  | .kConfChange => 1
  | .kNoOp => 2
  | .other v _ => v

def EntryType.ofInt (v : Int) : EntryType :=
  if h : v < 0 ∨ 2 < v then .other v h
  else if v = 0 then .kNormal else if v = 1 then .kConfChange else .kNoOp

@[simp] theorem EntryType.ofInt_toInt (t : EntryType) : EntryType.ofInt t.toInt = t := by
  cases t with
  | other v h => exact dif_pos h
  | _ => rfl

structure LogEntry where
  term : Int := 0
  index : Int := 0
  command : Command := []
  type : EntryType := .kNormal
  confServer : Int := -1
  confRole : Int := 0
  deriving DecidableEq, Repr

/-- `LogEntry{term, index, Command()}`, the entry that stands for everything up to `index`. -/
def sentinel (term index : Int) : LogEntry := { term := term, index := index }

@[simp] theorem sentinel_term (t i : Int) : (sentinel t i).term = t := rfl

@[simp] theorem sentinel_index (t i : Int) : (sentinel t i).index = i := rfl

structure ApplyMsg where
  commandValid : Bool := false
  command : Command := []
  commandIndex : Int := 0
  entryType : EntryType := .kNormal
  snapshotValid : Bool := false
  snapshot : Bytes := []
  snapshotTerm : Int := 0
  snapshotIndex : Int := 0
  deriving DecidableEq, Repr

structure RequestVoteArgs where
  term : Int := 0
  candidateId : Int := 0
  lastLogIndex : Int := 0
  lastLogTerm : Int := 0
  deriving DecidableEq, Repr

structure RequestVoteReply where
  term : Int := 0
  voteGranted : Bool := false
  deriving DecidableEq, Repr

structure RequestPreVoteArgs where
  term : Int := 0
  candidateId : Int := 0
  lastLogIndex : Int := 0
  lastLogTerm : Int := 0
  deriving DecidableEq, Repr

structure RequestPreVoteReply where
  term : Int := 0
  voteGranted : Bool := false
  deriving DecidableEq, Repr

structure AppendEntriesArgs where
  term : Int := 0
  leaderId : Int := 0
  prevLogIndex : Int := 0
  prevLogTerm : Int := 0
  entries : List LogEntry := []
  leaderCommit : Int := 0
  readCtx : Nat := 0
  deriving DecidableEq, Repr

structure AppendEntriesReply where
  term : Int := 0
  success : Bool := false
  nextIndex : Int := 0
  readCtx : Nat := 0
  deriving DecidableEq, Repr

structure ReadIndexArgs where
  term : Int := 0
  deriving DecidableEq, Repr

structure ReadIndexReply where
  term : Int := 0
  readIndex : Int := -1
  deriving DecidableEq, Repr

structure InstallSnapshotArgs where
  term : Int := 0
  leaderId : Int := 0
  lastIncludedIndex : Int := 0
  lastIncludedTerm : Int := 0
  offset : Int := 0
  chunkSize : Int := 0
  done : Bool := false
  crc : UInt32 := 0
  epoch : Int := 0
  data : Bytes := []
  members : List Int := []
  deriving DecidableEq, Repr

structure InstallSnapshotReply where
  term : Int := 0
  okInstall : Bool := false
  deriving DecidableEq, Repr

structure ReadIndexCtx where
  ctx : Nat := 0
  term : Int := 0
  readIndex : Int := 0
  acked : List Bool := []
  done : Bool := false
  waiters : Int := 0
  deriving DecidableEq, Repr

structure StartResult where
  isLeader : Bool := false
  index : Int := -1
  term : Int := 0
  backpressure : Bool := false
  diskFull : Bool := false
  deriving DecidableEq, Repr

/-- Whether a leader stops replicating to `s`: it proposed or applied the removal of `s`. -/
def isRemovedFrozen (isMember : List MemberRole) (removedAtIndex : List Int) (s : Nat) : Bool :=
  decide (0 ≤ removedAtIndex.getD s (-1)) || isMember.getD s .kVoter == .kRemoved

/-- Counts the votes granted by the nodes that are voters now. -/
def countGrantedVotes (isMember : List MemberRole) (votes : List Int) : Nat :=
  (isMember.zip votes).countP fun p => isVoter p.1 && p.2 == 1

end ChonKV
