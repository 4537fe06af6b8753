import ChonKV.Raft.Snapshot

/-!
`ApplyLoop`. A batch is collected under the lock; a conf entry in it persists the new members, and
where that releases the lock the batch is resumed from the next index.
-/

set_option autoImplicit false

namespace ChonKV
namespace Raft

def natBytes (s : String) : Bytes := s.toUTF8.toList

/-- `"CONF:" + server + ":" + role`, the payload of a conf entry. -/
def confCommand (server : Int) (target : MemberRole) : Command :=
  natBytes ("CONF:" ++ toString server ++ ":" ++
    match target with
    | .kVoter => "V"
    | .kLearner => "L"
    | _ => "R")

/-- The message of the log entry at `idx`. -/
def commandMsg (idx : Int) (e : LogEntry) : ApplyMsg :=
  { commandValid := true
    command := if e.type = .kConfChange then
      confCommand e.confServer (MemberRole.ofInt e.confRole) else e.command
    commandIndex := idx
    entryType := match e.type with
      | .kConfChange => .kConfChange
      | .kNoOp => .kNoOp
      | _ => .kNormal }

/-- The conf branch up to the end of its `PersistLocked`. -/
def applyConf (r : Raft) (idx : Int) (e : LogEntry) : Raft :=
  let target := MemberRole.ofInt e.confRole
  let r := if 0 ≤ e.confServer ∧ e.confServer < r.isMember.length then
    { r with
      isMember := r.isMember.set e.confServer.toNat target
      removedAtIndex := r.removedAtIndex.set e.confServer.toNat
        (if target = .kRemoved then idx else -1) } else r
  persistLocked { r with
    pendingConfIndex := if e.index = r.pendingConfIndex then 0 else r.pendingConfIndex }

/-- The conf branch after its `PersistLocked`: a leader that is no voter any more is to step down. -/
def applyConfAfter (r : Raft) (now : Int) : Raft :=
  if ¬ r.voter r.me ∧ r.state = .kLeader then
    { r with pendingStepdown := true, stepdownAfter := now + kStepdownGraceMs } else r

/-- What one turn of the batch loop does with `idx`. -/
inductive ApplyTurn where
  | stop
  | skip (r : Raft)
  | dispatch (r : Raft) (msg : ApplyMsg)
  | conf (r : Raft) (msg : ApplyMsg)

def applyTurn (r : Raft) (idx : Int) : ApplyTurn :=
  if 0 < r.installGateDepth then .stop
  else if idx ≤ r.snapshotIndex then .skip { r with lastApplied := max r.lastApplied idx }
  else if ¬ r.inLogs idx then .stop
  else
    let e := r.logAt idx
    let r := { r with lastApplied := idx }
    if e.type = .kConfChange then .conf (r.applyConf idx e) (commandMsg idx e)
    else .dispatch r (commandMsg idx e)

/-- The batch loop from `idx` on, where no wait releases the lock. -/
def applyBatch (r : Raft) (now : Int) : Nat → Int → Raft × List ApplyMsg
  | 0, _ => (r, [])
  | k+1, idx =>
    match r.applyTurn idx with
    | .stop => (r, [])
    | .skip r => r.applyBatch now k (idx+1)
    | .dispatch r msg =>
      let (r, rest) := r.applyBatch now k (idx+1)
      (r, msg :: rest)
    | .conf r msg =>
      let (r, rest) := (r.applyConfAfter now).applyBatch now k (idx+1)
      (r, msg :: rest)

/-- The last index of the next batch. -/
def applyStop (r : Raft) : Int :=
  min (min r.commitIndex (r.snapshotIndex + r.logs.length - 1)) (r.lastApplied + kMaxApplyBatch)

/-- One turn of `ApplyLoop`: the messages it pushes. -/
def applyLoop (r : Raft) (now : Int) : Raft × List ApplyMsg :=
  if r.killed ∨ 0 < r.installGateDepth then (r, [])
  else match r.pendingSnapshot with
    | some msg => ({ r with pendingSnapshot := none }, [msg])
    | none =>
      if r.lastApplied < r.commitIndex then
        r.applyBatch now (r.applyStop - r.lastApplied).toNat (r.lastApplied + 1)
      else (r, [])

end Raft
end ChonKV
