import ChonKV.Kv.Server
import ChonKV.Raft.Replication

/-!
The handlers of `KVServer`, one turn of their loops at a time: `Get`, `GetStale`, and `PutAppend` with its `WaitOp`.
-/

set_option autoImplicit false

namespace ChonKV

def kDiskFullMaxRetries : Nat := 4

/-- The leader that a client is sent to. A node never sends a client to itself. -/
def Raft.leaderHint (r : Raft) : Int32 :=
  if r.leaderId = r.me ∨ r.leaderId < 0 then -1 else Int32.ofInt r.leaderId

/-- What a reader finds in the store. -/
def KVState.lookup (s : KVState) (key : Bytes) : GetReply :=
  match s.kvStore.get key with
  | some v => { err := .kOK, value := v }
  | none => { err := .kNoKey }

def PutAppendArgs.toOp (args : PutAppendArgs) : Op where
  key := args.key
  value := args.value
  method := args.op
  clientId := args.clientId
  seqId := args.seqId

namespace KVServer

/-- One turn of `Get` after `ReadIndex` gave `ri`: the head of its loop, or the end of a wait in which the time ran
out. -/
def getTurn (s : KVServer) (r : Raft) (key : Bytes) (ri : Int) (timedOut : Bool) : Option GetReply :=
  if ri < 0 then some { err := .kWrongLeader, leaderId := r.leaderHint }
  else if timedOut then some { err := .kWrongLeader }
  else if ri ≤ s.lastCmdIndex then some (s.state.lookup key)
  else if s.dead then some { err := .kWrongLeader }
  else none

def getStale (s : KVServer) (r : Raft) (key : Bytes) : GetReply :=
  { s.state.lookup key with leaderId := Int32.ofInt r.leaderId }

/-- The first check of `PutAppend`. -/
def sessionGone (s : KVServer) (args : PutAppendArgs) : Option PutAppendReply :=
  match s.state.fenced args.clientId with
  | some _ => some { err := .kSessionGone }
  | none => none

/-- One turn of the loop of `WaitOp`, after its wait: what the call returns, if it does. -/
def waitTurn (s : KVServer) (r : Raft) (index : Int) (timedOut : Bool) : Option PutAppendReply :=
  if s.dead then some { err := .kWrongLeader }
  else match s.msgReplies index with
    | some ⟨true, ok, _, _⟩ =>
      if ok then some { err := .kOK } else some { err := .kWrongLeader, leaderId := r.leaderHint }
    | _ => if timedOut then some { err := .kWrongLeader } else none

/-- What `WaitOp` does after the `Start` number `tries`, counted from 0. -/
inductive AfterStart where
  /-- The disk is full: a snapshot is forced, and the command proposed again. -/
  | again
  | ret (reply : PutAppendReply)
  | wait (index term : Int)

def afterStart (s : KVServer) (r : Raft) (tries : Nat) (result : StartResult) : AfterStart :=
  if result.diskFull then
    if tries = 0 then .again
    else if s.dead then .ret { err := .kWrongLeader }
    else if tries ≤ kDiskFullMaxRetries then .again
    else .ret { err := .kBusy }
  else if result.backpressure then .ret { err := .kBusy }
  else if ¬ result.isLeader then .ret { err := .kWrongLeader, leaderId := r.leaderHint }
  else .wait result.index result.term

variable {s : KVServer} {r : Raft}

/-- A value, or that there is none, is only returned from a state that has reached the read index. -/
theorem getTurn_found {key : Bytes} {ri : Int} {timedOut : Bool} {reply : GetReply}
    (h : s.getTurn r key ri timedOut = some reply) (hfound : reply.err = .kOK ∨ reply.err = .kNoKey) :
    0 ≤ ri ∧ ri ≤ s.lastCmdIndex ∧ reply = s.state.lookup key := by
  rw [getTurn] at h
  split_ifs at h with hneg htime hreached
  · cases h
    simp at hfound
  · cases h
    simp at hfound
  · cases h
    exact ⟨not_lt.mp hneg, hreached, rfl⟩
  · cases h
    simp at hfound

/-- `kOK` is only returned by an entry that says so. -/
theorem waitTurn_ok {index : Int} {timedOut : Bool} {reply : PutAppendReply}
    (h : s.waitTurn r index timedOut = some reply) (hok : reply.err = .kOK) :
    ∃ m, s.msgReplies index = some m ∧ m.done = true ∧ m.ok = true := by
  rw [waitTurn] at h
  by_cases hdead : s.dead = true
  · rw [if_pos hdead] at h
    cases h
    cases hok
  rw [if_neg hdead] at h
  split at h
  · next ok cid seq hm =>
    split_ifs at h with hk
    · exact ⟨_, hm, rfl, hk⟩
    · cases h
      cases hok
  · split_ifs at h
    cases h
    cases hok

/-- Whoever waits was given a place in the log. -/
theorem afterStart_wait {tries : Nat} {result : StartResult} {index term : Int}
    (h : s.afterStart r tries result = .wait index term) :
    result.isLeader = true ∧ result.index = index ∧ result.term = term := by
  rw [afterStart] at h
  split_ifs at h with h1 h2 h3 h4 h5 h6
  cases h
  exact ⟨by simpa using h6, rfl, rfl⟩

/-- What `Start` answers at the end of `WaitOp` is never taken for a success. -/
theorem afterStart_ret {tries : Nat} {result : StartResult} {reply : PutAppendReply}
    (h : s.afterStart r tries result = .ret reply) : reply.err ≠ .kOK := by
  rw [afterStart] at h
  split_ifs at h <;> cases h <;> simp

end KVServer
end ChonKV
