import ChonKV.Assoc.Ordered
import ChonKV.Kv.Common
import ChonKV.Kv.SessionTable

/-!
`KVServer` of `kvraft/server.cpp`: the state machine with its duplicate detection, its snapshots, and
the table of the requests that wait for an index.
-/

set_option autoImplicit false

namespace ChonKV

open Assoc Framing

def kFenceCap : Nat := 4 * 1024 * 1024

/-- What a snapshot carries. `fenced` is what `fenced_` has for a client id. -/
@[ext] structure KVState where
  kvStore : OrderedMap Bytes Bytes := OrderedMap.empty
  sessions : SessionTable := {}
  fenced : Int32 → Option Int64 := fun _ => none
  fenceFifo : List Int32 := []

structure NotifyMsg where
  done : Bool := false
  ok : Bool := false
  clientId : Int32 := 0
  seqId : Int64 := 0
  deriving DecidableEq

/-- `msgReplies` is what `msg_replies_` has for an index. -/
structure KVServer where
  state : KVState := {}
  lastCmdIndex : Int := 0
  msgReplies : Int → Option NotifyMsg := fun _ => none
  dead : Bool := false

namespace KVState

def setFence (s : KVState) (cid : Int32) (v : Option Int64) : Int32 → Option Int64 := fun c =>
  if c = cid then v else s.fenced c

/-- The callback of `Reap`: a client that is fenced gets its new tombstone, any other is appended,
and past the cap the one that was appended first loses its own. -/
def fence (s : KVState) (cid : Int32) (lastSeq : Int64) : KVState :=
  let put := { s with fenced := s.setFence cid (some lastSeq) }
  match s.fenced cid with
  | some _ => put
  | none =>
    let fifo := s.fenceFifo ++ [cid]
    if kFenceCap < fifo.length then
      { put with fenced := put.setFence (fifo.headD cid) none, fenceFifo := fifo.tail }
    else { put with fenceFifo := fifo }

/-- The fence is a queue of the clients that have a tombstone. -/
structure Queued (s : KVState) : Prop where
  nodup : s.fenceFifo.Nodup
  mem : ∀ c, c ∈ s.fenceFifo ↔ s.fenced c ≠ none

theorem queued_nil {s : KVState} (hfifo : s.fenceFifo = []) (hfenced : s.fenced = fun _ => none) :
    s.Queued := by
  refine ⟨by rw [hfifo]; exact List.nodup_nil, fun c => ?_⟩
  rw [hfifo, hfenced]
  exact iff_of_false List.not_mem_nil (fun h => h rfl)

theorem setFence_ne_none {s : KVState} (h : s.Queued) (cid c : Int32) (seq : Int64) :
    s.setFence cid (some seq) c ≠ none ↔ c ∈ s.fenceFifo ∨ c = cid := by
  rw [setFence, h.mem]
  split_ifs with heq <;> simp [heq]

theorem queued_fence {s : KVState} (h : s.Queued) (cid : Int32) (seq : Int64) :
    (s.fence cid seq).Queued := by
  rw [fence]
  cases hn : s.fenced cid with
  | some v =>
    refine ⟨h.nodup, fun c => (?_ : c ∈ s.fenceFifo ↔ _)⟩
    rw [setFence_ne_none h, or_iff_left_of_imp]
    rintro rfl
    exact (h.mem c).mpr (by simp [hn])
  | none =>
    have hout : cid ∉ s.fenceFifo := fun hm => (h.mem cid).mp hm hn
    have hnodup : (s.fenceFifo ++ [cid]).Nodup :=
      List.nodup_append_comm.mp (List.nodup_cons.mpr ⟨hout, h.nodup⟩)
    have hmem : ∀ c, c ∈ s.fenceFifo ++ [cid] ↔ s.setFence cid (some seq) c ≠ none := by
      intro c
      rw [setFence_ne_none h, List.mem_append, List.mem_singleton]
    dsimp only
    generalize s.fenceFifo ++ [cid] = fifo at hnodup hmem
    split_ifs with hover
    · -- the head of the queue leaves, with its tombstone
      cases fifo with
      | nil => exact absurd hover (Nat.not_lt_zero _)
      | cons old rest =>
        obtain ⟨hold, hrest⟩ := List.nodup_cons.mp hnodup
        refine ⟨hrest, fun c => (?_ : c ∈ rest ↔ _)⟩
        show _ ↔ (if c = old then none else s.setFence cid (some seq) c) ≠ none
        split_ifs with heq
        · exact iff_of_false (heq ▸ hold) (fun h => h rfl)
        · rw [← hmem, List.mem_cons, or_iff_right heq]
    · exact ⟨hnodup, hmem⟩

/-- The last sequence number known of a client: that of its session, else its tombstone. -/
def existing (s : KVState) (cid : Int32) (nowIndex : UInt64) : Int64 :=
  let seen := (s.sessions.get cid nowIndex).1
  if seen = 0 then (s.fenced cid).getD seen else seen

/-- Whether the command of `op` gets executed. -/
def executes (s : KVState) (op : Op) (nowIndex : UInt64) : Bool :=
  decide (s.existing op.clientId nowIndex < op.seqId)

/-- The bytes of `"Put"`. -/
def putMethod : Bytes := [0x50, 0x75, 0x74]

/-- The bytes of `"Append"`. -/
def appendMethod : Bytes := [0x41, 0x70, 0x70, 0x65, 0x6e, 0x64]

def execute (kv : OrderedMap Bytes Bytes) (op : Op) : OrderedMap Bytes Bytes :=
  if op.method = putMethod then kv.insert op.key op.value
  else if op.method = appendMethod then kv.insert op.key ((kv.get op.key).getD [] ++ op.value)
  else kv

/-- The lookup, and the command if it is new. -/
def dedup (s : KVState) (op : Op) (nowIndex : UInt64) : KVState :=
  let sessions := (s.sessions.get op.clientId nowIndex).2
  if s.executes op nowIndex then
    { s with
      kvStore := execute s.kvStore op
      sessions := sessions.put op.clientId op.seqId nowIndex }
  else { s with sessions := sessions }

def reap (s : KVState) (nowIndex : UInt64) : KVState :=
  let (gone, sessions) := s.sessions.reap nowIndex
  gone.foldl (fun s r => s.fence r.1 r.2.lastSeq) { s with sessions := sessions }

def applyOp (s : KVState) (op : Op) (nowIndex : UInt64) : KVState :=
  (s.dedup op nowIndex).reap nowIndex

/-- The fence as `EncodeSnapshotLocked` collects it. -/
def fenceRecs (s : KVState) : List (Int32 × Int64) :=
  s.fenceFifo.filterMap fun cid => (s.fenced cid).map fun seq => (cid, seq)

def encodePair (p : Bytes × Bytes) : Bytes := [Encoder.bytes p.1, Encoder.bytes p.2].flatten

def encodeRow (r : SessionRow) : Bytes :=
  [Encoder.int r.1, Encoder.zigzag r.2.lastSeq, Encoder.varint r.2.lastIndex].flatten

def encodeFence (f : Int32 × Int64) : Bytes := [Encoder.int f.1, Encoder.zigzag f.2].flatten

/-- `EncodeSnapshotLocked`: sessions go from the oldest to the newest. -/
def encodeSnapshot (s : KVState) : Bytes :=
  [Encoder.int (Int32.ofNat s.kvStore.entries.length), s.kvStore.entries.flatMap encodePair,
    Encoder.int (Int32.ofNat s.sessions.rows.length), s.sessions.rows.reverse.flatMap encodeRow,
    Encoder.int (Int32.ofNat s.fenceRecs.length), s.fenceRecs.flatMap encodeFence].flatten

def readPair : Reader UInt8 (Bytes × Bytes) := do
  let k ← Decoder.bytes
  let v ← Decoder.bytes
  pure (k, v)

def readRow : Reader UInt8 SessionRow := do
  let cid ← Decoder.int
  let seq ← Decoder.zigzag
  let lastIndex ← Decoder.varint
  pure (cid, ⟨seq, lastIndex⟩)

def readFence : Reader UInt8 (Int32 × Int64) := do
  let cid ← Decoder.int
  let seq ← Decoder.zigzag
  pure (cid, seq)

/-- `if (!d.Int(n) || n < 0) return false`. -/
def readSize : Reader UInt8 Nat := do
  let n ← Decoder.int
  if n < 0 then failure else pure n.toNatClampNeg

def readSnapshot :
    Reader UInt8 (List (Bytes × Bytes) × List SessionRow × List (Int32 × Int64)) := do
  let n ← readSize
  let store ← readN readPair n
  let m ← readSize
  let seqs ← readN readRow m
  let f ← readSize
  let fenced ← readN readFence f
  pure (store, seqs, fenced)

/-- A tombstone of a snapshot; the first one of a client counts. -/
def loadFence (s : KVState) (f : Int32 × Int64) : KVState :=
  match s.fenced f.1 with
  | some _ => s
  | none => { s with fenced := s.setFence f.1 (some f.2), fenceFifo := s.fenceFifo ++ [f.1] }

/-- `ApplySnapshotLocked`: nothing changes when the blob is not read to its end. -/
def applySnapshot (s : KVState) (blob : Bytes) : Option KVState :=
  (readAll readSnapshot blob).map fun (store, seqs, fenced) =>
    fenced.foldl loadFence
      { kvStore := OrderedMap.empty.insertAll store
        sessions := seqs.foldl (fun t r => t.load r.1 r.2.lastSeq r.2.lastIndex) s.sessions.clear
        fenced := fun _ => none
        fenceFifo := [] }

end KVState

/-- The reading of the logical clock that a command index gives. -/
def nowIndex (commandIndex : Int) : UInt64 :=
  if 0 < commandIndex then UInt64.ofNat commandIndex.toNat else 0

namespace KVServer

def setReply (s : KVServer) (index : Int) (n : Option NotifyMsg) : Int → Option NotifyMsg := fun i =>
  if i = index then n else s.msgReplies i

/-- `ClearWaiterLocked`. -/
def clearWaiter (s : KVServer) (index : Int) : KVServer :=
  match s.msgReplies index with
  | some n =>
    if n.done then s
    else { s with msgReplies := s.setReply index (some { n with done := true, ok := false }) }
  | none => s

@[simp] theorem state_clearWaiter (s : KVServer) (index : Int) :
    (s.clearWaiter index).state = s.state := by
  rw [clearWaiter]
  split
  · split <;> rfl
  · rfl

@[simp] theorem lastCmdIndex_clearWaiter (s : KVServer) (index : Int) :
    (s.clearWaiter index).lastCmdIndex = s.lastCmdIndex := by
  rw [clearWaiter]
  split
  · split <;> rfl
  · rfl

def advance (s : KVServer) (commandIndex : Int) : KVServer :=
  if s.lastCmdIndex < commandIndex then { s with lastCmdIndex := commandIndex } else s

@[simp] theorem state_advance (s : KVServer) (i : Int) : (s.advance i).state = s.state := by
  rw [advance]
  split <;> rfl

/-- Tells whoever waits at `index` that it is applied, and whether the command was the one waited
for. -/
def notify (s : KVServer) (index : Int) (op : Op) : KVServer :=
  match s.msgReplies index with
  | some n =>
    let ok := decide (n.clientId = op.clientId ∧ n.seqId = op.seqId)
    { s with msgReplies := s.setReply index (some { n with done := true, ok := ok }) }
  | none => s

@[simp] theorem state_notify (s : KVServer) (index : Int) (op : Op) :
    (s.notify index op).state = s.state := by
  rw [notify]
  split <;> rfl

@[simp] theorem lastCmdIndex_notify (s : KVServer) (index : Int) (op : Op) :
    (s.notify index op).lastCmdIndex = s.lastCmdIndex := by
  rw [notify]
  split <;> rfl

/-- The command that a message carries, if it carries one. -/
def opOf (m : ApplyMsg) : Option Op :=
  match m.entryType with
  | .kNoOp => none
  | .kConfChange => none
  | _ => Op.deserialize m.command

/-- The branch of `ApplierLoop` for an entry. -/
def applyCommand (s : KVServer) (m : ApplyMsg) : KVServer :=
  match opOf m with
  | none => (s.advance m.commandIndex).clearWaiter m.commandIndex
  | some op =>
    let s := { s with state := s.state.applyOp op (nowIndex m.commandIndex) }
    (s.notify m.commandIndex op).advance m.commandIndex

theorem state_applyCommand (s : KVServer) (m : ApplyMsg) :
    (s.applyCommand m).state =
      ((opOf m).map fun op => s.state.applyOp op (nowIndex m.commandIndex)).getD s.state := by
  rw [applyCommand]
  cases opOf m <;> simp

theorem lastCmdIndex_applyCommand {s : KVServer} {m : ApplyMsg} (h : s.lastCmdIndex < m.commandIndex) :
    (s.applyCommand m).lastCmdIndex = m.commandIndex := by
  rw [applyCommand]
  split
  · rw [lastCmdIndex_clearWaiter, advance, if_pos h]
  · rw [advance, if_pos (by rw [lastCmdIndex_notify]; exact h)]

/-- What `PrepareSnapshotLocked` takes: the state after the command. Whether it takes anything
depends on the size of the state of Raft. -/
def prepareSnapshot (s : KVServer) (m : ApplyMsg) (raftStateSize : UInt64) (maxraftstate : Int32) :
    Option (Int × Bytes) :=
  match opOf m with
  | none => none
  | some op =>
    if maxraftstate = -1 ∨ raftStateSize < maxraftstate.toInt64.toUInt64 then none
    else some (m.commandIndex,
      (s.state.applyOp op (nowIndex m.commandIndex)).encodeSnapshot)

/-- The branch of `ApplierLoop` for a snapshot. A blob that cannot be read, or that is older than the
state, ends the process. -/
def applySnapshotMsg (s : KVServer) (m : ApplyMsg) : Option KVServer :=
  if m.snapshotIndex < s.lastCmdIndex then none
  else (s.state.applySnapshot m.snapshot).map fun state =>
    { s with
      state := state
      lastCmdIndex := m.snapshotIndex
      msgReplies := fun i => (s.msgReplies i).map fun n =>
        if i ≤ m.snapshotIndex ∧ ¬ n.done then { n with done := true, ok := false } else n }

/-- One round of `ApplierLoop`; `none` is `std::abort()`. -/
def applierLoop (s : KVServer) (m : ApplyMsg) : Option KVServer :=
  if m.commandValid then some (s.applyCommand m)
  else if m.snapshotValid then s.applySnapshotMsg m
  else some s

end KVServer
end ChonKV
