import ChonKV.Kv.Blob
import ChonKV.Kv.ExactlyOnce
import ChonKV.Raft.Apply

/-!
Replicas that process one committed log, entry by entry or from snapshots, have one state at each
index.
-/

set_option autoImplicit false

namespace ChonKV

open Assoc

namespace KVState

/-- What holds of every state that is reached by applying entries. -/
structure Bounded (cap : Nat) (maxIdleIndex : UInt64) (s : KVState) : Prop extends s.Queued where
  cap_eq : s.sessions.cap = cap
  idle_eq : s.sessions.maxIdleIndex = maxIdleIndex
  rows_le : s.sessions.rows.length ≤ cap
  fifo_le : s.fenceFifo.length ≤ kFenceCap

variable {cap : Nat} {maxIdleIndex : UInt64} {s : KVState}

theorem sessions_fence (s : KVState) (cid : Int32) (seq : Int64) :
    (s.fence cid seq).sessions = s.sessions := by
  rw [fence]
  split
  · rfl
  · dsimp only
    split <;> rfl

theorem length_fence (h : s.fenceFifo.length ≤ kFenceCap) (cid : Int32) (seq : Int64) :
    (s.fence cid seq).fenceFifo.length ≤ kFenceCap := by
  rw [fence]
  split
  · exact h
  · dsimp only
    split
    · rw [List.length_tail, List.length_append, List.length_singleton, Nat.add_sub_cancel]
      exact h
    · next hle => exact Nat.not_lt.mp hle

theorem foldl_fence_bounded : ∀ (gone : List SessionRow) {s : KVState}, s.Queued →
    s.fenceFifo.length ≤ kFenceCap →
    let s' := gone.foldl (fun s r => s.fence r.1 r.2.lastSeq) s
    s'.Queued ∧ s'.fenceFifo.length ≤ kFenceCap ∧ s'.sessions = s.sessions
  | [], _, hq, hlen => ⟨hq, hlen, rfl⟩
  | r :: gone, s, hq, hlen => by
    obtain ⟨hq', hlen', hs⟩ := foldl_fence_bounded gone (queued_fence hq r.1 r.2.lastSeq)
      (length_fence hlen r.1 r.2.lastSeq)
    exact ⟨hq', hlen', hs.trans (sessions_fence s r.1 r.2.lastSeq)⟩

theorem bounded_applyOp (h : Bounded cap maxIdleIndex s) (op : Op) (now : UInt64) :
    Bounded cap maxIdleIndex (s.applyOp op now) := by
  have hd : (s.dedup op now).Queued ∧ (s.dedup op now).fenceFifo.length ≤ kFenceCap ∧
      (s.dedup op now).sessions.cap = cap ∧
      (s.dedup op now).sessions.maxIdleIndex = maxIdleIndex := by
    rw [dedup]
    split
    · exact ⟨⟨h.nodup, h.mem⟩, h.fifo_le, (SessionTable.cap_get ..).trans h.cap_eq,
        (SessionTable.maxIdleIndex_get ..).trans h.idle_eq⟩
    · exact ⟨⟨h.nodup, h.mem⟩, h.fifo_le, (SessionTable.cap_get ..).trans h.cap_eq,
        (SessionTable.maxIdleIndex_get ..).trans h.idle_eq⟩
  obtain ⟨hq, hlen, hcap, hidle⟩ := hd
  obtain ⟨hq', hlen', hsessions⟩ := foldl_fence_bounded ((s.dedup op now).sessions.reap now).1
    (s := { s.dedup op now with sessions := ((s.dedup op now).sessions.reap now).2 })
    ⟨hq.nodup, hq.mem⟩ hlen
  rw [applyOp]
  refine ⟨hq', ?_, ?_, ?_, hlen'⟩
  · exact (congrArg SessionTable.cap hsessions).trans hcap
  · exact (congrArg SessionTable.maxIdleIndex hsessions).trans hidle
  · have hle := (s.dedup op now).sessions.length_reap now
    rw [hcap] at hle
    exact (congrArg (fun t : SessionTable => t.rows.length) hsessions).trans_le hle

end KVState

/-- The state after the first `k` entries of a log, applied one by one. -/
def stateAt (cap : Nat) (maxIdleIndex : UInt64) (log : List LogEntry) : Nat → KVServer
  | 0 => KVServer.fresh cap maxIdleIndex
  | k+1 =>
    match log[k]? with
    | none => stateAt cap maxIdleIndex log k
    | some e => (stateAt cap maxIdleIndex log k).applyCommand (Raft.commandMsg (k+1) e)

/-- The replicas; `none` is a process that ended itself. `blobs` is what was passed to
`Raft::Snapshot`. -/
structure Replicas where
  servers : Nat → Option KVServer
  blobs : List (Int × Bytes)

inductive ReplicaEvent where
  /-- `ApplierLoop` takes the next entry. -/
  | apply (r : Nat) (raftStateSize : UInt64) (maxraftstate : Int32)
  /-- `ForceSnapshotOnDiskFull`. -/
  | force (r : Nat)
  /-- `ApplierLoop` takes a snapshot, the `k`-th one taken. -/
  | install (r k : Nat)
  /-- The process starts again, from nothing or from a snapshot. -/
  | restart (r : Nat) (k : Option Nat)
  /-- A request registers, or leaves. -/
  | waiter (r : Nat) (index : Int) (n : Option NotifyMsg)

/-- The constructor of `KVServer`, with what the persister has. -/
def KVServer.boot (s : KVServer) (snapIdx : Int) (snap : Bytes) : Option KVServer :=
  if 0 < snapIdx then
    if snap = [] then some { s with lastCmdIndex := snapIdx }
    else (s.state.applySnapshot snap).map fun state =>
      { s with state := state, lastCmdIndex := snapIdx }
  else some s

namespace Replicas

def setServer (s : Replicas) (r : Nat) (kv : Option KVServer) : Nat → Option KVServer := fun j =>
  if j = r then kv else s.servers j

/-- Raft delivers the entry after the last one, and no snapshot that is older than the state. -/
def step (cap : Nat) (maxIdleIndex : UInt64) (log : List LogEntry) (s : Replicas) :
    ReplicaEvent → Replicas
  | .apply r raftStateSize maxraftstate =>
    match s.servers r with
    | none => s
    | some kv =>
      match log[kv.lastCmdIndex.toNat]? with
      | none => s
      | some e =>
        let m := Raft.commandMsg (kv.lastCmdIndex + 1) e
        { servers := s.setServer r (kv.applierLoop m)
          blobs := s.blobs ++ (kv.prepareSnapshot m raftStateSize maxraftstate).toList }
  | .force r =>
    match s.servers r with
    | none => s
    | some kv => { s with blobs := s.blobs ++ [(kv.lastCmdIndex, kv.state.encodeSnapshot)] }
  | .install r k =>
    match s.servers r, s.blobs[k]? with
    | some kv, some (snapIdx, blob) =>
      if snapIdx < kv.lastCmdIndex then s
      else { s with servers := s.setServer r (kv.applierLoop
        { snapshotValid := true, snapshot := blob, snapshotIndex := snapIdx }) }
    | _, _ => s
  | .restart r k =>
    let kv := KVServer.fresh cap maxIdleIndex
    match k.bind fun k => s.blobs[k]? with
    | none => { s with servers := s.setServer r (some kv) }
    | some (snapIdx, blob) => { s with servers := s.setServer r (kv.boot snapIdx blob) }
  | .waiter r index n =>
    { s with servers := s.setServer r ((s.servers r).map fun kv =>
        { kv with msgReplies := kv.setReply index n }) }

def init (cap : Nat) (maxIdleIndex : UInt64) : Replicas :=
  { servers := fun _ => some (KVServer.fresh cap maxIdleIndex), blobs := [] }

def run (cap : Nat) (maxIdleIndex : UInt64) (log : List LogEntry) (evs : List ReplicaEvent) :
    Replicas := evs.foldl (step cap maxIdleIndex log) (init cap maxIdleIndex)

end Replicas

variable {cap : Nat} {maxIdleIndex : UInt64} {log : List LogEntry}

/-- A server that stands at an index of the log, with the state of that index. -/
structure InStep (cap : Nat) (maxIdleIndex : UInt64) (log : List LogEntry) (kv : KVServer) :
    Prop where
  nonneg : 0 ≤ kv.lastCmdIndex
  le : kv.lastCmdIndex.toNat ≤ log.length
  state : kv.state = (stateAt cap maxIdleIndex log kv.lastCmdIndex.toNat).state

/-- A blob of the state at an index of the log. -/
def BlobOK (cap : Nat) (maxIdleIndex : UInt64) (log : List LogEntry) (b : Int × Bytes) : Prop :=
  0 ≤ b.1 ∧ b.1.toNat ≤ log.length ∧
    b.2 = (stateAt cap maxIdleIndex log b.1.toNat).state.encodeSnapshot

theorem bounded_applyCommand {s : KVServer} (h : s.state.Bounded cap maxIdleIndex) (m : ApplyMsg) :
    (s.applyCommand m).state.Bounded cap maxIdleIndex := by
  rw [KVServer.state_applyCommand]
  cases KVServer.opOf m with
  | none => exact h
  | some op => exact KVState.bounded_applyOp h op _

theorem bounded_stateAt (cap : Nat) (maxIdleIndex : UInt64) (log : List LogEntry) : ∀ (k : Nat),
    (stateAt cap maxIdleIndex log k).state.Bounded cap maxIdleIndex
  | 0 => ⟨KVState.queued_nil rfl rfl, rfl, rfl, Nat.zero_le _, Nat.zero_le _⟩
  | k+1 => by
    have ih := bounded_stateAt cap maxIdleIndex log k
    rw [stateAt]
    split
    · exact ih
    · exact bounded_applyCommand ih _

/-- Two servers with one state make the same of a message. -/
theorem state_applyCommand_congr {s t : KVServer} (h : s.state = t.state) (m : ApplyMsg) :
    (s.applyCommand m).state = (t.applyCommand m).state := by
  rw [KVServer.state_applyCommand, KVServer.state_applyCommand, h]

/-- What two servers with one state do with the messages that follow is the same. -/
theorem sameState_runs : ∀ (ms : List ApplyMsg) {s t : KVServer}, s.state = t.state →
    s.executed ms = t.executed ms ∧ s.evictions ms = t.evictions ms ∧
      (s.applyAll ms).state = (t.applyAll ms).state
  | [], _, _, h => ⟨rfl, rfl, h⟩
  | m :: ms, s, t, h => by
    obtain ⟨hex, hev, hst⟩ := sameState_runs ms (state_applyCommand_congr h m)
    refine ⟨?_, ?_, hst⟩
    · rw [KVServer.executed, KVServer.executed, hex, KVServer.executedBy, KVServer.executedBy, h]
    · rw [KVServer.evictions, KVServer.evictions, hev, KVServer.evictedBy, KVServer.evictedBy, h]

theorem InStep.apply {kv : KVServer} (h : InStep cap maxIdleIndex log kv) {e : LogEntry}
    (he : log[kv.lastCmdIndex.toNat]? = some e) :
    InStep cap maxIdleIndex log (kv.applyCommand (Raft.commandMsg (kv.lastCmdIndex + 1) e)) := by
  have hnn := h.nonneg
  have hlast : (kv.applyCommand (Raft.commandMsg (kv.lastCmdIndex + 1) e)).lastCmdIndex =
      kv.lastCmdIndex + 1 := KVServer.lastCmdIndex_applyCommand (Int.lt_succ _)
  have hnat : (kv.lastCmdIndex + 1).toNat = kv.lastCmdIndex.toNat + 1 := by omega
  have hcast : (kv.lastCmdIndex.toNat : Int) + 1 = kv.lastCmdIndex + 1 := by omega
  refine ⟨by rw [hlast]; omega, ?_, ?_⟩
  · rw [hlast, hnat]
    exact (List.getElem?_eq_some_iff.mp he).1
  · rw [hlast, hnat, stateAt, he]
    rw [state_applyCommand_congr h.state, hcast]

theorem InStep.prepare {kv : KVServer} (h : InStep cap maxIdleIndex log kv) {e : LogEntry}
    (he : log[kv.lastCmdIndex.toNat]? = some e) {size : UInt64} {maxr : Int32} {b : Int × Bytes}
    (hb : kv.prepareSnapshot (Raft.commandMsg (kv.lastCmdIndex + 1) e) size maxr = some b) :
    BlobOK cap maxIdleIndex log b := by
  have hnext := h.apply he
  have hlast : (kv.applyCommand (Raft.commandMsg (kv.lastCmdIndex + 1) e)).lastCmdIndex =
      kv.lastCmdIndex + 1 := KVServer.lastCmdIndex_applyCommand (Int.lt_succ _)
  rw [KVServer.prepareSnapshot] at hb
  split at hb
  · cases hb
  · next op hop =>
    split_ifs at hb
    cases hb
    have hstate := hnext.state
    rw [KVServer.state_applyCommand, hop] at hstate
    have hle := hnext.le
    have hnn := hnext.nonneg
    rw [hlast] at hstate hle hnn
    exact ⟨hnn, hle, congrArg KVState.encodeSnapshot hstate⟩

theorem InStep.blob {kv : KVServer} (h : InStep cap maxIdleIndex log kv) :
    BlobOK cap maxIdleIndex log (kv.lastCmdIndex, kv.state.encodeSnapshot) :=
  ⟨h.nonneg, h.le, congrArg KVState.encodeSnapshot h.state⟩

theorem inStep_fresh : InStep cap maxIdleIndex log (KVServer.fresh cap maxIdleIndex) :=
  ⟨Int.le_refl 0, Nat.zero_le _, rfl⟩

/-- A blob is never empty: its first count has a byte. -/
theorem encodeSnapshot_ne_nil {s : KVState} (h : s.Queued) (hf : s.Fits) :
    s.encodeSnapshot ≠ [] := by
  intro hnil
  have hread := KVState.readAll_encodeSnapshot h hf
  rw [hnil] at hread
  cases hread

section Fitting

variable (hfits : ∀ k ≤ log.length, (stateAt cap maxIdleIndex log k).state.Fits)
include hfits

/-- A blob brings a server to the state at the index of the blob. -/
theorem BlobOK.load {b : Int × Bytes} (h : BlobOK cap maxIdleIndex log b) {s : KVState}
    (hcap : s.sessions.cap = cap) (hidle : s.sessions.maxIdleIndex = maxIdleIndex) :
    s.applySnapshot b.2 = some (stateAt cap maxIdleIndex log b.1.toNat).state := by
  have hb := bounded_stateAt cap maxIdleIndex log b.1.toNat
  rw [h.2.2]
  exact KVState.applySnapshot_encodeSnapshot hb.toQueued (hfits _ h.2.1)
    (hcap.trans hb.cap_eq.symm) (hidle.trans hb.idle_eq.symm)

theorem InStep.install {kv : KVServer} (h : InStep cap maxIdleIndex log kv) {b : Int × Bytes}
    (hb : BlobOK cap maxIdleIndex log b) (hle : ¬ b.1 < kv.lastCmdIndex) :
    ∃ kv', kv.applierLoop { snapshotValid := true, snapshot := b.2, snapshotIndex := b.1 } =
      some kv' ∧ InStep cap maxIdleIndex log kv' := by
  have hbound := bounded_stateAt cap maxIdleIndex log
    kv.lastCmdIndex.toNat
  rw [← h.state] at hbound
  have hload := hb.load hfits hbound.cap_eq hbound.idle_eq
  have happly : kv.applierLoop { snapshotValid := true, snapshot := b.2, snapshotIndex := b.1 } =
      kv.applySnapshotMsg { snapshotValid := true, snapshot := b.2, snapshotIndex := b.1 } := rfl
  rw [happly, KVServer.applySnapshotMsg, if_neg hle, hload]
  exact ⟨_, rfl, hb.1, hb.2.1, rfl⟩

theorem BlobOK.boot {b : Int × Bytes} (hb : BlobOK cap maxIdleIndex log b) :
    ∃ kv', (KVServer.fresh cap maxIdleIndex).boot b.1 b.2 = some kv' ∧
      InStep cap maxIdleIndex log kv' := by
  have hne : b.2 ≠ [] := by
    rw [hb.2.2]
    exact encodeSnapshot_ne_nil (bounded_stateAt cap maxIdleIndex log _).toQueued (hfits _ hb.2.1)
  rw [KVServer.boot]
  split_ifs
  · rw [hb.load hfits rfl rfl]
    exact ⟨_, rfl, hb.1, hb.2.1, rfl⟩
  · exact ⟨_, rfl, inStep_fresh⟩

end Fitting

/-- Every replica is alive and stands at an index of the log, and so does every blob. -/
structure Converged (cap : Nat) (maxIdleIndex : UInt64) (log : List LogEntry) (s : Replicas) :
    Prop where
  servers : ∀ r, ∃ kv, s.servers r = some kv ∧ InStep cap maxIdleIndex log kv
  blobs : ∀ b ∈ s.blobs, BlobOK cap maxIdleIndex log b

theorem Converged.put {s : Replicas} (h : Converged cap maxIdleIndex log s) (r : Nat)
    {kv : Option KVServer} {l : List (Int × Bytes)}
    (hkv : ∃ kv', kv = some kv' ∧ InStep cap maxIdleIndex log kv')
    (hl : ∀ b ∈ l, BlobOK cap maxIdleIndex log b) :
    Converged cap maxIdleIndex log { servers := s.setServer r kv, blobs := s.blobs ++ l } := by
  refine ⟨fun j => ?_, fun b hb => ?_⟩
  · by_cases hj : j = r
    · exact hkv.imp fun kv' h => ⟨(if_pos hj).trans h.1, h.2⟩
    · exact (h.servers j).imp fun kv' h => ⟨(if_neg hj).trans h.1, h.2⟩
  · exact (List.mem_append.mp hb).elim (h.blobs b) (hl b)

theorem Converged.putServer {s : Replicas} (h : Converged cap maxIdleIndex log s) (r : Nat)
    {kv : Option KVServer} (hkv : ∃ kv', kv = some kv' ∧ InStep cap maxIdleIndex log kv') :
    Converged cap maxIdleIndex log { s with servers := s.setServer r kv } := by
  have hput := h.put r hkv (l := []) fun _ hb => (List.not_mem_nil hb).elim
  rwa [List.append_nil] at hput

theorem Converged.step {s : Replicas} (h : Converged cap maxIdleIndex log s)
    (hfits : ∀ k ≤ log.length, (stateAt cap maxIdleIndex log k).state.Fits) (ev : ReplicaEvent) :
    Converged cap maxIdleIndex log (s.step cap maxIdleIndex log ev) := by
  cases ev with
  | apply r size maxr =>
    obtain ⟨kv, hkv, hin⟩ := h.servers r
    rw [Replicas.step, hkv]
    dsimp only
    split
    · exact h
    · next e he =>
      exact h.put r ⟨_, rfl, hin.apply he⟩ fun b hb => hin.prepare he (Option.mem_toList.mp hb)
  | force r =>
    obtain ⟨kv, hkv, hin⟩ := h.servers r
    rw [Replicas.step, hkv]
    exact ⟨h.servers, fun b hb => (List.mem_append.mp hb).elim (h.blobs b) fun hb =>
      List.mem_singleton.mp hb ▸ hin.blob⟩
  | install r k =>
    obtain ⟨kv, hkv, hin⟩ := h.servers r
    rw [Replicas.step, hkv]
    cases hb : s.blobs[k]? with
    | none => exact h
    | some b =>
      dsimp only
      split_ifs with hlt
      · exact h
      · exact h.putServer r (hin.install hfits (h.blobs b (List.mem_of_getElem? hb)) hlt)
  | restart r k =>
    rw [Replicas.step]
    cases hb : k.bind fun k => s.blobs[k]? with
    | none => exact h.putServer r ⟨_, rfl, inStep_fresh⟩
    | some b =>
      obtain ⟨k, -, hk⟩ := Option.bind_eq_some_iff.mp hb
      exact h.putServer r ((h.blobs b (List.mem_of_getElem? hk)).boot hfits)
  | waiter r index n =>
    obtain ⟨kv, hkv, hin⟩ := h.servers r
    rw [Replicas.step, hkv]
    exact h.putServer r ⟨_, rfl, ⟨hin.nonneg, hin.le, hin.state⟩⟩

theorem Converged.foldl (hfits : ∀ k ≤ log.length, (stateAt cap maxIdleIndex log k).state.Fits) :
    ∀ (evs : List ReplicaEvent) {s : Replicas}, Converged cap maxIdleIndex log s →
    Converged cap maxIdleIndex log (evs.foldl (Replicas.step cap maxIdleIndex log) s)
  | [], _, h => h
  | ev :: evs, _, h => foldl hfits evs (h.step hfits ev)

/-- The keys of the store fit the count of a snapshot, and its strings are strings. -/
def StoreFits (s : KVState) : Prop := s.kvStore.entries.length < 2^31 ∧
  ∀ p ∈ s.kvStore.entries, p.1.length < 2^64 ∧ p.2.length < 2^64

instance (s : KVState) : Decidable (StoreFits s) := inferInstanceAs (Decidable (_ ∧ _))

/-- Whatever replicas replay or restore, no one fails, they have one state at each index, and they
make the same of every message that follows. -/
theorem replicas_converge (cap : Nat) (maxIdleIndex : UInt64) (log : List LogEntry)
    (hcap : cap < 2^31) (hstore : ∀ k ≤ log.length, StoreFits (stateAt cap maxIdleIndex log k).state)
    (evs : List ReplicaEvent) :
    (∀ r, ∃ kv, (Replicas.run cap maxIdleIndex log evs).servers r = some kv ∧
      kv.state = (stateAt cap maxIdleIndex log kv.lastCmdIndex.toNat).state) ∧
    ∀ r r' kv kv', (Replicas.run cap maxIdleIndex log evs).servers r = some kv →
      (Replicas.run cap maxIdleIndex log evs).servers r' = some kv' →
      kv.lastCmdIndex = kv'.lastCmdIndex → kv.state = kv'.state ∧
        ∀ ms, kv.executed ms = kv'.executed ms ∧ kv.evictions ms = kv'.evictions ms ∧
          (kv.applyAll ms).state = (kv'.applyAll ms).state := by
  have hfits : ∀ k ≤ log.length, (stateAt cap maxIdleIndex log k).state.Fits := fun k hk => by
    have hb := bounded_stateAt cap maxIdleIndex log k
    exact ⟨(hstore k hk).1, (hstore k hk).2, Nat.lt_of_le_of_lt hb.rows_le hcap,
      Nat.lt_of_le_of_lt hb.fifo_le (by decide)⟩
  have hrun : Converged cap maxIdleIndex log (Replicas.run cap maxIdleIndex log evs) :=
    Converged.foldl hfits evs
      ⟨fun _ => ⟨_, rfl, inStep_fresh⟩, fun _ hb => (List.not_mem_nil hb).elim⟩
  refine ⟨fun r => (hrun.servers r).imp fun kv h => ⟨h.1, h.2.state⟩,
    fun r r' kv kv' hkv hkv' hindex => ?_⟩
  have hstate : ∀ j k, (Replicas.run cap maxIdleIndex log evs).servers j = some k →
      k.state = (stateAt cap maxIdleIndex log k.lastCmdIndex.toNat).state := by
    intro j k hk
    obtain ⟨k', hk', hin⟩ := hrun.servers j
    rw [Option.some_inj.mp (hk.symm.trans hk')]
    exact hin.state
  have heq : kv.state = kv'.state := by
    rw [hstate r kv hkv, hstate r' kv' hkv', hindex]
  exact ⟨heq, fun ms => sameState_runs ms heq⟩

/-- A client appends twice, another one once, and there is room for one session. -/
def twoClients : List LogEntry :=
  [(1, 1), (2, 1), (1, 2)].map fun (c, q) =>
    { command := Op.serialize
        { key := [7], value := [8, 9], method := KVState.appendMethod, clientId := c, seqId := q } }

/-- Replica 1 installs a snapshot of replica 0, and both go on. -/
def bothWays : List ReplicaEvent :=
  [.apply 0 0 (-1), .apply 0 0 (-1), .force 0, .install 1 0, .apply 1 0 (-1), .apply 0 0 (-1)]

theorem replicas_converge_twoClients :
    ((Replicas.run 1 5 twoClients bothWays).servers 0).map KVServer.state =
      ((Replicas.run 1 5 twoClients bothWays).servers 1).map KVServer.state ∧
    ((Replicas.run 1 5 twoClients bothWays).servers 1).map KVServer.lastCmdIndex = some 3 := by
  obtain ⟨halive, hagree⟩ := replicas_converge 1 5 twoClients (by decide) (by decide +kernel) bothWays
  obtain ⟨kv, hkv, -⟩ := halive 0
  obtain ⟨kv', hkv', -⟩ := halive 1
  have h0 : ((Replicas.run 1 5 twoClients bothWays).servers 0).map KVServer.lastCmdIndex = some 3 := by
    decide +kernel
  have h1 : ((Replicas.run 1 5 twoClients bothWays).servers 1).map KVServer.lastCmdIndex = some 3 := by
    decide +kernel
  refine ⟨?_, h1⟩
  rw [hkv, Option.map_some] at h0 ⊢
  rw [hkv', Option.map_some] at h1 ⊢
  exact congrArg some (hagree 0 1 kv kv' hkv hkv' (Option.some_inj.mp (h0.trans h1.symm))).1

/-- The `i`-th key of four bytes. -/
def freshKey (i : Nat) : Bytes :=
  [UInt8.ofNat i, UInt8.ofNat (i / 2^8), UInt8.ofNat (i / 2^16), UInt8.ofNat (i / 2^24)]

theorem freshKey_inj {i j : Nat} (hi : i < 2^32) (hj : j < 2^32) (h : freshKey i = freshKey j) : i = j := by
  simp only [freshKey, List.cons.injEq, ← UInt8.toNat_inj, UInt8.toNat_ofNat'] at h
  omega

/-- The command that puts the `i`-th key. -/
def putNew (i : Nat) : Op :=
  { key := freshKey i
    method := KVState.putMethod
    clientId := 1
    seqId := Int64.ofNat (i+1) }

/-- A log that puts `n` keys. -/
def freshKeys (n : Nat) : List LogEntry :=
  (List.range n).map fun i => { command := (putNew i).serialize }

/-- The state after `k` keys. -/
structure Puts (k : Nat) (s : KVState) : Prop where
  rows : s.sessions.rows = if k = 0 then [] else [(1, ⟨Int64.ofNat k, nowIndex k⟩)]
  cap : 1 ≤ s.sessions.cap
  fenced : s.fenced = fun _ => none
  length : s.kvStore.entries.length = k
  put : ∀ key ∈ keys s.kvStore.entries, ∃ i < k, key = freshKey i

theorem SessionTable.evicted_single {t : SessionTable} {cid : Int32} {q : Int64} {now : UInt64}
    (hrows : t.rows = [(cid, ⟨q, now⟩)]) (hcap : 1 ≤ t.cap) : t.evicted now = [] := by
  have hidle : SessionEntry.idle ⟨q, now⟩ now ≤ t.maxIdleIndex := by
    rw [SessionEntry.idle, if_pos (UInt64.le_refl now), UInt64.sub_self]
    exact UInt64.zero_le
  rw [evicted, hrows, List.reverse_singleton]
  simp only [reapIdle, if_pos hidle, List.length_nil, List.drop_zero, List.nil_append]
  rw [reapOver, List.length_nil, if_pos hcap]

theorem Puts.apply {k : Nat} {s : KVState} (h : Puts k s) (hk : k + 1 < 2^32) :
    Puts (k+1) (s.applyOp (putNew k) (nowIndex (k+1 : Nat))) := by
  have hseq : s.sessions.seqOf 1 = if k = 0 then none else some (Int64.ofNat k) := by
    rw [SessionTable.seqOf, h.rows]
    split_ifs <;> rfl
  have hseen : s.existing 1 (nowIndex (k+1 : Nat)) = Int64.ofNat k := by
    have hget : (s.sessions.seqOf 1).getD 0 = Int64.ofNat k := by
      rw [hseq]
      split_ifs with h0
      · rw [h0]
        rfl
      · rfl
    rw [KVState.existing, SessionTable.get_fst, hget, h.fenced]
    exact ite_self _
  have hex : s.executes (putNew k) (nowIndex (k+1 : Nat)) := by
    refine decide_eq_true ?_
    show s.existing 1 _ < Int64.ofNat (k+1)
    rw [hseen, Int64.lt_iff_toInt_lt, Int64.toInt_ofNat_of_lt (by omega),
      Int64.toInt_ofNat_of_lt (by omega)]
    omega
  have hrows : (s.dedup (putNew k) (nowIndex (k+1 : Nat))).sessions.rows =
      [(1, ⟨Int64.ofNat (k+1), nowIndex (k+1 : Nat)⟩)] := by
    rw [KVState.dedup, if_pos hex]
    show Assoc.bump 1 _ (s.sessions.get 1 _).2.rows = _
    by_cases h0 : k = 0
    · simp [SessionTable.get, h.rows, h0, find, Assoc.bump, remove, putNew]
    · simp [SessionTable.get, SessionTable.bump, h.rows, h0, find, Assoc.bump, remove, putNew]
  have hcap : 1 ≤ (s.dedup (putNew k) (nowIndex (k+1 : Nat))).sessions.cap := by
    rw [KVState.dedup, if_pos hex]
    exact h.cap.trans_eq (SessionTable.cap_get ..).symm
  have hkv : (s.dedup (putNew k) (nowIndex (k+1 : Nat))).kvStore =
      s.kvStore.insert (freshKey k) [] := by
    rw [KVState.dedup, if_pos hex]
    rfl
  have hreap : s.applyOp (putNew k) (nowIndex (k+1 : Nat)) =
      s.dedup (putNew k) (nowIndex (k+1 : Nat)) := by
    rw [KVState.applyOp, KVState.reap,
      SessionTable.reap_of_evicted_nil (SessionTable.evicted_single hrows hcap)]
    rfl
  have hout : freshKey k ∉ keys s.kvStore.entries := fun hm => by
    obtain ⟨i, hi, heq⟩ := h.put _ hm
    exact hi.ne' (freshKey_inj (by omega) (by omega) heq)
  rw [hreap]
  refine ⟨?_, hcap, ?_, ?_, fun key hkey => ?_⟩
  · rw [if_neg (Nat.succ_ne_zero k)]
    exact hrows
  · rw [KVState.dedup, if_pos hex]
    exact h.fenced
  · rw [hkv]
    exact (OrderedMap.length_insertInto hout).trans (congrArg (· + 1) h.length)
  · rw [hkv] at hkey
    rcases OrderedMap.mem_keys_insertInto hkey with rfl | hkey
    · exact ⟨k, Nat.lt_succ_self k, rfl⟩
    · obtain ⟨i, hi, heq⟩ := h.put key hkey
      exact ⟨i, Nat.lt_succ_of_lt hi, heq⟩

theorem getElem?_freshKeys {n k : Nat} (hk : k < n) :
    (freshKeys n)[k]? = some { command := (putNew k).serialize } := by
  rw [freshKeys, List.getElem?_map, List.getElem?_range hk]
  rfl

theorem opOf_putNew (k : Nat) (i : Int) :
    KVServer.opOf (Raft.commandMsg i { command := (putNew k).serialize }) = some (putNew k) :=
  (Op.frames ⟨show 4 < 2^64 by decide, Nat.zero_lt_succ _,
    show 3 < 2^64 by decide⟩ : Framing.Frames _ Op.read (putNew k)).readAll_eq

theorem puts_stateAt (cap : Nat) (maxIdleIndex : UInt64) {n : Nat} (hn : n < 2^32)
    (hcap : 1 ≤ cap) : ∀ k ≤ n,
    Puts k (stateAt cap maxIdleIndex (freshKeys n) k).state
  | 0, _ => ⟨rfl, hcap, rfl, rfl, fun _ h => (List.not_mem_nil h).elim⟩
  | k+1, hk => by
    have ih := puts_stateAt cap maxIdleIndex hn hcap k (Nat.le_of_succ_le hk)
    rw [stateAt, getElem?_freshKeys hk]
    dsimp only
    rw [KVServer.state_applyCommand, opOf_putNew]
    exact ih.apply (by omega)

theorem lastCmdIndex_stateAt (cap : Nat) (maxIdleIndex : UInt64) : ∀ k ≤ log.length,
    (stateAt cap maxIdleIndex log k).lastCmdIndex = k
  | 0, _ => rfl
  | k+1, hk => by
    have ih := lastCmdIndex_stateAt cap maxIdleIndex k (Nat.le_of_succ_le hk)
    rw [stateAt, List.getElem?_eq_getElem hk]
    refine KVServer.lastCmdIndex_applyCommand ?_
    rw [ih]
    exact Int.lt_succ _

/-- Replica 0 alone applies `k` entries, and takes no snapshot. -/
theorem run_replicate (cap : Nat) (maxIdleIndex : UInt64) : ∀ k ≤ log.length,
    Replicas.run cap maxIdleIndex log (List.replicate k (.apply 0 0 (-1))) =
      { servers := fun r => if r = 0 then some (stateAt cap maxIdleIndex log k)
          else some (KVServer.fresh cap maxIdleIndex)
        blobs := [] }
  | 0, _ => by
    refine congrArg (Replicas.mk · []) (funext fun r => ?_)
    exact (ite_self _).symm
  | k+1, hk => by
    have ih := run_replicate cap maxIdleIndex k (Nat.le_of_succ_le hk)
    have hlast := lastCmdIndex_stateAt cap maxIdleIndex k (Nat.le_of_succ_le hk)
    have hget := List.getElem?_eq_getElem hk
    have hsnoc : Replicas.run cap maxIdleIndex log (List.replicate (k+1) (.apply 0 0 (-1))) =
        (Replicas.run cap maxIdleIndex log (List.replicate k (.apply 0 0 (-1)))).step cap maxIdleIndex
          log (.apply 0 0 (-1)) := by
      rw [Replicas.run, List.replicate_succ', List.foldl_append]
      rfl
    have hprep : ∀ m, (stateAt cap maxIdleIndex log k).prepareSnapshot m 0 (-1) = none := by
      intro m
      rw [KVServer.prepareSnapshot]
      split
      · rfl
      · exact if_pos (.inl rfl)
    rw [hsnoc, ih, Replicas.step]
    simp only [if_pos, hlast, Int.toNat_natCast, hget, hprep, Option.toList_none, List.append_nil]
    refine congrArg (Replicas.mk · []) (funext fun r => ?_)
    rw [Replicas.setServer]
    by_cases hr : r = 0
    · rw [if_pos hr, if_pos hr, stateAt, hget]
      rfl
    · rw [if_neg hr, if_neg hr]
      exact if_neg hr

/-- A snapshot with `2^31` keys is refused: its first count is a negative `int`. -/
theorem applySnapshot_overflow {s t : KVState} (h : s.kvStore.entries.length = 2^31) :
    t.applySnapshot s.encodeSnapshot = none := by
  have hsize : ∀ rest, KVState.readSnapshot (Encoder.int (Int32.ofNat (2^31)) ++ rest) = none :=
    fun rest => Framing.bind_eq_none ((frames_int (Int32.ofNat (2^31))).bind_reads _ rest) _
  rw [KVState.applySnapshot, Framing.readAll, KVState.encodeSnapshot, h]
  rw [List.flatten_cons, hsize]
  rfl

/-- Replica 0 applies `n` entries and takes a snapshot, and replica 1 installs it. -/
def installAfter (n : Nat) : List ReplicaEvent :=
  List.replicate n (.apply 0 0 (-1)) ++ [.force 0, .install 1 0]

/-- Replica 0 goes through a log that puts `2^31` keys, and its snapshot ends the process of
replica 1. -/
theorem replicas_diverge :
    (∃ kv, (Replicas.run (1024 * 1024) 100000 (freshKeys (2^31)) (installAfter (2^31))).servers 0 =
      some kv ∧ kv.lastCmdIndex = (2^31 : Nat) ∧ kv.state.kvStore.entries.length = 2^31) ∧
    (Replicas.run (1024 * 1024) 100000 (freshKeys (2^31)) (installAfter (2^31))).servers 1 = none := by
  obtain ⟨n, hn⟩ : ∃ n : Nat, n = 2^31 := ⟨_, rfl⟩
  rw [← hn]
  have hlen : (freshKeys n).length = n := by rw [freshKeys, List.length_map, List.length_range]
  have hlast := lastCmdIndex_stateAt (1024 * 1024) 100000 n (Nat.le_of_eq hlen.symm)
  have hputs := puts_stateAt (1024 * 1024) 100000 (by rw [hn]; decide) (by decide) n (Nat.le_refl n)
  have hrun := run_replicate (1024 * 1024) 100000 n (Nat.le_of_eq hlen.symm)
  rw [Replicas.run, installAfter, List.foldl_append]
  rw [Replicas.run] at hrun
  rw [hrun]
  generalize stateAt (1024 * 1024) 100000 (freshKeys n) n = kv at hlast hputs
  have hnot : ¬ (n : Int) < (KVServer.fresh (1024 * 1024) 100000).lastCmdIndex :=
    Int.not_lt.mpr (Int.natCast_nonneg n)
  have hinstall : (KVServer.fresh (1024 * 1024) 100000).applierLoop
      { snapshotValid := true, snapshot := kv.state.encodeSnapshot, snapshotIndex := n } = none := by
    have happly : (KVServer.fresh (1024 * 1024) 100000).applySnapshotMsg
        { snapshotValid := true, snapshot := kv.state.encodeSnapshot, snapshotIndex := n } = none := by
      rw [KVServer.applySnapshotMsg]
      dsimp only
      rw [applySnapshot_overflow (hputs.length.trans hn)]
      exact ite_self _
    exact happly
  have hend : [ReplicaEvent.force 0, ReplicaEvent.install 1 0].foldl
      (Replicas.step (1024 * 1024) 100000 (freshKeys n))
      { servers := fun r => if r = 0 then some kv else some (KVServer.fresh (1024 * 1024) 100000)
        blobs := [] } =
      { servers := fun j => if j = 1 then none
          else if j = 0 then some kv else some (KVServer.fresh (1024 * 1024) 100000)
        blobs := [(n, kv.state.encodeSnapshot)] } := by
    simp only [List.foldl_cons, List.foldl_nil, Replicas.step, if_pos, Nat.one_ne_zero, if_false,
      List.nil_append, List.getElem?_cons_zero, hlast, if_neg hnot, hinstall]
    rfl
  rw [hend]
  exact ⟨⟨kv, rfl, hlast, hputs.length⟩, rfl⟩

end ChonKV
