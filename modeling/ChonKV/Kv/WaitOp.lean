import ChonKV.Kv.Server
import ChonKV.Raft.Apply

/-!
Concurrent `WaitOp` calls on one server. A call proposes its command, registers at the index that
`Raft::Start` gave it, and waits for `ApplierLoop`; in between, the log of the server may be truncated,
and the server may lose and regain the leadership.
-/

set_option autoImplicit false

namespace ChonKV

/-- Where a call stands. After `Start` it does not hold a lock until it registers. -/
inductive WaitPhase where
  | started (index : Int)
  | waiting (index : Int)
  | returned (err : Err)
  deriving DecidableEq

structure WaitCall where
  op : Op
  phase : WaitPhase
  deriving DecidableEq

/-- A server with its calls. `log` is the log of its Raft from `base` on, `commitIndex` how far it is
committed, `dispatched` what `ApplyLoop` handed out, `applyCh` the channel to `ApplierLoop`, and
`applied` the commands that `ApplierLoop` went through. -/
structure WaitState where
  kv : KVServer := {}
  calls : Nat → Option WaitCall := fun _ => none
  leader : Bool := false
  term : Int := 0
  base : Nat := 0
  log : List LogEntry := []
  commitIndex : Nat := 0
  dispatched : Nat := 0
  applyCh : List ApplyMsg := []
  applied : List Op := []

inductive WaitEvent where
  /-- `WaitOp` up to its last `Start`. -/
  | start (t : Nat) (op : Op)
  /-- `WaitOp`, where `Start` reports too many entries or a full disk. -/
  | busy (t : Nat) (op : Op)
  | register (t : Nat)
  /-- A call wakes up and looks at its entry. -/
  | wake (t : Nat) (timedOut : Bool)
  /-- An election is won. -/
  | lead
  | stepDown
  /-- An `AppendEntries` of another leader: the log from `keep` on is replaced. -/
  | merge (keep : Nat) (entries : List LogEntry)
  | commit (index : Nat)
  /-- `ApplyLoop` hands out the next entry, if it is committed. -/
  | dispatch
  /-- An installed snapshot is handed out. -/
  | snapshot (index : Nat) (blob : Bytes) (keepSuffix : Bool)
  /-- One round of `ApplierLoop`. -/
  | consume
  /-- `Kill` sets `dead_`. -/
  | kill
  /-- `Kill` releases the calls. -/
  | release

namespace WaitState

def lastLogIndex (s : WaitState) : Nat := s.base + s.log.length

def setCall (s : WaitState) (t : Nat) (c : WaitCall) : Nat → Option WaitCall := fun j =>
  if j = t then some c else s.calls j

def setKv (s : WaitState) (f : Int → Option NotifyMsg) : KVServer := { s.kv with msgReplies := f }

/-- One look of the loop of `WaitOp`, at index `i`: what it returns, if it does. -/
def look (s : WaitState) (i : Int) (timedOut : Bool) : Option Err :=
  if s.kv.dead then some .kWrongLeader
  else match s.kv.msgReplies i with
    | some n =>
      if n.done then some (if n.ok then .kOK else .kWrongLeader)
      else if timedOut then some .kWrongLeader else none
    | none => if timedOut then some .kWrongLeader else none

def step (s : WaitState) : WaitEvent → WaitState
  | .start t op =>
    match s.calls t with
    | some _ => s
    | none =>
      if s.leader then
        { s with
          calls := s.setCall t ⟨op, .started (s.lastLogIndex + 1)⟩
          log := s.log ++
            [{ term := s.term, index := s.lastLogIndex + 1, command := op.serialize }] }
      else { s with calls := s.setCall t ⟨op, .returned .kWrongLeader⟩ }
  | .busy t op =>
    match s.calls t with
    | some _ => s
    | none => { s with calls := s.setCall t ⟨op, .returned .kBusy⟩ }
  | .register t =>
    match s.calls t with
    | some ⟨op, .started i⟩ =>
      { s with
        kv := s.setKv (s.kv.setReply i (some ⟨false, false, op.clientId, op.seqId⟩))
        calls := s.setCall t ⟨op, .waiting i⟩ }
    | _ => s
  | .wake t timedOut =>
    match s.calls t with
    | some ⟨op, .waiting i⟩ =>
      match s.look i timedOut with
      | some err =>
        { s with
          kv := s.setKv (s.kv.setReply i none)
          calls := s.setCall t ⟨op, .returned err⟩ }
      | none => s
    | _ => s
  | .lead =>
    { s with
      leader := true
      term := s.term + 1
      -- a no-op only behind entries that are not committed
      log := if s.commitIndex < s.lastLogIndex then
          s.log ++ [{ term := s.term + 1, index := s.lastLogIndex + 1, type := .kNoOp }]
        else s.log }
  | .stepDown => { s with leader := false }
  | .merge keep entries =>
    -- what was handed out is committed, and stays
    if s.leader ∨ keep < s.dispatched ∨ keep < s.base then s
    else { s with log := s.log.take (keep - s.base) ++ entries, term := s.term + 1 }
  | .commit index =>
    if s.commitIndex < index ∧ index ≤ s.lastLogIndex then { s with commitIndex := index } else s
  | .dispatch =>
    if s.commitIndex ≤ s.dispatched then s
    else match s.log[s.dispatched - s.base]? with
      | none => s
      | some e =>
        { s with
          dispatched := s.dispatched + 1
          applyCh := s.applyCh ++ [Raft.commandMsg (s.dispatched + 1) e] }
  | .snapshot index blob keepSuffix =>
    if index ≤ s.dispatched then s
    else { s with
      base := index
      log := if keepSuffix then s.log.drop (index - s.base) else []
      commitIndex := max s.commitIndex index
      dispatched := index
      applyCh := s.applyCh ++
        [{ snapshotValid := true, snapshot := blob, snapshotIndex := index }] }
  | .consume =>
    match s.applyCh with
    | [] => s
    | m :: rest =>
      match s.kv.applierLoop m with
      | none => s -- the process ended
      | some kv =>
        { s with
          kv := kv
          applyCh := rest
          applied := s.applied ++ if m.commandValid then (KVServer.opOf m).toList else [] }
  | .kill => { s with kv := { s.kv with dead := true } }
  | .release =>
    { s with kv := s.setKv fun i =>
      (s.kv.msgReplies i).map fun n => { n with done := true, ok := false } }

def run (s : WaitState) (evs : List WaitEvent) : WaitState := evs.foldl step s

/-- Every call that returned `kOK` had its command applied. -/
def Acknowledged (s : WaitState) : Prop := ∀ t op, s.calls t = some ⟨op, .returned .kOK⟩ →
  ∃ o ∈ s.applied, o.clientId = op.clientId ∧ o.seqId = op.seqId

/-- A call registers at an index only when no other call still waits there. -/
def Exclusive (s : WaitState) (ev : WaitEvent) : Prop :=
  ∀ t op i, ev = .register t → s.calls t = some ⟨op, .started i⟩ →
    ∀ t' op', t' ≠ t → s.calls t' ≠ some ⟨op', .waiting i⟩

def Exclusively (s : WaitState) : List WaitEvent → Prop
  | [] => True
  | ev :: evs => s.Exclusive ev ∧ (s.step ev).Exclusively evs

/-- The entry at an index is that of whoever waits there, and says `ok` only of a command that was
applied. -/
structure Honest (s : WaitState) : Prop where
  owner : ∀ t op i n, s.calls t = some ⟨op, .waiting i⟩ → s.kv.msgReplies i = some n →
    n.clientId = op.clientId ∧ n.seqId = op.seqId
  truth : ∀ i n, s.kv.msgReplies i = some n → n.done → n.ok →
    ∃ o ∈ s.applied, o.clientId = n.clientId ∧ o.seqId = n.seqId
  acked : s.Acknowledged

/-- What one round of `ApplierLoop` makes of an entry: the same call, and `ok` where it was or where
the command was applied. -/
structure Follows (applied : List Op) (n n' : NotifyMsg) : Prop where
  clientId : n'.clientId = n.clientId
  seqId : n'.seqId = n.seqId
  ok : n'.done → n'.ok → (n.done ∧ n.ok) ∨
    ∃ o ∈ applied, o.clientId = n.clientId ∧ o.seqId = n.seqId

theorem Follows.refl (applied : List Op) (n : NotifyMsg) : Follows applied n n :=
  ⟨rfl, rfl, fun hd hok => .inl ⟨hd, hok⟩⟩

theorem Follows.cleared (applied : List Op) (n : NotifyMsg) :
    Follows applied n { n with done := true, ok := false } :=
  ⟨rfl, rfl, fun _ hok => (Bool.false_ne_true hok).elim⟩

theorem replies_clearWaiter {kv : KVServer} {index i : Int} {n' : NotifyMsg} (applied : List Op)
    (h : (kv.clearWaiter index).msgReplies i = some n') :
    ∃ n, kv.msgReplies i = some n ∧ Follows applied n n' := by
  rw [KVServer.clearWaiter] at h
  split at h
  · next n hn =>
    split_ifs at h
    · exact ⟨n', h, .refl applied n'⟩
    · simp only [KVServer.setReply] at h
      split_ifs at h with hi
      · cases h
        exact ⟨n, hi ▸ hn, .cleared applied n⟩
      · exact ⟨n', h, .refl applied n'⟩
  · exact ⟨n', h, .refl applied n'⟩

theorem replies_advance (kv : KVServer) (i : Int) : (kv.advance i).msgReplies = kv.msgReplies := by
  rw [KVServer.advance]
  split <;> rfl

theorem replies_notify {kv : KVServer} {op : Op} {index i : Int} {n' : NotifyMsg}
    (h : (kv.notify index op).msgReplies i = some n') :
    ∃ n, kv.msgReplies i = some n ∧ Follows [op] n n' := by
  rw [KVServer.notify] at h
  split at h
  · next n hn =>
    simp only [KVServer.setReply] at h
    split_ifs at h with hi
    · cases h
      refine ⟨n, hi ▸ hn, rfl, rfl, fun _ hok => .inr ⟨op, List.mem_singleton_self op, ?_⟩⟩
      obtain ⟨hc, hq⟩ := of_decide_eq_true hok
      exact ⟨hc.symm, hq.symm⟩
    · exact ⟨n', h, .refl _ n'⟩
  · exact ⟨n', h, .refl _ n'⟩

theorem replies_applierLoop {kv kv' : KVServer} {m : ApplyMsg} (h : kv.applierLoop m = some kv')
    {i : Int} {n' : NotifyMsg} (hn : kv'.msgReplies i = some n') :
    ∃ n, kv.msgReplies i = some n ∧
      Follows (if m.commandValid then (KVServer.opOf m).toList else []) n n' := by
  rw [KVServer.applierLoop] at h
  split_ifs at h with hc hs
  · cases h
    rw [if_pos hc]
    rw [KVServer.applyCommand] at hn
    cases hop : KVServer.opOf m with
    | none =>
      rw [hop] at hn
      obtain ⟨n, hn, hf⟩ := replies_clearWaiter [] hn
      rw [replies_advance] at hn
      exact ⟨n, hn, hf⟩
    | some op =>
      rw [hop] at hn
      dsimp only at hn
      rw [replies_advance] at hn
      obtain ⟨n, hn, hf⟩ := replies_notify hn
      exact ⟨n, hn, hf⟩
  · rw [KVServer.applySnapshotMsg] at h
    split_ifs at h
    obtain ⟨state, -, rfl⟩ := Option.map_eq_some_iff.mp h
    obtain ⟨n, hold, rfl⟩ := Option.map_eq_some_iff.mp hn
    refine ⟨n, hold, ?_⟩
    split_ifs
    · exact .cleared _ n
    · exact .refl _ n
  · cases h
    exact ⟨n', hn, .refl _ n'⟩

/-- What becomes of the entries keeps the calls honest, when the calls stay as they are. -/
theorem Honest.follow {s s' : WaitState} (h : s.Honest) (hcalls : s'.calls = s.calls)
    (happlied : ∀ o ∈ s.applied, o ∈ s'.applied)
    (hreplies : ∀ i n', s'.kv.msgReplies i = some n' →
      ∃ n, s.kv.msgReplies i = some n ∧ Follows s'.applied n n') : s'.Honest := by
  refine ⟨fun t op i n' hc hn' => ?_, fun i n' hn' hd hok => ?_, fun t op hc => ?_⟩
  · obtain ⟨n, hn, hf⟩ := hreplies i n' hn'
    obtain ⟨hcid, hseq⟩ := h.owner t op i n (hcalls ▸ hc) hn
    exact ⟨hf.clientId.trans hcid, hf.seqId.trans hseq⟩
  · obtain ⟨n, hn, hf⟩ := hreplies i n' hn'
    rw [hf.clientId, hf.seqId]
    rcases hf.ok hd hok with ⟨hd, hok⟩ | ho
    · obtain ⟨o, ho, hids⟩ := h.truth i n hn hd hok
      exact ⟨o, happlied o ho, hids⟩
    · exact ho
  · obtain ⟨o, ho, hids⟩ := h.acked t op (hcalls ▸ hc)
    exact ⟨o, happlied o ho, hids⟩

/-- A call that is new, or that returns with another error, keeps the calls honest. -/
theorem Honest.call {s s' : WaitState} (h : s.Honest) {t : Nat} {c : WaitCall}
    (hcalls : s'.calls = s.setCall t c) (hkv : s'.kv = s.kv) (happlied : s'.applied = s.applied)
    (hwait : ∀ i, c.phase ≠ .waiting i) (hok : c.phase ≠ .returned .kOK) : s'.Honest := by
  refine ⟨fun t' op i n hc hn => ?_, fun i n hn => ?_, fun t' op hc => ?_⟩
  · rw [hcalls, setCall] at hc
    split_ifs at hc
    · cases hc
      exact absurd rfl (hwait i)
    · exact h.owner t' op i n hc (hkv ▸ hn)
  · rw [happlied]
    exact h.truth i n (hkv ▸ hn)
  · rw [hcalls, setCall] at hc
    rw [happlied]
    split_ifs at hc
    · cases hc
      exact absurd rfl hok
    · exact h.acked t' op hc

theorem Honest.register {s : WaitState} (h : s.Honest) {t : Nat} {op : Op} {i : Int}
    (hfree : ∀ t' op', t' ≠ t → s.calls t' ≠ some ⟨op', .waiting i⟩) :
    Honest { s with
      kv := s.setKv (s.kv.setReply i (some ⟨false, false, op.clientId, op.seqId⟩))
      calls := s.setCall t ⟨op, .waiting i⟩ } := by
  refine ⟨fun t' op' j n hc hn => ?_, fun j n hn hd hok => ?_, fun t' op' hc => ?_⟩
  · simp only [setCall] at hc
    simp only [setKv, KVServer.setReply] at hn
    split_ifs at hc with ht
    · cases hc
      rw [if_pos rfl] at hn
      cases hn
      exact ⟨rfl, rfl⟩
    · split_ifs at hn with hj
      · subst hj
        exact absurd hc (hfree t' op' ht)
      · exact h.owner t' op' j n hc hn
  · simp only [setKv, KVServer.setReply] at hn
    split_ifs at hn
    · cases hn
      exact absurd hd Bool.false_ne_true
    · exact h.truth j n hn hd hok
  · simp only [setCall] at hc
    split_ifs at hc
    · cases hc
    · exact h.acked t' op' hc

theorem look_kOK {s : WaitState} {i : Int} {timedOut : Bool} (h : s.look i timedOut = some .kOK) :
    ∃ n, s.kv.msgReplies i = some n ∧ n.done ∧ n.ok := by
  rw [look] at h
  cases hdead : s.kv.dead with
  | true => simp [hdead] at h
  | false =>
    rw [hdead, if_neg Bool.false_ne_true] at h
    cases hn : s.kv.msgReplies i with
    | none =>
      rw [hn] at h
      cases timedOut <;> simp at h
    | some n =>
      rw [hn] at h
      cases hd : n.done <;> cases hok : n.ok <;> cases timedOut <;> simp [hd, hok] at h
      all_goals exact ⟨n, rfl, hd, hok⟩

theorem Honest.wake {s : WaitState} (h : s.Honest) {t : Nat} {op : Op} {i : Int} {timedOut : Bool}
    {err : Err} (hc : s.calls t = some ⟨op, .waiting i⟩) (hlook : s.look i timedOut = some err) :
    Honest { s with
      kv := s.setKv (s.kv.setReply i none)
      calls := s.setCall t ⟨op, .returned err⟩ } := by
  refine ⟨fun t' op' j n hc' hn => ?_, fun j n hn hd hok => ?_, fun t' op' hc' => ?_⟩
  · simp only [setCall] at hc'
    simp only [setKv, KVServer.setReply] at hn
    split_ifs at hc'
    · cases hc'
    · split_ifs at hn
      exact h.owner t' op' j n hc' hn
  · simp only [setKv, KVServer.setReply] at hn
    split_ifs at hn
    exact h.truth j n hn hd hok
  · simp only [setCall] at hc'
    split_ifs at hc' with ht
    · -- the call returns `kOK`: its own entry said so
      cases hc'
      obtain ⟨n, hn, hd, hok⟩ := look_kOK hlook
      obtain ⟨o, ho, hids⟩ := h.truth i n hn hd hok
      obtain ⟨hcid, hseq⟩ := h.owner t op i n hc hn
      exact ⟨o, ho, hids.1.trans hcid, hids.2.trans hseq⟩
    · exact h.acked t' op' hc'

/-- A state that has the calls, the entries and the applied commands of another one. -/
theorem Honest.congr {s s' : WaitState} (h : s.Honest) (hcalls : s'.calls = s.calls)
    (hkv : s'.kv.msgReplies = s.kv.msgReplies) (happlied : s'.applied = s.applied) : s'.Honest :=
  h.follow hcalls (fun _ ho => happlied ▸ ho) fun _ n' hn' => ⟨n', hkv ▸ hn', .refl _ n'⟩

theorem Honest.step {s : WaitState} (h : s.Honest) {ev : WaitEvent} (hex : s.Exclusive ev) :
    (s.step ev).Honest := by
  cases ev with
  | start t op =>
    rw [WaitState.step]
    split
    · exact h
    · split_ifs
      · exact h.call rfl rfl rfl (fun _ => WaitPhase.noConfusion) WaitPhase.noConfusion
      · exact h.call rfl rfl rfl (fun _ => WaitPhase.noConfusion) fun heq => by cases heq
  | busy t op =>
    rw [WaitState.step]
    split
    · exact h
    · exact h.call rfl rfl rfl (fun _ => WaitPhase.noConfusion) fun heq => by cases heq
  | register t =>
    rw [WaitState.step]
    split
    · next op i hc => exact h.register (hex t op i rfl hc)
    · exact h
  | wake t timedOut =>
    rw [WaitState.step]
    split
    · next op i hc =>
      split
      · next err hlook => exact h.wake hc hlook
      · exact h
    · exact h
  | lead => exact h.congr rfl rfl rfl
  | stepDown => exact h.congr rfl rfl rfl
  | merge keep entries =>
    rw [WaitState.step]
    split_ifs
    · exact h
    · exact h.congr rfl rfl rfl
  | commit index =>
    rw [WaitState.step]
    split_ifs
    · exact h.congr rfl rfl rfl
    · exact h
  | dispatch =>
    rw [WaitState.step]
    split_ifs
    · exact h
    · split
      · exact h
      · exact h.congr rfl rfl rfl
  | snapshot index blob keepSuffix =>
    rw [WaitState.step]
    split_ifs
    · exact h
    · exact h.congr rfl rfl rfl
    · exact h.congr rfl rfl rfl
  | consume =>
    rw [WaitState.step]
    split
    · exact h
    · next m rest =>
      split
      · exact h
      · next kv hkv =>
        refine h.follow rfl (fun o ho => List.mem_append_left _ ho) fun i n' hn' => ?_
        obtain ⟨n, hn, hf⟩ := replies_applierLoop hkv hn'
        exact ⟨n, hn, hf.clientId, hf.seqId, fun hd hok => (hf.ok hd hok).imp_right
          fun ⟨o, ho, hids⟩ => ⟨o, List.mem_append_right _ ho, hids⟩⟩
  | kill => exact h.congr rfl rfl rfl
  | release =>
    refine h.follow rfl (fun _ ho => ho) fun i n' hn' => ?_
    obtain ⟨n, hn, rfl⟩ := Option.map_eq_some_iff.mp hn'
    exact ⟨n, hn, .cleared _ n⟩

theorem Honest.run : ∀ (evs : List WaitEvent) {s : WaitState}, s.Honest → s.Exclusively evs →
    (s.run evs).Honest
  | [], _, h, _ => h
  | _ :: evs, _, h, hex => Honest.run evs (h.step hex.1) hex.2

end WaitState

/-- In a run where no call registers at an index while another call waits there, a write that is
acknowledged was applied. -/
theorem acknowledged_applied (evs : List WaitEvent) (h : WaitState.Exclusively {} evs) :
    (WaitState.run {} evs).Acknowledged :=
  (WaitState.Honest.run evs ⟨fun _ _ _ _ hc => (Option.some_ne_none _ hc.symm).elim,
    fun _ _ hn => (Option.some_ne_none _ hn.symm).elim,
    fun _ _ hc => (Option.some_ne_none _ hc.symm).elim⟩ h).acked

namespace WaitState

def writeA : Op := { key := [1], value := [10], method := KVState.putMethod, clientId := 1, seqId := 1 }

def writeB : Op := { key := [2], value := [20], method := KVState.putMethod, clientId := 2, seqId := 1 }

def writeC : Op := { key := [3], value := [30], method := KVState.putMethod, clientId := 3, seqId := 1 }

def writeD : Op := { key := [4], value := [40], method := KVState.putMethod, clientId := 4, seqId := 1 }

def writeE : Op := { key := [5], value := [50], method := KVState.putMethod, clientId := 5, seqId := 1 }

/-- One call proposes, registers, and sees its command applied. -/
def aloneRun : List WaitEvent :=
  [.lead, .start 0 writeA, .register 0, .commit 1, .dispatch, .consume, .wake 0 false]

/-- Behind `writeC` and `writeD`, `writeA` waits at index 3. The next leader, whose log is empty, puts
`writeE` at index 1, and this server takes that over. It leads again, with its no-op at 2, and `writeB`
is proposed at index 3, registers there and is applied. The call of `writeA` is the first one to wake
up. -/
def reassignedRun : List WaitEvent :=
  [.lead, .start 2 writeC, .start 3 writeD, .start 0 writeA, .register 0, .stepDown,
    .merge 0 [{ term := 2, index := 1, command := writeE.serialize }], .lead, .start 1 writeB,
    .register 1, .commit 3, .dispatch, .dispatch, .dispatch, .consume, .consume, .consume,
    .wake 0 false]

end WaitState

theorem acknowledged_applied_alone : WaitState.Exclusively {} WaitState.aloneRun ∧
    (WaitState.run {} WaitState.aloneRun).Acknowledged ∧
    (WaitState.run {} WaitState.aloneRun).calls 0 =
      some ⟨WaitState.writeA, .returned .kOK⟩ := by
  have hex : WaitState.Exclusively {} WaitState.aloneRun := by
    refine ⟨?_, ?_, ?_, ?_, ?_, ?_, ?_, trivial⟩ <;> intro t op i hev hc t' op' hne hc'
    all_goals cases hev
    simp [WaitState.step, WaitState.setCall, hne] at hc'
  exact ⟨hex, acknowledged_applied _ hex, by decide +kernel⟩

/-- The call of `writeA` returns `kOK`, and only `writeE` and `writeB` were applied. -/
theorem acknowledged_not_applied :
    (WaitState.run {} WaitState.reassignedRun).calls 0 =
      some ⟨WaitState.writeA, .returned .kOK⟩ ∧
    (WaitState.run {} WaitState.reassignedRun).applied = [WaitState.writeE, WaitState.writeB] ∧
    ¬ (WaitState.run {} WaitState.reassignedRun).Acknowledged := by
  have hcall : (WaitState.run {} WaitState.reassignedRun).calls 0 =
      some ⟨WaitState.writeA, .returned .kOK⟩ := by decide +kernel
  have happlied : (WaitState.run {} WaitState.reassignedRun).applied =
      [WaitState.writeE, WaitState.writeB] := by decide +kernel
  refine ⟨hcall, happlied, fun hack => ?_⟩
  obtain ⟨o, ho, hids⟩ := hack 0 _ hcall
  rw [happlied, List.mem_pair] at ho
  rcases ho with rfl | rfl
  · exact absurd hids.1 (by decide)
  · exact absurd hids.1 (by decide)

end ChonKV
