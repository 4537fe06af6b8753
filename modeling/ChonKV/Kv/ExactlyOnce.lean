import ChonKV.Kv.Server
import Mathlib.Data.Finset.Card

/-!
The store executes each command of a client once. What was executed last for a client is the number in
its session, and without a session the number of its tombstone.
-/

set_option autoImplicit false

namespace ChonKV

open Assoc

namespace KVServer

def applyAll (s : KVServer) (ms : List ApplyMsg) : KVServer := ms.foldl applyCommand s

/-- The command that a message executes, if it executes one. -/
def executedBy (s : KVServer) (m : ApplyMsg) : Option Op :=
  (opOf m).filter fun op => s.state.executes op (nowIndex m.commandIndex)

def executed (s : KVServer) : List ApplyMsg → List Op
  | [] => []
  | m :: ms => (s.executedBy m).toList ++ (s.applyCommand m).executed ms

/-- The client and the number of a message that leaves another `kv_store_`. -/
def changedBy (s : KVServer) (m : ApplyMsg) : Option (Int32 × Int64) :=
  if (s.applyCommand m).state.kvStore.entries = s.state.kvStore.entries then none
  else (opOf m).map fun op => (op.clientId, op.seqId)

def changes (s : KVServer) : List ApplyMsg → List (Int32 × Int64)
  | [] => []
  | m :: ms => (s.changedBy m).toList ++ (s.applyCommand m).changes ms

/-- The clients that a message evicts. -/
def evictedBy (s : KVServer) (m : ApplyMsg) : List Int32 :=
  match opOf m with
  | none => []
  | some op =>
    let now := nowIndex m.commandIndex
    keys ((s.state.dedup op now).sessions.reap now).1

def evictions (s : KVServer) : List ApplyMsg → List Int32
  | [] => []
  | m :: ms => s.evictedBy m ++ (s.applyCommand m).evictions ms

end KVServer

/-- All clients with a tombstone are in `E`. -/
structure FenceOK (E : List Int32) (s : KVState) : Prop extends s.Queued where
  among : ∀ c ∈ s.fenceFifo, c ∈ E

/-- `last c` is the last number executed for `c`, and the state remembers it: in the session of `c`,
else in its tombstone. -/
structure Remembers (s : KVState) (last : Int32 → Int64) : Prop where
  session : ∀ c v, s.sessions.seqOf c = some v → v = last c ∧ 0 < last c
  tombstone : ∀ c v, s.sessions.seqOf c = none → s.fenced c = some v → v = last c ∧ 0 < last c
  unknown : ∀ c, s.sessions.seqOf c = none → s.fenced c = none → last c = 0

namespace KVState

variable {E : List Int32} {s : KVState} {last : Int32 → Int64}

theorem fenced_fence_of_some {cid : Int32} {seq v : Int64} (h : s.fenced cid = some v) :
    s.fence cid seq = { s with fenced := s.setFence cid (some seq) } := by
  rw [fence, h]

/-- Among few clients the fence does not overflow. -/
theorem fenced_fence_of_none {cid : Int32} {seq : Int64} (h : FenceOK E s)
    (hE : E.toFinset.card ≤ kFenceCap) (hc : cid ∈ E) (hn : s.fenced cid = none) :
    s.fence cid seq = { s with
      fenced := s.setFence cid (some seq)
      fenceFifo := s.fenceFifo ++ [cid] } := by
  have hout : cid ∉ s.fenceFifo := fun hm => (h.mem cid).mp hm hn
  have hnodup : (s.fenceFifo ++ [cid]).Nodup :=
    List.nodup_append_comm.mp (List.nodup_cons.mpr ⟨hout, h.nodup⟩)
  have hlen : (s.fenceFifo ++ [cid]).length ≤ kFenceCap := by
    rw [← List.toFinset_card_of_nodup hnodup]
    refine Nat.le_trans (Finset.card_le_card fun c hm => ?_) hE
    rcases List.mem_append.mp (List.mem_toFinset.mp hm) with hm | hm
    · exact List.mem_toFinset.mpr (h.among c hm)
    · exact List.mem_toFinset.mpr (List.mem_singleton.mp hm ▸ hc)
  rw [fence, hn]
  exact if_neg (Nat.not_lt.mpr hlen)

theorem fence_eq {cid : Int32} {q : Int64} (h : FenceOK E s)
    (hE : E.toFinset.card ≤ kFenceCap) (hc : cid ∈ E) : FenceOK E (s.fence cid q) ∧
      (s.fence cid q).fenced = s.setFence cid (some q) ∧
      (s.fence cid q).sessions = s.sessions ∧ (s.fence cid q).kvStore = s.kvStore := by
  have hq := queued_fence h.toQueued cid q
  cases hn : s.fenced cid with
  | some v =>
    rw [fenced_fence_of_some hn] at hq ⊢
    exact ⟨⟨hq, h.among⟩, rfl, rfl, rfl⟩
  | none =>
    rw [fenced_fence_of_none h hE hc hn] at hq ⊢
    refine ⟨⟨hq, fun c hm => ?_⟩, rfl, rfl, rfl⟩
    rcases List.mem_append.mp hm with hm | hm
    · exact h.among c hm
    · exact List.mem_singleton.mp hm ▸ hc

/-- After `Reap`, a client that was evicted has the number of its session as its tombstone. -/
theorem foldl_fence (hE : E.toFinset.card ≤ kFenceCap) : ∀ (gone : List SessionRow) (s : KVState),
    FenceOK E s → (keys gone).Nodup → (∀ c ∈ keys gone, c ∈ E) →
    let s' := gone.foldl (fun s r => s.fence r.1 r.2.lastSeq) s
    FenceOK E s' ∧ s'.sessions = s.sessions ∧ s'.kvStore = s.kvStore ∧
      ∀ c, s'.fenced c = ((find c gone).map SessionEntry.lastSeq).or (s.fenced c)
  | [], s, h, _, _ => ⟨h, rfl, rfl, fun _ => rfl⟩
  | (cid, e) :: gone, s, h, hn, hsub => by
    obtain ⟨hout, hn⟩ := List.nodup_cons.mp hn
    obtain ⟨hok, hfenced, hsessions, hkv⟩ := fence_eq (q := e.lastSeq) h hE
      (hsub cid List.mem_cons_self)
    obtain ⟨hok', hsessions', hkv', hfenced'⟩ := foldl_fence hE gone (s.fence cid e.lastSeq) hok hn
      fun c hc => hsub c (List.mem_cons_of_mem _ hc)
    refine ⟨hok', hsessions'.trans hsessions, hkv'.trans hkv, fun c => (hfenced' c).trans ?_⟩
    rw [hfenced, setFence, find]
    by_cases heq : cid = c
    · subst heq
      rw [find_eq_none.mpr hout, if_pos rfl, if_pos rfl]
      rfl
    · rw [if_neg (Ne.symm heq), if_neg heq]

theorem existing_eq (h : Remembers s last) (cid : Int32) (now : UInt64) :
    s.existing cid now = last cid := by
  rw [existing, SessionTable.get_fst]
  cases hf : s.sessions.seqOf cid with
  | some v =>
    obtain ⟨heq, hpos⟩ := h.session cid v hf
    have hne : v ≠ 0 := by
      rw [heq]
      exact (Int64.ne_of_lt hpos).symm
    exact (if_neg hne).trans heq
  | none =>
    show (s.fenced cid).getD 0 = _
    cases hv : s.fenced cid with
    | some v => exact (h.tombstone cid v hf hv).1
    | none => exact (h.unknown cid hf hv).symm

theorem nonneg (h : Remembers s last) (c : Int32) : 0 ≤ last c := by
  cases hf : s.sessions.seqOf c with
  | some v => exact Int64.le_of_lt (h.session c v hf).2
  | none =>
    cases hv : s.fenced c with
    | some v => exact Int64.le_of_lt (h.tombstone c v hf hv).2
    | none => exact Int64.le_of_eq (h.unknown c hf hv).symm

/-- What is executed last for each client, after a command. -/
def lastAfter (s : KVState) (last : Int32 → Int64) (op : Op) (now : UInt64) : Int32 → Int64 :=
  fun c => if s.executes op now ∧ op.clientId = c then op.seqId else last c

theorem remembers_dedup (h : Remembers s last) (op : Op) (now : UInt64) :
    Remembers (s.dedup op now) (s.lastAfter last op now) := by
  by_cases hex : s.executes op now
  · have hlt := of_decide_eq_true hex
    rw [existing_eq h] at hlt
    have hpos : 0 < op.seqId := Int64.lt_of_le_of_lt (nonneg h op.clientId) hlt
    have hlast : s.lastAfter last op now = fun c => if op.clientId = c then op.seqId else last c := by
      funext c
      simp [lastAfter, hex]
    have hseq : ∀ c, (s.dedup op now).sessions.seqOf c =
        if op.clientId = c then some op.seqId else s.sessions.seqOf c := by
      intro c
      rw [dedup, if_pos hex]
      exact (SessionTable.seqOf_put ..).trans (by rw [SessionTable.seqOf_get])
    have hfenced : (s.dedup op now).fenced = s.fenced := by rw [dedup, if_pos hex]
    rw [hlast]
    refine ⟨fun c v hv => ?_, fun c v hn hv => ?_, fun c hn hv => ?_⟩
    · rw [hseq] at hv
      split_ifs at hv ⊢
      · exact ⟨(Option.some_inj.mp hv).symm, hpos⟩
      · exact h.session c v hv
    · rw [hseq] at hn
      rw [hfenced] at hv
      split_ifs at hn ⊢
      exact h.tombstone c v hn hv
    · rw [hseq] at hn
      rw [hfenced] at hv
      split_ifs at hn ⊢
      exact h.unknown c hn hv
  · have hlast : s.lastAfter last op now = last := by
      funext c
      simp [lastAfter, hex]
    have hd : s.dedup op now = { s with sessions := (s.sessions.get op.clientId now).2 } := by
      rw [dedup, if_neg hex]
    rw [hlast, hd]
    refine ⟨fun c v hv => ?_, fun c v hn hv => ?_, fun c hn hv => ?_⟩
    · exact h.session c v ((SessionTable.seqOf_get ..).symm.trans hv)
    · exact h.tombstone c v ((SessionTable.seqOf_get ..).symm.trans hn) hv
    · exact h.unknown c ((SessionTable.seqOf_get ..).symm.trans hn) hv

theorem fenceOK_dedup (h : FenceOK E s) (op : Op) (now : UInt64) : FenceOK E (s.dedup op now) := by
  rw [dedup]
  split <;> exact ⟨⟨h.nodup, h.mem⟩, h.among⟩

/-- An eviction moves what is remembered of a client from its session to its tombstone. -/
theorem remembers_reap (hE : E.toFinset.card ≤ kFenceCap) (hf : FenceOK E s)
    (h : Remembers s last) (now : UInt64) (hsub : ∀ c ∈ keys (s.sessions.reap now).1, c ∈ E) :
    FenceOK E (s.reap now) ∧ Remembers (s.reap now) last ∧ (s.reap now).kvStore = s.kvStore := by
  obtain ⟨hok, hsessions, hkv, hfenced⟩ := foldl_fence hE (s.sessions.reap now).1
    { s with sessions := (s.sessions.reap now).2 } ⟨⟨hf.nodup, hf.mem⟩, hf.among⟩
    (s.sessions.nodup_reap now) hsub
  have hseq : ∀ c, s.sessions.seqOf c = ((s.reap now).sessions.seqOf c).or
      ((find c (s.sessions.reap now).1).map SessionEntry.lastSeq) := by
    intro c
    rw [show (s.reap now).sessions = (s.sessions.reap now).2 from hsessions]
    exact s.sessions.seqOf_reap now c
  refine ⟨hok, ⟨fun c v hv => ?_, fun c v hn hv => ?_, fun c hn hv => ?_⟩, hkv⟩
  · exact h.session c v (by rw [hseq, hv, Option.some_or])
  · have hs := hseq c
    rw [hn, Option.none_or] at hs
    rw [show (s.reap now).fenced c = _ from hfenced c] at hv
    cases hg : (find c (s.sessions.reap now).1).map SessionEntry.lastSeq with
    | some w =>
      rw [hg, Option.some_or] at hv
      rw [hg] at hs
      exact h.session c v (hs.trans hv)
    | none =>
      rw [hg, Option.none_or] at hv
      exact h.tombstone c v (hs.trans hg) hv
  · have hs := hseq c
    rw [hn, Option.none_or] at hs
    rw [show (s.reap now).fenced c = _ from hfenced c, Option.or_eq_none_iff] at hv
    exact h.unknown c (hs.trans hv.1) hv.2

end KVState

/-- The numbers of the commands of one client. -/
def seqsOf (c : Int32) (ops : List Op) : List Int64 :=
  (ops.filter fun op => decide (op.clientId = c)).map Op.seqId

namespace KVServer

variable {E : List Int32} {s : KVServer} {last : Int32 → Int64}

/-- A message that carries a command leaves a state that remembers it, if it was executed. -/
theorem remembers_applyCommand (hE : E.toFinset.card ≤ kFenceCap) (hf : FenceOK E s.state)
    (h : Remembers s.state last) {m : ApplyMsg} {op : Op} (hop : opOf m = some op)
    (hsub : ∀ c ∈ s.evictedBy m, c ∈ E) : FenceOK E (s.applyCommand m).state ∧
      Remembers (s.applyCommand m).state (s.state.lastAfter last op (nowIndex m.commandIndex)) ∧
      (s.applyCommand m).state.kvStore =
        (s.state.dedup op (nowIndex m.commandIndex)).kvStore := by
  rw [evictedBy, hop] at hsub
  rw [state_applyCommand, hop]
  exact KVState.remembers_reap hE (KVState.fenceOK_dedup hf op _) (KVState.remembers_dedup h op _) _
    hsub

theorem seqsOf_executed_cons (c : Int32) (m : ApplyMsg) (ms : List ApplyMsg) {op : Op}
    (hop : opOf m = some op) : seqsOf c (s.executed (m :: ms)) =
      if s.state.executes op (nowIndex m.commandIndex) ∧ op.clientId = c then
        op.seqId :: seqsOf c ((s.applyCommand m).executed ms)
      else seqsOf c ((s.applyCommand m).executed ms) := by
  have hby : s.executedBy m =
      if s.state.executes op (nowIndex m.commandIndex) then some op else none := by
    rw [executedBy, hop]
    rfl
  rw [executed, hby]
  by_cases hex : s.state.executes op (nowIndex m.commandIndex)
  · by_cases hc : op.clientId = c
    · simp [hex, hc, seqsOf]
    · simp [hex, hc, seqsOf]
  · simp [hex, seqsOf]

theorem applyCommand_none {m : ApplyMsg} (hop : opOf m = none) :
    (s.applyCommand m).state = s.state := by rw [state_applyCommand, hop]; rfl

/-- What is executed for a client ascends, from what the state remembers on. -/
theorem executed_ascends (hE : E.toFinset.card ≤ kFenceCap) (c : Int32) : ∀ (ms : List ApplyMsg)
    {s : KVServer} {last : Int32 → Int64}, FenceOK E s.state → Remembers s.state last →
    (∀ c ∈ s.evictions ms, c ∈ E) → (last c :: seqsOf c (s.executed ms)).Pairwise (· < ·)
  | [], _, _, _, _, _ => List.pairwise_singleton _ _
  | m :: ms, s, last, hf, h, hsub => by
    have hrest : ∀ c ∈ (s.applyCommand m).evictions ms, c ∈ E := fun c hc =>
      hsub c (List.mem_append_right _ hc)
    cases hop : opOf m with
    | none =>
      have hst := applyCommand_none (s := s) hop
      have hex : s.executed (m :: ms) = (s.applyCommand m).executed ms := by
        rw [executed, executedBy, hop]
        rfl
      rw [hex]
      exact executed_ascends hE c ms (hst ▸ hf) (hst ▸ h) hrest
    | some op =>
      obtain ⟨hf', h', -⟩ := remembers_applyCommand hE hf h hop fun c hc =>
        hsub c (List.mem_append_left _ hc)
      have ih := executed_ascends hE c ms hf' h' hrest
      rw [seqsOf_executed_cons c m ms hop]
      rw [KVState.lastAfter] at ih
      split_ifs at ih ⊢ with hnew
      · obtain ⟨hex, rfl⟩ := hnew
        have hlt := of_decide_eq_true hex
        rw [KVState.existing_eq h] at hlt
        refine List.pairwise_cons.mpr ⟨fun x hx => ?_, ih⟩
        rcases List.mem_cons.mp hx with rfl | hx
        · exact hlt
        · exact Int64.lt_trans hlt ((List.pairwise_cons.mp ih).1 x hx)
      · exact ih

/-- A message that changes the store executes its command. -/
theorem executedBy_of_changedBy (hE : E.toFinset.card ≤ kFenceCap) (hf : FenceOK E s.state)
    (h : Remembers s.state last) {m : ApplyMsg} {p : Int32 × Int64}
    (hsub : ∀ c ∈ s.evictedBy m, c ∈ E) (hp : s.changedBy m = some p) :
    ∃ op, s.executedBy m = some op ∧ (op.clientId, op.seqId) = p := by
  rw [changedBy] at hp
  split_ifs at hp with hsame
  obtain ⟨op, hop, rfl⟩ := Option.map_eq_some_iff.mp hp
  refine ⟨op, ?_, rfl⟩
  rw [executedBy, hop, Option.filter_some_eq_some]
  by_contra hex
  refine hsame ?_
  rw [(remembers_applyCommand hE hf h hop hsub).2.2, KVState.dedup, if_neg hex]

theorem changes_sublist (hE : E.toFinset.card ≤ kFenceCap) : ∀ (ms : List ApplyMsg) {s : KVServer}
    {last : Int32 → Int64}, FenceOK E s.state → Remembers s.state last →
    (∀ c ∈ s.evictions ms, c ∈ E) →
    (s.changes ms).Sublist ((s.executed ms).map fun op => (op.clientId, op.seqId))
  | [], _, _, _, _, _ => List.Sublist.refl _
  | m :: ms, s, last, hf, h, hsub => by
    have hm : ∀ c ∈ s.evictedBy m, c ∈ E := fun c hc => hsub c (List.mem_append_left _ hc)
    have hrest : ∀ c ∈ (s.applyCommand m).evictions ms, c ∈ E := fun c hc =>
      hsub c (List.mem_append_right _ hc)
    have hnext : ∃ last', FenceOK E (s.applyCommand m).state ∧
        Remembers (s.applyCommand m).state last' := by
      cases hop : opOf m with
      | none =>
        rw [applyCommand_none hop]
        exact ⟨last, hf, h⟩
      | some op =>
        obtain ⟨hf', h', -⟩ := remembers_applyCommand hE hf h hop hm
        exact ⟨_, hf', h'⟩
    obtain ⟨last', hf', h'⟩ := hnext
    rw [changes, executed, List.map_append]
    refine List.Sublist.append ?_ (changes_sublist hE ms hf' h' hrest)
    cases hp : s.changedBy m with
    | none => exact List.nil_sublist _
    | some p =>
      obtain ⟨op, hop, rfl⟩ := executedBy_of_changedBy hE hf h hm hp
      rw [hop]
      exact List.Sublist.refl _

/-- A server before its first message. -/
def fresh (cap : Nat) (maxIdleIndex : UInt64) : KVServer :=
  { state := { sessions := { cap := cap, maxIdleIndex := maxIdleIndex } } }

theorem remembers_fresh (cap : Nat) (maxIdleIndex : UInt64) :
    Remembers (fresh cap maxIdleIndex).state fun _ => 0 :=
  ⟨fun _ _ hv => (Option.some_ne_none _ hv.symm).elim,
    fun _ _ _ hv => (Option.some_ne_none _ hv.symm).elim, fun _ _ _ => rfl⟩

theorem fenceOK_fresh (E : List Int32) (cap : Nat) (maxIdleIndex : UInt64) :
    FenceOK E (fresh cap maxIdleIndex).state :=
  ⟨KVState.queued_nil rfl rfl, fun _ h => (List.not_mem_nil h).elim⟩

end KVServer

theorem nodup_of_seqsOf : ∀ {ops : List Op}, (∀ c, (seqsOf c ops).Nodup) →
    (ops.map fun op => (op.clientId, op.seqId)).Nodup
  | [], _ => List.nodup_nil
  | op :: ops, h => by
    have hcons : seqsOf op.clientId (op :: ops) = op.seqId :: seqsOf op.clientId ops := by
      simp [seqsOf]
    refine List.nodup_cons.mpr ⟨fun hm => ?_, nodup_of_seqsOf fun c => ?_⟩
    · obtain ⟨op', hop', heq⟩ := List.mem_map.mp hm
      have hn := h op.clientId
      rw [hcons] at hn
      refine (List.nodup_cons.mp hn).1 (List.mem_map.mpr ⟨op', List.mem_filter.mpr ⟨hop', ?_⟩, ?_⟩)
      · exact decide_eq_true (congrArg Prod.fst heq)
      · exact congrArg Prod.snd heq
    · exact (h c).sublist (((List.sublist_cons_self op ops).filter _).map _)

/-- As long as no tombstone is lost, each command changes the store at most once, and the commands of
a client are executed in ascending order. -/
theorem commands_exactly_once (cap : Nat) (maxIdleIndex : UInt64) (ms : List ApplyMsg)
    (h : ((KVServer.fresh cap maxIdleIndex).evictions ms).toFinset.card ≤ kFenceCap) :
    (∀ p, ((KVServer.fresh cap maxIdleIndex).changes ms).count p ≤ 1) ∧
      ∀ c, (seqsOf c ((KVServer.fresh cap maxIdleIndex).executed ms)).Pairwise (· < ·) := by
  have hf := KVServer.fenceOK_fresh ((KVServer.fresh cap maxIdleIndex).evictions ms) cap maxIdleIndex
  have hr := KVServer.remembers_fresh cap maxIdleIndex
  have hasc : ∀ c, (seqsOf c ((KVServer.fresh cap maxIdleIndex).executed ms)).Pairwise (· < ·) :=
    fun c => (List.pairwise_cons.mp
      (KVServer.executed_ascends h c ms hf hr fun _ hc => hc)).2
  refine ⟨fun p => List.nodup_iff_count_le_one.mp ?_ p, hasc⟩
  exact (nodup_of_seqsOf fun c => (hasc c).imp fun hlt => Int64.ne_of_lt hlt).sublist
    (KVServer.changes_sublist h ms hf hr fun _ hc => hc)

/-- With room for one session, client 1 is evicted by client 2, and comes back with an old and a new
command. -/
def retried : List ApplyMsg :=
  [(1, 1), (2, 1), (1, 1), (1, 2)].mapIdx fun i (c, q) =>
    { commandValid := true
      commandIndex := i + 1
      command := Op.serialize { method := KVState.appendMethod, clientId := c, seqId := q } }

theorem commands_exactly_once_retried :
    ((KVServer.fresh 1 100).executed retried).map Op.seqId = [1, 1, 2] ∧
      ((KVServer.fresh 1 100).evictions retried).toFinset.card = 2 ∧
      ∀ c, (seqsOf c ((KVServer.fresh 1 100).executed retried)).Pairwise (· < ·) := by
  have hcard : ((KVServer.fresh 1 100).evictions retried).toFinset.card = 2 := by decide +kernel
  refine ⟨by decide +kernel, hcard, (commands_exactly_once 1 100 retried ?_).2⟩
  rw [hcard]
  decide

end ChonKV
