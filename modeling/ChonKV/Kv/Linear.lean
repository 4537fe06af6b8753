import ChonKV.Cluster.LinearReads
import ChonKV.Kv.OneStore
import ChonKV.Kv.Threads

/-!
What clients see of a cluster is what one store would show them that executes the history: a `Get` reads the store
after some entry, an acknowledged `PutAppend` is an entry, and a call that begins after another one returned comes after
it.
-/

set_option autoImplicit false

namespace ChonKV

open Ballot Ballot.Ledger
open Function (update)

/-- No call of `ReadIndex` on record got less than it is owed. -/
def Cluster.Repays {σ : Type} (c : Cluster σ) : Prop :=
  ∀ (m : Nat) rc, c.calls[m]? = some rc → ∀ r, rc.result = some r → 0 ≤ r → rc.floor ≤ r

section
variable {n : Nat} {cfg : KvConfig} {H : Nat → LogEntry} {k : KvCluster} {c d : Cluster (Option KVState)} {ev : KvEvent}
  {evs : List KvEvent}

/-- A call of `Get`: what it answers is found in the store after an entry that was committed when it answered, and
before which everything is that was committed when it began. -/
structure GetCall.OK (n : Nat) (cfg : KvConfig) (H : Nat → LogEntry) (c : Cluster (Option KVState)) (g : GetCall) :
    Prop where
  node : g.node < n
  call : c.floors[g.call]? = some g.floor
  reply : ∀ x r, g.reply = some (x, r) → r.err = .kOK ∨ r.err = .kNoKey →
    ∃ p : Nat, x = p ∧ r = (storeAfter cfg H p).lookup g.key ∧ g.floor ≤ x ∧ x ≤ c.maxCommit

theorem GetCall.OK.mono {g : GetCall} (h : g.OK n cfg H c) (hfloors : c.floors <+: d.floors)
    (hmax : c.maxCommit ≤ d.maxCommit) : g.OK n cfg H d where
  node := h.node
  call := by
    obtain ⟨rest, hrest⟩ := hfloors
    rw [← hrest, List.getElem?_append_left (List.getElem?_eq_some_iff.mp h.call).1, h.call]
  reply x r hr hfound := by
    obtain ⟨p, hp, hlookup, hle, hx⟩ := h.reply x r hr hfound
    exact ⟨p, hp, hlookup, hle, hx.trans hmax⟩

def GetsOK (n : Nat) (cfg : KvConfig) (H : Nat → LogEntry) (k : KvCluster) : Prop :=
  ∀ (t : Nat) g, k.gets[t]? = some g → g.OK n cfg H k.raft

/-- A stretch of a node leaves the calls of the others alone. -/
theorem floors_on {σ : Type} (n : Nat) (c : Cluster σ) (i : Nat) (f : Server σ → Effect σ) :
    c.floors <+: (c.on n i f).floors ∧ c.maxCommit ≤ (c.on n i f).maxCommit := by
  rw [Cluster.on]
  split_ifs
  · have hfloors : (c.put i (f (c.nodes i))).floors = c.floors := floors_finished _ _
    exact ⟨hfloors ▸ List.prefix_rfl, le_max_left _ _⟩
  · exact ⟨List.prefix_rfl, le_rfl⟩

/-- What is owed stays on record, and what is committed stays committed. -/
theorem KvCluster.lower_grows (n : Nat) (cfg : KvConfig) (k : KvCluster) (ev : KvEvent) :
    k.raft.floors <+: (k.lower n cfg ev).floors ∧ k.raft.maxCommit ≤ (k.lower n cfg ev).maxCommit := by
  have hevent : k.raft.floors <+: ((k.raftEvent n cfg ev).toList.foldl (Cluster.step n cfg.service) k.raft).floors ∧
      k.raft.maxCommit ≤ ((k.raftEvent n cfg ev).toList.foldl (Cluster.step n cfg.service) k.raft).maxCommit := by
    cases k.raftEvent n cfg ev with
    | none => exact ⟨List.prefix_rfl, le_rfl⟩
    | some e => exact ⟨floors_grow n cfg.service k.raft e, k.raft.maxCommit_step n cfg.service e⟩
  cases ev with
  | snapshot t =>
    dsimp only [lower]
    split
    · split_ifs
      · exact floors_on n k.raft _ _
      · exact ⟨List.prefix_rfl, le_rfl⟩
    · exact ⟨List.prefix_rfl, le_rfl⟩
  | restart i now =>
    dsimp only [lower]
    split
    · exact floors_on n k.raft _ _
    · exact ⟨List.prefix_rfl, le_rfl⟩
  | _ => exact hevent

theorem GetsOK.step (h : GetsOK n cfg H k) (he : k.Executes n cfg H) (hpaid : k.raft.Repays) :
    GetsOK n cfg H (k.step n cfg ev) := by
  intro t g hg
  have hgrow := k.lower_grows n cfg ev
  rw [KvCluster.raft_step]
  cases KvCluster.gets_step k _ ev hg with
  | old hold => exact (h t g hold).mono hgrow.1 hgrow.2
  | @call i key now hi =>
    refine ⟨hi, ?_, fun x r hr => by cases hr⟩
    have hlower : k.lower n cfg (.get i key now) = k.raft.step n cfg.service (.read i now) := by
      simp only [KvCluster.lower, KvCluster.raftEvent, hi, ↓reduceIte, Option.toList_some, List.foldl_cons, List.foldl_nil]
    have hfloors : (k.raft.called (.read i now)).floors = k.raft.floors ++ [k.raft.maxCommit] := List.map_append
    rw [hlower, floors_step, hfloors, List.getElem?_append_right (by simp [Cluster.floors])]
    simp [Cluster.floors]
  | @turn _ timedOut g kv ri hg₀ hkv hri =>
    have hok := (h t g hg₀).mono hgrow.1 hgrow.2
    refine ⟨hok.node, hok.call, fun x r hr hfound => ?_⟩
    obtain ⟨r', hr', heq⟩ := Option.map_eq_some_iff.mp hr
    cases heq
    obtain ⟨hpos, hreached, hlookup⟩ := KVServer.getTurn_found hr' hfound
    -- the server has executed a beginning that reaches the read index
    obtain ⟨kv', hkv', p, hp, hmax, hstate⟩ := he.servers g.node hok.node
    rw [(KvCluster.server_some hkv).2] at hkv'
    cases hkv'
    obtain ⟨rc, hrc, hres⟩ := Option.bind_eq_some_iff.mp hri
    have hfloor : g.floor = rc.floor := by
      have hcall := (h t g hg₀).call
      rw [Cluster.floors, List.getElem?_map, hrc] at hcall
      exact (Option.some.inj hcall).symm
    have hpaid' := hpaid _ rc hrc ri hres hpos
    refine ⟨p, hp, hstate ▸ hlookup, ?_, ?_⟩
    · rw [hfloor]
      exact hpaid'.trans hreached
    · rw [hp]
      exact hmax.trans hgrow.2

/-- The history has at the index `x` a command of the client with that number, and it was committed. -/
def Holds (H : Nat → LogEntry) (M x : Int) (cid : Int32) (seq : Int64) : Prop :=
  ∃ q : Nat, x = q + 1 ∧ x ≤ M ∧ ∃ op, KVServer.opOf (Raft.commandMsg (q+1) (H q)) = some op ∧
    op.clientId = cid ∧ op.seqId = seq

theorem Holds.mono {M M' x : Int} {cid : Int32} {seq : Int64} (h : Holds H M x cid seq) (hM : M ≤ M') :
    Holds H M' x cid seq := by
  obtain ⟨q, hx, hle, hop⟩ := h
  exact ⟨q, hx, hle.trans hM, hop⟩

def PutPhase.hasPlace : PutPhase → Bool
  | .started | .waiting => true
  | .returned reply => decide (reply.err = .kOK)
  | .proposing _ => false

/-- A call of `PutAppend`: if the history has its own entry where `Start` put it, then behind everything that was
committed when the call began; while it waits, the entry of its index is its own; and it is only acknowledged if the
history has its command. -/
structure PutCall.OK (n : Nat) (H : Nat → LogEntry) (k : KvCluster) (p : PutCall) : Prop where
  node : p.node < n
  inc : p.inc ≤ (k.raft.nodes p.node).inc
  floor : p.floor ≤ k.raft.maxCommit
  placed : p.phase.hasPlace = true → ∃ q : Nat, p.index = q + 1 ∧ ((H q).term = p.term → p.floor ≤ q)
  owner : p.phase = .waiting → p.inc = (k.raft.nodes p.node).inc → ∀ kv m, k.servers p.node = some kv →
    kv.msgReplies p.index = some m → m.clientId = p.op.clientId ∧ m.seqId = p.op.seqId
  acked : ∀ reply, p.phase = .returned reply → reply.err = .kOK →
    Holds H k.raft.maxCommit p.index p.op.clientId p.op.seqId

structure PutsOK (n : Nat) (H : Nat → LogEntry) (k : KvCluster) : Prop where
  calls : ∀ (t : Nat) p, k.puts[t]? = some p → p.OK n H k
  truth : ∀ i < n, ∀ kv x m, k.servers i = some kv → kv.msgReplies x = some m → m.done = true → m.ok = true →
    Holds H k.raft.maxCommit x m.clientId m.seqId

/-- A call registers at an index at which another call of the server waits. -/
def KvCluster.sharesEntry (k : KvCluster) : KvEvent → Bool
  | .register t =>
    match k.puts[t]? with
    | some p => k.puts.any fun q =>
      decide (q.phase = .waiting ∧ q.node = p.node ∧ q.inc = p.inc ∧ q.index = p.index)
    | none => false
  | _ => false

theorem not_shared {t t' : Nat} {p p' : PutCall} (h : k.sharesEntry (.register t) = false) (hp : k.puts[t]? = some p)
    (hp' : k.puts[t']? = some p') (hphase : p'.phase = .waiting) (hnode : p'.node = p.node) (hinc : p'.inc = p.inc) :
    p'.index ≠ p.index := by
  intro hindex
  rw [KvCluster.sharesEntry, hp] at h
  have hno := List.any_eq_false.mp h p' (List.mem_of_getElem? hp')
  simp [hphase, hnode, hinc, hindex] at hno

/-- No incarnation comes back. -/
theorem KvCluster.inc_lower (n : Nat) (cfg : KvConfig) (k : KvCluster) (ev : KvEvent) (j : Nat) :
    (k.raft.nodes j).inc ≤ ((k.lower n cfg ev).nodes j).inc := by
  have hmoved := k.lower_moved n cfg ev j
  generalize (k.lower n cfg ev).nodes j = s' at hmoved
  cases hmoved with
  | still hst hinc => exact hinc.ge
  | consume _ h =>
    rw [h]
    unfold Server.consume
    split <;> exact le_rfl
  | reboot now r _ _ h =>
    rw [h]
    exact Nat.le_succ _

/-- Whoever registers finds its own entry. -/
theorem KvCluster.register_reply {t : Nat} {p : PutCall} {kv : KVServer} {m : NotifyMsg} (hp : k.puts[t]? = some p)
    (hphase : p.phase = .started) (hinc : p.inc = (k.raft.nodes p.node).inc)
    (hkv : (k.step n cfg (.register t)).servers p.node = some kv) (hm : kv.msgReplies p.index = some m) :
    m.clientId = p.op.clientId ∧ m.seqId = p.op.seqId := by
  dsimp only [step, upper] at hkv
  rw [hp] at hkv
  dsimp only at hkv
  rw [hphase, server, if_pos hinc] at hkv
  cases hs : k.servers p.node with
  | none =>
    rw [hs] at hkv
    dsimp only at hkv
    rw [hs] at hkv
    cases hkv
  | some kv₀ =>
    rw [hs] at hkv
    dsimp only at hkv
    rw [Function.update_self] at hkv
    cases hkv
    simp only [KVServer.setReply, ↓reduceIte] at hm
    cases hm
    exact ⟨rfl, rfl⟩

/-- What a call is stays; what has to be shown is what a step changes. -/
theorem PutCall.OK.next {p p' : PutCall} (h : p.OK n H k)
    (hsame : p'.node = p.node ∧ p'.inc = p.inc ∧ p'.floor = p.floor)
    (hplaced : p'.phase.hasPlace = true → ∃ q : Nat, p'.index = q + 1 ∧ ((H q).term = p'.term → p'.floor ≤ q))
    (howner : p'.phase = .waiting → p'.inc = (k.raft.nodes p'.node).inc → ∀ kv m,
      (k.step n cfg ev).servers p'.node = some kv → kv.msgReplies p'.index = some m →
      m.clientId = p'.op.clientId ∧ m.seqId = p'.op.seqId)
    (hacked : ∀ reply, p'.phase = .returned reply → reply.err = .kOK →
      Holds H k.raft.maxCommit p'.index p'.op.clientId p'.op.seqId) : p'.OK n H (k.step n cfg ev) := by
  obtain ⟨hnode, hinc, hfloor⟩ := hsame
  have hmax := (k.lower_grows n cfg ev).2
  have hgrow := k.inc_lower n cfg ev p.node
  rw [← KvCluster.raft_step] at hmax hgrow
  exact
    { node := hnode ▸ h.node
      inc := by
        rw [hnode, hinc]
        exact h.inc.trans hgrow
      floor := hfloor ▸ h.floor.trans hmax
      placed := hplaced
      owner := fun hphase hin => howner hphase (by
        have hle := h.inc
        rw [hinc, hnode] at hin ⊢
        omega)
      acked := fun reply hphase hok => (hacked reply hphase hok).mono hmax }

theorem PutsOK.step (h : PutsOK n H k) (he : k.Executes n cfg H) (hshare : k.sharesEntry ev = false) :
    PutsOK n H (k.step n cfg ev) where
  calls t p hp := by
    have hmax := (k.lower_grows n cfg ev).2
    cases KvCluster.puts_step k _ ev hp with
    | old hold =>
      have hok := h.calls t p hold
      refine hok.next ⟨rfl, rfl, rfl⟩ hok.placed (fun hphase hinc kv m hkv hm => ?_) hok.acked
      generalize hx : p.index = x at hm
      cases KvCluster.replies_step k _ ev hkv hm with
      | kept hkv₀ hm₀ hf =>
        rw [hf.clientId, hf.seqId]
        exact hok.owner hphase hinc _ _ hkv₀ (hx ▸ hm₀)
      | applied hkv₀ hch hc hcmd hop hm₀ hf =>
        rw [hf.clientId, hf.seqId]
        exact hok.owner hphase hinc _ _ hkv₀ (hx ▸ hm₀)
      | registered hp' hphase' hnode' hinc' =>
        exact absurd hx (not_shared hshare hp' hold hphase hnode'.symm (hinc.trans hinc'.symm))
    | call hi =>
      refine ⟨hi, ?_, ?_, (fun hplace => by cases hplace), (fun hphase => by cases hphase), fun reply hphase => by cases hphase⟩
      · rw [KvCluster.raft_step]
        exact k.inc_lower n cfg _ _
      · rw [KvCluster.raft_step]
        exact hmax
    | refused hi herr =>
      refine ⟨hi, ?_, ?_, fun hplace => ?_, (fun hphase => by cases hphase), fun reply hphase hok => ?_⟩
      · rw [KvCluster.raft_step]
        exact k.inc_lower n cfg _ _
      · rw [KvCluster.raft_step]
        exact hmax
      · exact absurd (of_decide_eq_true hplace) herr
      · cases hphase
        exact absurd hok herr
    | again hp₀ =>
      exact (h.calls t _ hp₀).next ⟨rfl, rfl, rfl⟩ (fun hplace => by cases hplace) (fun hphase => by cases hphase)
        fun reply hphase => by cases hphase
    | failed hp₀ herr =>
      refine (h.calls t _ hp₀).next ⟨rfl, rfl, rfl⟩ (fun hplace => absurd (of_decide_eq_true hplace) herr)
        (fun hphase => by cases hphase) fun reply hphase hok => ?_
      cases hphase
      exact absurd hok herr
    | @placed _ p hp₀ hl =>
      have hok := h.calls t _ hp₀
      refine hok.next ⟨rfl, rfl, rfl⟩ (fun _ => ?_) (fun hphase => by cases hphase) fun reply hphase => by cases hphase
      obtain ⟨q, hq, hfresh⟩ := he.fresh p.node hok.node _ hl
      exact ⟨q, hq, fun hterm => hok.floor.trans (hfresh hterm)⟩
    | registered hp₀ hphase₀ hinc₀ =>
      have hok := h.calls t _ hp₀
      refine hok.next ⟨rfl, rfl, rfl⟩ (fun _ => ?_) (fun _ _ kv m hkv hm => ?_) fun reply hphase => by cases hphase
      · exact hok.placed (by rw [hphase₀]; rfl)
      · have hentry := KvCluster.register_reply hp₀ hphase₀ hinc₀ hkv hm
        exact hentry
    | @returned _ timedOut p kv r reply hp₀ hphase₀ hkv₀ hret =>
      have hok := h.calls t _ hp₀
      refine hok.next ⟨rfl, rfl, rfl⟩ (fun _ => ?_) (fun hphase => by cases hphase) fun reply' hphase hkOK => ?_
      · exact hok.placed (by rw [hphase₀]; rfl)
      · cases hphase
        obtain ⟨hinc, hkv⟩ := KvCluster.server_some hkv₀
        obtain ⟨m, hm, hd, ho⟩ := KVServer.waitTurn_ok hret hkOK
        have htruth := h.truth p.node hok.node kv p.index m hkv hm hd ho
        obtain ⟨hcid, hseq⟩ := hok.owner hphase₀ hinc kv m hkv hm
        rwa [hcid, hseq] at htruth
  truth i hi kv' x m' hkv' hm' hdone hok := by
    have hmax := (k.lower_grows n cfg ev).2
    rw [KvCluster.raft_step]
    cases KvCluster.replies_step k _ ev hkv' hm' with
    | kept hkv hm hf =>
      rcases hf.ok hdone hok with ⟨hd, ho⟩ | ⟨o, ho, -⟩
      · rw [hf.clientId, hf.seqId]
        exact (h.truth i hi _ x _ hkv hm hd ho).mono hmax
      · cases ho
    | @applied _ kv m _ msg rest op hkv hch hc hx hop hm hf =>
      rcases hf.ok hdone hok with ⟨hd, ho⟩ | ⟨o, ho, hids⟩
      · rw [hf.clientId, hf.seqId]
        exact (h.truth i hi _ x _ hkv hm hd ho).mono hmax
      · cases List.mem_singleton.mp ho
        obtain ⟨q, rfl, hle⟩ := he.queued i hi msg (by rw [hch]; exact List.mem_cons_self) hc
        have hx' : x = q + 1 := hx
        refine ⟨q, hx', ?_, op, hop, ?_, ?_⟩
        · rw [hx']
          exact hle.trans hmax
        · rw [hf.clientId, hids.1]
        · rw [hf.seqId, hids.2]
    | registered hp hphase hnode hinc => cases hdone

theorem getsOK_init : GetsOK n cfg H (.init n cfg) := fun t g hg => by cases hg

theorem putsOK_init : PutsOK n H (.init n cfg) where
  calls t p hp := by cases hp
  truth i hi kv x m hkv hm := by
    cases hkv
    cases hm

theorem KvCluster.run_take_succ {b : Nat} {ev : KvEvent} (hev : evs[b]? = some ev) :
    KvCluster.run n cfg (evs.take (b+1)) = (KvCluster.run n cfg (evs.take b)).step n cfg ev := by
  rw [List.take_add_one, hev, Option.toList_some, run, List.foldl_append]
  rfl

theorem take_succ_of_none {α : Type} {l : List α} {b : Nat} (h : l[b]? = none) : l.take (b+1) = l.take b := by
  rw [List.take_add_one, h, Option.toList_none, List.append_nil]

/-- A rule for runs: what holds at first and is kept by the steps of a run holds all along. -/
theorem KvCluster.run_induction {P : KvCluster → Prop} (hinit : P (.init n cfg))
    (hstep : ∀ (b : Nat) ev, evs[b]? = some ev → P (.run n cfg (evs.take b)) →
      P ((KvCluster.run n cfg (evs.take b)).step n cfg ev)) (b : Nat) : P (.run n cfg (evs.take b)) := by
  induction b with
  | zero => exact hinit
  | succ b ih =>
    cases hev : evs[b]? with
    | none => rwa [take_succ_of_none hev]
    | some ev =>
      rw [run_take_succ hev]
      exact hstep b ev hev ih

/-- Somebody joins a round of a leader behind. -/
def KvCluster.joinsBehind (n : Nat) (cfg : KvConfig) (k : KvCluster) (ev : KvEvent) : Bool :=
  (k.raftEvent n cfg ev).any k.raft.joinsBehind

/-- Nobody joins a round behind in the run. -/
def KvCluster.NoJoinBehind (n : Nat) (cfg : KvConfig) (evs : List KvEvent) : Prop :=
  ∀ (b : Nat) ev, evs[b]? = some ev → (KvCluster.run n cfg (evs.take b)).joinsBehind n cfg ev = false

instance (n : Nat) (cfg : KvConfig) (evs : List KvEvent) : Decidable (KvCluster.NoJoinBehind n cfg evs) :=
  decidable_of_iff (∀ b : Fin evs.length, (KvCluster.run n cfg (evs.take b)).joinsBehind n cfg (evs.get b) = false)
    (forall_getElem?_iff (P := fun b ev => (KvCluster.run n cfg (evs.take b)).joinsBehind n cfg ev = false)).symm

theorem tracked_step (h : k.raft.Tracked n cfg.service) (hraft : k.OfRaft n cfg ev) (hstatic : ev.isStatic = true)
    (hjoin : k.joinsBehind n cfg ev = false) : (k.step n cfg ev).raft.Tracked n cfg.service := by
  rw [KvCluster.raft_step, show k.lower n cfg ev = _ from hraft]
  rw [KvCluster.joinsBehind] at hjoin
  cases he : k.raftEvent n cfg ev with
  | none => exact h
  | some e =>
    rw [he] at hjoin
    exact h.step (KvCluster.static_raftEvent hstatic he) hjoin

theorem repays_run (hstatic : ∀ ev ∈ evs, ev.isStatic = true)
    (hraft : ∀ (b : Nat) ev, evs[b]? = some ev → (KvCluster.run n cfg (evs.take b)).OfRaft n cfg ev)
    (hjoin : KvCluster.NoJoinBehind n cfg evs) (b : Nat) : (KvCluster.run n cfg (evs.take b)).raft.Repays := by
  have htracked : (KvCluster.run n cfg (evs.take b)).raft.Tracked n cfg.service :=
    KvCluster.run_induction (P := fun k => k.raft.Tracked n cfg.service) (tracked_init n cfg.service)
      (fun b ev hev h => tracked_step h (hraft b ev hev) (hstatic ev (List.mem_of_getElem? hev)) (hjoin b ev hev)) b
  obtain ⟨G, R, -, -, hreads⟩ := htracked
  exact fun m rc hrc => (hreads.calls m rc hrc).2

/-- No call of a run registers at an index at which another call of its server waits. -/
def NoSharedEntry (n : Nat) (cfg : KvConfig) (evs : List KvEvent) : Prop :=
  ∀ (b : Nat) ev, evs[b]? = some ev → (KvCluster.run n cfg (evs.take b)).sharesEntry ev = false

instance (n : Nat) (cfg : KvConfig) (evs : List KvEvent) : Decidable (NoSharedEntry n cfg evs) :=
  decidable_of_iff (∀ b : Fin evs.length, (KvCluster.run n cfg (evs.take b)).sharesEntry (evs.get b) = false)
    (forall_getElem?_iff (P := fun b ev => (KvCluster.run n cfg (evs.take b)).sharesEntry ev = false)).symm

/-- The calls after the first `g` and `p` ones began when `M` was committed. -/
structure KvCluster.Late (M : Int) (g p : Nat) (k : KvCluster) : Prop where
  max : M ≤ k.raft.maxCommit
  gets : ∀ (t : Nat) x, g ≤ t → k.gets[t]? = some x → M ≤ x.floor
  puts : ∀ (t : Nat) x, p ≤ t → k.puts[t]? = some x → M ≤ x.floor

theorem KvCluster.late_self (k : KvCluster) : k.Late k.raft.maxCommit k.gets.length k.puts.length where
  max := le_rfl
  gets t x ht hx := absurd (List.getElem?_eq_some_iff.mp hx).1 (by omega)
  puts t x ht hx := absurd (List.getElem?_eq_some_iff.mp hx).1 (by omega)

theorem KvCluster.Late.step {M : Int} {g p : Nat} (h : k.Late M g p) : (k.step n cfg ev).Late M g p where
  max := by
    rw [raft_step]
    exact h.max.trans (k.lower_grows n cfg ev).2
  gets t x ht hx := by
    cases gets_step k _ ev hx with
    | old hold => exact h.gets t x ht hold
    | call hi => exact h.max
    | turn hg =>
      have hfloor := h.gets t _ ht hg
      exact hfloor
  puts t x ht hx := by
    cases puts_step k _ ev hx with
    | old hold => exact h.puts t x ht hold
    | call hi | refused hi herr => exact h.max
    | again hp | failed hp | placed hp | registered hp | returned hp =>
      have hfloor := h.puts t _ ht hp
      exact hfloor

theorem KvCluster.Late.foldl {M : Int} {g p : Nat} (h : k.Late M g p) (evs : List KvEvent) :
    (evs.foldl (KvCluster.step n cfg) k).Late M g p := by
  induction evs generalizing k with
  | nil => exact h
  | cons ev evs ih => exact ih h.step

/-- Calls that begin after a moment of a run began when everything was committed that was at that moment. -/
theorem KvCluster.late_run (evs : List KvEvent) {a b : Nat} (hab : a ≤ b) :
    (KvCluster.run n cfg (evs.take b)).Late (KvCluster.run n cfg (evs.take a)).raft.maxCommit
      (KvCluster.run n cfg (evs.take a)).gets.length (KvCluster.run n cfg (evs.take a)).puts.length := by
  have hsplit := List.take_append_drop a (evs.take b)
  rw [List.take_take, Nat.min_eq_left hab] at hsplit
  have hrun : KvCluster.run n cfg (evs.take b) =
      ((evs.take b).drop a).foldl (KvCluster.step n cfg) (.run n cfg (evs.take a)) := by
    conv_lhs => rw [← hsplit, run, List.foldl_append]
    rfl
  rw [hrun]
  exact (late_self _).foldl _

/-- What clients see is one history, as long as no store and no file outgrows the counts of its format. At any time of
a run the servers have executed beginnings of it. A call of `Get` that finds a value, or that there is none, finds it in
the store after some entry; an acknowledged call of `PutAppend` is an entry; and at such an answer the entry is
committed. What a call answers comes not before what was committed when it began, so not before the answer of any call
that returned before. Reads need that nobody joins a round behind, and acknowledgements that no two calls wait at one
entry. -/
theorem kv_linearizable (n : Nat) (cfg : KvConfig) (hcap : cfg.cap < 2^31) {evs : List KvEvent}
    (hstatic : ∀ ev ∈ evs, ev.isStatic = true) (hsize : (KvCluster.init n cfg).Sized n cfg evs)
    (hint : (KvCluster.recordOf n cfg evs).intact) : ∃ H : Nat → LogEntry,
    (∀ b, (KvCluster.run n cfg (evs.take b)).Executes n cfg H) ∧
    (KvCluster.NoJoinBehind n cfg evs → ∀ (b t : Nat) g x r,
      (KvCluster.run n cfg (evs.take b)).gets[t]? = some g → g.reply = some (x, r) → r.err = .kOK ∨ r.err = .kNoKey →
        ∃ p : Nat, x = p ∧ r = (storeAfter cfg H p).lookup g.key ∧
          x ≤ (KvCluster.run n cfg (evs.take b)).raft.maxCommit ∧
          ∀ a ≤ b, (KvCluster.run n cfg (evs.take a)).gets.length ≤ t →
            (KvCluster.run n cfg (evs.take a)).raft.maxCommit ≤ x) ∧
    (NoSharedEntry n cfg evs → ∀ (b t : Nat) p reply,
      (KvCluster.run n cfg (evs.take b)).puts[t]? = some p → p.phase = .returned reply → reply.err = .kOK →
        ∃ q : Nat, p.index = q + 1 ∧ p.index ≤ (KvCluster.run n cfg (evs.take b)).raft.maxCommit ∧
          (∃ op, KVServer.opOf (Raft.commandMsg (q+1) (H q)) = some op ∧ op.clientId = p.op.clientId ∧
            op.seqId = p.op.seqId) ∧
          ∀ a ≤ b, (KvCluster.run n cfg (evs.take a)).puts.length ≤ t → (H q).term = p.term →
            (KvCluster.run n cfg (evs.take a)).raft.maxCommit < p.index) := by
  obtain ⟨G, hG⟩ := executes_run n cfg hcap hstatic hsize hint
  refine ⟨G.L.history (majority n), fun b => (hG b).1, fun hjoin b t g x r hg hr hfound => ?_, fun hshare b t p reply hp hphase hok => ?_⟩
  · have hgets : GetsOK n cfg (G.L.history (majority n)) (.run n cfg (evs.take b)) :=
      KvCluster.run_induction getsOK_init (fun b ev hev h => h.step (hG b).1 (repays_run hstatic (fun a => (hG a).2.2) hjoin b)) b
    obtain ⟨p, hp, hlookup, hfloor, hmax⟩ := (hgets t g hg).reply x r hr hfound
    exact ⟨p, hp, hlookup, hmax, fun a hab ht => ((KvCluster.late_run evs hab).gets t g ht hg).trans hfloor⟩
  · have hputs : PutsOK n (G.L.history (majority n)) (.run n cfg (evs.take b)) :=
      KvCluster.run_induction putsOK_init (fun b ev hev h => h.step (hG b).1 (hshare b ev hev)) b
    obtain ⟨q, hq, hmax, hop⟩ := (hputs.calls t p hp).acked reply hphase hok
    refine ⟨q, hq, hmax, hop, fun a hab ht hterm => ?_⟩
    have hplace : p.phase.hasPlace = true := by
      rw [hphase]
      exact decide_eq_true hok
    obtain ⟨q', hq', hfresh⟩ := (hputs.calls t p hp).placed hplace
    have hqq : q' = q := by omega
    have hlate := (KvCluster.late_run evs hab).puts t p ht hp
    have hfloor := hfresh (hqq ▸ hterm)
    omega

end

/-- What is read at the node that installed the snapshot is what was put, by the first entry of the history. -/
theorem kv_linearizable_read_back : ∃ H : Nat → LogEntry,
    (storeAfter smallLimits H 1).lookup [7] = { err := .kOK, value := [8, 9] } ∧
      ∃ op, KVServer.opOf (Raft.commandMsg 1 (H 0)) = some op ∧ op.clientId = 1 ∧ op.seqId = 1 := by
  have hget : (KvCluster.run 3 smallLimits putRun).gets.map (fun g => (g.key, g.reply)) =
      [([7], some (1, { err := .kOK, value := [8, 9] }))] := by decide +kernel
  have hput : (KvCluster.run 3 smallLimits putRun).puts.map
      (fun p => (p.op.clientId, p.op.seqId, p.index, p.phase)) = [(1, 1, 1, .returned { err := .kOK })] := by
    decide +kernel
  obtain ⟨H, -, hgets, hputs⟩ := kv_linearizable 3 smallLimits (by decide) static_putRun sized_putRun intact_putRun
  obtain ⟨g, hg, hreply⟩ := List.map_eq_singleton_iff.mp hget
  obtain ⟨p, hp, hphase⟩ := List.map_eq_singleton_iff.mp hput
  obtain ⟨hkey, hreply⟩ := Prod.mk.inj hreply
  obtain ⟨hcid, hphase⟩ := Prod.mk.inj hphase
  obtain ⟨hseq, hphase⟩ := Prod.mk.inj hphase
  obtain ⟨hindex, hphase⟩ := Prod.mk.inj hphase
  rw [← List.take_length (l := putRun)] at hg hp
  obtain ⟨q, hq, hlookup, -⟩ := hgets (by decide +kernel) putRun.length 0 g 1 _ (by rw [hg]; rfl) hreply (.inl rfl)
  obtain ⟨q', hq', -, ⟨op, hop, hcid', hseq'⟩, -⟩ := hputs (by decide +kernel) putRun.length 0 p _ (by rw [hp]; rfl)
    hphase rfl
  obtain rfl : q = 1 := by omega
  obtain rfl : q' = 0 := by omega
  exact ⟨H, by rw [← hkey, ← hlookup], op, hop, hcid'.trans hcid, hseq'.trans hseq⟩

end ChonKV
