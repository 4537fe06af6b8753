import ChonKV.Kv.Recovery
import ChonKV.Kv.Replicated

/-!
Every server stands where Raft takes it to stand, with the state that the history gives: the applier never ends the
process, not after a restart and not at an installed snapshot.
-/

set_option autoImplicit false

namespace ChonKV

open Ballot Ballot.Ledger
open Function (update)

/-- The server is where the upper layer in the model of Raft is. -/
def Coupled (s : Server (Option KVState)) (kv : KVServer) : Prop :=
  s.states.getLast? = some (kv.lastCmdIndex, some kv.state)

section
variable {n : Nat} {cfg : KvConfig} {E : Record} {G G' : Ghost} {k : KvCluster} {c : Cluster (Option KVState)} {i : Nat}
  {s s' : Server (Option KVState)} {kv kv' : KVServer} {ev : KvEvent} {evs : List KvEvent}

theorem Coupled.lastCmd (h : Coupled s kv) : s.lastCmd = kv.lastCmdIndex := by
  rw [Server.lastCmd, h]
  rfl

theorem Coupled.current (h : Coupled s kv) (svc : Service (Option KVState)) : s.current svc = some kv.state := by
  rw [Server.current, h]
  rfl

/-- `ApplierLoop` installs a snapshot that is not older than the state. -/
theorem KVServer.applierLoop_snapshot {m : ApplyMsg} {t : KVState} (hc : m.commandValid = false)
    (hv : m.snapshotValid = true) (hle : kv.lastCmdIndex ≤ m.snapshotIndex)
    (h : kv.state.applySnapshot m.snapshot = some t) :
    ∃ kv', kv.applierLoop m = some kv' ∧ kv'.lastCmdIndex = m.snapshotIndex ∧ kv'.state = t := by
  rw [applierLoop, hc, if_neg Bool.false_ne_true, hv, if_pos rfl, applySnapshotMsg, if_neg (not_lt.mpr hle), h]
  exact ⟨_, rfl, rfl, rfl⟩

/-- A server that stands in the history has its limits, and any snapshot of the history brings it on. -/
theorem StateOK.applySnapshot {x y : Int} {t : KVState} {raw : Bytes} {K : Nat → Core} (hd : Draft n E G K)
    (h : StateOK n cfg.service G (x, some t)) (hraw : StateOK n cfg.service G (y, cfg.service.load raw)) :
    ∃ t', cfg.service.load raw = some t' ∧ t.applySnapshot raw = some t' := by
  obtain ⟨l, p, T, -, -, hst⟩ := h.stateAt hd
  obtain ⟨l', p', T', -, -, hload⟩ := hraw.stateAt hd
  have hbound := bounded_stateAt cfg.cap cfg.maxIdleIndex l p
  rw [← Option.some.inj hst] at hbound
  refine ⟨_, hload, ?_⟩
  rw [applySnapshot_congr (t := (KVServer.fresh cfg.cap cfg.maxIdleIndex).state) hbound.cap_eq hbound.idle_eq]
  exact hload

/-- A state of the history that fits is what its snapshot brings back. -/
theorem StateOK.load_encodeSnapshot {K : Nat → Core} {x : Int} {t : KVState} (h : StateOK n cfg.service G (x, some t))
    (hd : Draft n E G K) (hcap : cfg.cap < 2^31) (hfits : StoreFits t) :
    cfg.service.load t.encodeSnapshot = some t := by
  obtain ⟨l, p, T, -, -, hst⟩ := h.stateAt hd
  have hbound := bounded_stateAt cfg.cap cfg.maxIdleIndex l p
  rw [← Option.some.inj hst] at hbound
  exact KVState.applySnapshot_encodeSnapshot hbound.toQueued ⟨hfits.1, hfits.2,
    hbound.rows_le.trans_lt hcap, hbound.fifo_le.trans_lt (by decide)⟩ hbound.cap_eq.symm hbound.idle_eq.symm

/-- `ApplierLoop` takes the next message, and goes on. -/
theorem Coupled.applier {M : Int} {K : Nat → Core} (h : Coupled s kv) (hd : Draft n E G K) (hint : E.intact)
    (hfeed : Feeding n cfg.service E G M s) (hord : InOrder s.lastCmd s.applyCh) {m : ApplyMsg} {rest : List ApplyMsg}
    (hch : s.applyCh = m :: rest) :
    ∃ kv', kv.applierLoop m = some kv' ∧ Coupled (s.consume cfg.service) kv' := by
  obtain ⟨b, hf⟩ := hfeed.fed
  have hstate := hfeed.current hint
  have hcur := h.current cfg.service
  have hlast := h.lastCmd
  rw [hch] at hf hord
  have hstates : ∀ x, (s.states ++ [x]).getLast? = some x := by simp
  have hafter := hord.1
  rw [hlast] at hafter hstate hf
  generalize hx : kv.lastCmdIndex = x at hf
  cases hf with
  | @command l p T e _ _ hset he hfed =>
    have hidx : kv.lastCmdIndex < (Raft.commandMsg ((p+1 : Nat) : Int) e).commandIndex := by
      rw [hx, Raft.commandMsg]
      push_cast
      omega
    refine ⟨kv.applyCommand (Raft.commandMsg ((p+1 : Nat) : Int) e), rfl, ?_⟩
    rw [Coupled, Server.consume_cons hch, hstates, KVServer.lastCmdIndex_applyCommand hidx, hcur]
    refine congrArg (fun t => some (_, some t)) (state_applyCommand_congr ?_ _)
    rfl
  | @snapshot m T _ _ _ hv hc hok hfed =>
    obtain ⟨l, p, hp, -, hset, -, hcont⟩ := hok
    have hload : StateOK n cfg.service G (m.snapshotIndex, cfg.service.load m.snapshot) :=
      ⟨l, p, T, hp, hset, (hcont hint).2⟩
    rw [hcur] at hstate
    obtain ⟨t', ht', happly⟩ := hstate.applySnapshot hd hload
    rw [ApplyMsg.After, hc, if_neg Bool.false_ne_true] at hafter
    obtain ⟨kv', hloop, hlast', hst'⟩ := KVServer.applierLoop_snapshot hc hv hafter.2 happly
    refine ⟨kv', hloop, ?_⟩
    rw [Coupled, Server.consume_cons hch, hstates, hc, if_neg Bool.false_ne_true, ht', hlast', hst']

/-- The constructor brings a server up from any snapshot of the history. -/
theorem boot_coupled {K : Nat → Core} (hd : Draft n E G K) {x : Int} {raw : Bytes}
    (h : StateOK n cfg.service G (x, if 0 < x then cfg.service.load raw else cfg.service.init)) :
    ∃ kv, (KVServer.fresh cfg.cap cfg.maxIdleIndex).boot x raw = some kv ∧
      kv.lastCmdIndex = x ∧ (if 0 < x then cfg.service.load raw else cfg.service.init) = some kv.state := by
  obtain ⟨l, p, T, hp, -, hst⟩ := h.stateAt hd
  rw [KVServer.boot]
  by_cases hx : 0 < x
  · rw [if_pos hx] at hst
    have hload : (KVServer.fresh cfg.cap cfg.maxIdleIndex).state.applySnapshot raw = _ := hst
    have hne : raw ≠ [] := by
      rintro rfl
      rw [KVServer.applySnapshot_nil] at hload
      cases hload
    rw [if_pos hx, if_pos hx, if_neg hne, hload]
    exact ⟨_, rfl, rfl, hload⟩
  · rw [if_neg hx, if_neg hx]
    refine ⟨_, rfl, ?_, rfl⟩
    have hzero : x = 0 := by omega
    rw [hzero]
    rfl

/-- Events that move the upper layer on. -/
def Event.moves : Event → Bool
  | .consume _ | .restart .. => true
  | _ => false

/-- The node whose server an event moves on. -/
def KvEvent.mover : KvEvent → Option Nat
  | .applier i | .restart i _ => some i
  | _ => none

namespace KvCluster

/-- Where a stretch of Raft comes from that moves the upper layer on. -/
theorem raftEvent_cases {e : Event} (he : k.raftEvent n cfg ev = some e) : e.moves = false ∨
    (∃ i, ev = .applier i ∧ e = .consume i) ∨
    ∃ i now, ev = .restart i now ∧ e = .restart i now := by
  cases ev with
  | raft e' =>
    dsimp only [raftEvent] at he
    split_ifs at he with hin
    cases he
    cases e with
    | consume i => cases hin
    | restart i now => cases hin
    | _ => exact .inl rfl
  | applier i =>
    dsimp only [raftEvent] at he
    split at he
    · split at he
      · cases he
        exact .inr (.inl ⟨i, rfl, rfl⟩)
      · cases he
        exact .inl rfl
    · cases he
  | snapshot t =>
    dsimp only [raftEvent] at he
    split at he
    · split_ifs at he
      cases he
      exact .inl rfl
    · cases he
  | get i key now =>
    dsimp only [raftEvent] at he
    split_ifs at he
    cases he
    exact .inl rfl
  | propose t =>
    dsimp only [raftEvent] at he
    split at he
    · obtain ⟨-, -, rfl⟩ := Option.map_eq_some_iff.mp he
      exact .inl rfl
    · cases he
  | kill i =>
    cases he
    exact .inl rfl
  | restart i now =>
    obtain ⟨-, -, rfl⟩ := Option.map_eq_some_iff.mp he
    exact .inr (.inr ⟨i, now, rfl, rfl⟩)
  | _ => cases he

variable {j : Nat}

/-- What a step of the servers makes of what node `j` has of its upper layer. -/
inductive Moved (n : Nat) (cfg : KvConfig) (k : KvCluster) (j : Nat) (ev : KvEvent)
    (s' : Server (Option KVState)) : Prop
  | still (hst : s'.states = (k.raft.nodes j).states) (hinc : s'.inc = (k.raft.nodes j).inc)
  | consume (hev : ev = .applier j) (h : s' = (k.raft.nodes j).consume cfg.service)
  | reboot (now : Int) (r : Raft) (hev : ev = .restart j now)
      (hk : (k.raft.nodes j).raft.killed = true) (h : s' = (k.raft.nodes j).reboot cfg.service r)

/-- A stretch of node `i` is none of another node. -/
theorem moved_on {f : Server (Option KVState) → Server (Option KVState)}
    (h : Moved n cfg k i ev (f (k.raft.nodes i))) (j : Nat) :
    Moved n cfg k j ev ((k.raft.on n i fun s => { node := f s }).nodes j) := by
  by_cases hi : i < n
  · by_cases hji : j = i
    · subst hji
      rwa [nodes_on hi]
    · rw [Cluster.on, if_pos hi]
      have hsame : (k.raft.put i { node := f (k.raft.nodes i) }).nodes j = k.raft.nodes j :=
        Function.update_of_ne hji _ _
      rw [hsame]
      exact .still rfl rfl
  · rw [Cluster.on, if_neg hi]
    exact .still rfl rfl

theorem states_passSnapshot (s : Server (Option KVState)) (index : Int) (data : Bytes) :
    (s.passSnapshot index data).states = s.states ∧ (s.passSnapshot index data).inc = s.inc := by
  rw [Server.passSnapshot]
  split <;> exact ⟨rfl, rfl⟩

theorem lower_moved (n : Nat) (cfg : KvConfig) (k : KvCluster) (ev : KvEvent) (j : Nat) :
    Moved n cfg k j ev ((k.lower n cfg ev).nodes j) := by
  have hevent : (∀ i now, ev ≠ .restart i now) → Moved n cfg k j ev
      (((k.raftEvent n cfg ev).toList.foldl (Cluster.step n cfg.service) k.raft).nodes j) := by
    intro hne
    cases he : k.raftEvent n cfg ev with
    | none => exact .still rfl rfl
    | some e =>
      rw [Option.toList_some, List.foldl_cons, List.foldl_nil]
      have hfares := k.raft.fares n cfg.service e j
      generalize (k.raft.step n cfg.service e).nodes j = s' at hfares
      have hcases := raftEvent_cases he
      cases hfares with
      | same h => exact .still h.2.1 h.2.2
      | push now hraft hch hst hinc => exact .still hst hinc
      | consume h =>
        obtain hmoves | ⟨i, rfl, heq⟩ | ⟨i, now, -, heq⟩ := hcases
        · cases hmoves
        · cases heq
          exact .consume rfl h
        · cases heq
      | restart now hk h =>
        obtain hmoves | ⟨i, -, heq⟩ | ⟨i, now', hev, -⟩ := hcases
        · cases hmoves
        · cases heq
        · exact absurd hev (hne i now')
  cases ev with
  | snapshot t =>
    dsimp only [lower]
    split
    · split_ifs
      · next b _ _ =>
        obtain ⟨hst, hinc⟩ := states_passSnapshot (k.raft.nodes b.node) b.index b.data
        exact moved_on (.still hst hinc) j
      · exact .still rfl rfl
    · exact .still rfl rfl
  | restart i now =>
    dsimp only [lower]
    split
    · next r kv _ =>
      refine moved_on ?_ j
      split_ifs with hk
      · exact .reboot now r rfl hk rfl
      · exact .still rfl rfl
    · exact .still rfl rfl
  | _ => exact hevent (by simp)

/-- Raft keeps what it has of the upper layer of a node, unless the event is about the server of the node. -/
theorem lower_states (k : KvCluster) (h : ev.mover ≠ some j) :
    ((k.lower n cfg ev).nodes j).states = (k.raft.nodes j).states ∧
      ((k.lower n cfg ev).nodes j).inc = (k.raft.nodes j).inc := by
  cases lower_moved n cfg k ev j with
  | still hst hinc => exact ⟨hst, hinc⟩
  | consume hev _ =>
    rw [hev] at h
    exact absurd rfl h
  | reboot now r hev _ _ =>
    rw [hev] at h
    exact absurd rfl h

theorem on_congr {σ : Type} {c : Cluster σ} {f g : Server σ → Effect σ} (h : i < n → f (c.nodes i) = g (c.nodes i)) :
    c.on n i f = c.on n i g := by
  unfold Cluster.on
  split_ifs with hi
  · rw [h hi]
  · rfl

/-- Where the snapshot that is passed to Raft loads back, and the files of the node that comes up fit, a step is one of
Raft. -/
theorem ofRaft (hsnap : ∀ t b, ev = .snapshot t → k.snapshots[t]? = some b → b.node < n →
      b.inc = (k.raft.nodes b.node).inc → (b.index, cfg.service.load b.data) ∈ (k.raft.nodes b.node).states)
    (hdisk : ∀ i now, ev = .restart i now → i < n → (k.raft.nodes i).raft.killed = true →
      Raft.makeOfFiles n i (k.raft.nodes i).saved now = some (Raft.make n i (k.raft.nodes i).saved now)) :
    k.OfRaft n cfg ev := by
  cases ev with
  | snapshot t =>
    dsimp only [OfRaft, lower, raftEvent]
    split
    · next b hb =>
      split_ifs with hinc
      · rw [Option.toList_some, List.foldl_cons, List.foldl_nil, Cluster.step]
        refine on_congr fun hi => ?_
        rw [Server.takeSnapshot_of_mem (hsnap t b rfl hb hi hinc)]
      · rfl
    · rfl
  | restart i now =>
    dsimp only [OfRaft, lower, raftEvent]
    cases hup : k.comeUp n cfg i now with
    | none => rfl
    | some x =>
      rw [Option.map_some, Option.toList_some, List.foldl_cons, List.foldl_nil, Cluster.step]
      refine on_congr fun hi => ?_
      cases hk : (k.raft.nodes i).raft.killed with
      | false => simp [Server.restart, hk]
      | true =>
        rw [comeUp, hdisk i now rfl hi hk, Option.bind_some] at hup
        obtain ⟨kv, -, hx⟩ := Option.map_eq_some_iff.mp hup
        simp [Server.restart_of_killed hk, ← hx]
  | _ => rfl

theorem lower_applier (cfg : KvConfig) (hi : i < n) {m : ApplyMsg} {rest : List ApplyMsg} (hkv : k.servers i = some kv)
    (hch : (k.raft.nodes i).applyCh = m :: rest) (hloop : kv.applierLoop m = some kv') :
    (k.lower n cfg (.applier i)).nodes i = (k.raft.nodes i).consume cfg.service := by
  have he : k.raftEvent n cfg (.applier i) = some (.consume i) := by
    simp only [raftEvent, hkv, hch, hloop]
  dsimp only [lower]
  rw [he, Option.toList_some, List.foldl_cons, List.foldl_nil]
  dsimp only [Cluster.step]
  rw [nodes_on hi]

theorem lower_restart (hi : i < n) {now : Int} {r : Raft} (hup : k.comeUp n cfg i now = some (r, kv)) :
    (k.lower n cfg (.restart i now)).nodes i =
      if (k.raft.nodes i).raft.killed then (k.raft.nodes i).reboot cfg.service r else k.raft.nodes i := by
  dsimp only [lower]
  rw [hup]
  dsimp only
  rw [nodes_on hi]

/-- The threads of a server leave its state to `ApplierLoop`. -/
theorem upper_server (n : Nat) (cfg : KvConfig) (c : Cluster (Option KVState)) (h : ev.mover ≠ some j) (hkv : k.servers j = some kv) :
    ∃ kv', (k.upper n cfg c ev).servers j = some kv' ∧ kv'.lastCmdIndex = kv.lastCmdIndex ∧ kv'.state = kv.state := by
  have hput : ∀ {i : Nat} {kv₀ kv₁ : KVServer}, k.servers i = some kv₀ → kv₁.lastCmdIndex = kv₀.lastCmdIndex →
      kv₁.state = kv₀.state → ∃ kv', update k.servers i (some kv₁) j = some kv' ∧
        kv'.lastCmdIndex = kv.lastCmdIndex ∧ kv'.state = kv.state := by
    intro i kv₀ kv₁ hkv₀ hlast hstate
    by_cases hji : j = i
    · subst hji
      rw [hkv₀] at hkv
      cases hkv
      exact ⟨kv₁, Function.update_self _ _ _, hlast, hstate⟩
    · exact ⟨kv, (Function.update_of_ne hji _ _).trans hkv, rfl, rfl⟩
  have hmap : ∀ (i : Nat) (f : KVServer → KVServer), (∀ kv, (f kv).lastCmdIndex = kv.lastCmdIndex ∧
      (f kv).state = kv.state) → ∃ kv', update k.servers i ((k.servers i).map f) j = some kv' ∧
        kv'.lastCmdIndex = kv.lastCmdIndex ∧ kv'.state = kv.state := by
    intro i f hf
    by_cases hji : j = i
    · subst hji
      rw [Function.update_self, hkv]
      exact ⟨f kv, rfl, hf kv⟩
    · exact ⟨kv, (Function.update_of_ne hji _ _).trans hkv, rfl, rfl⟩
  have hstay : ∃ kv', k.servers j = some kv' ∧ kv'.lastCmdIndex = kv.lastCmdIndex ∧ kv'.state = kv.state :=
    ⟨kv, hkv, rfl, rfl⟩
  cases ev with
  | applier i =>
    have hji : j ≠ i := fun heq => h (congrArg some heq.symm)
    dsimp only [upper]
    split
    · exact ⟨kv, (Function.update_of_ne hji _ _).trans hkv, rfl, rfl⟩
    · exact hstay
  | restart i now =>
    have hji : j ≠ i := fun heq => h (congrArg some heq.symm)
    dsimp only [upper]
    split
    · exact ⟨kv, (Function.update_of_ne hji _ _).trans hkv, rfl, rfl⟩
    · exact hstay
  | putAppend i args =>
    dsimp only [upper]
    split
    · split_ifs <;> exact hstay
    · exact hstay
  | force i =>
    dsimp only [upper]
    split <;> exact hstay
  | get i key now =>
    dsimp only [upper]
    split <;> exact hstay
  | getTurn t timedOut =>
    dsimp only [upper]
    split
    · split <;> exact hstay
    · exact hstay
  | propose t =>
    dsimp only [upper]
    split
    · split <;> exact hstay
    · exact hstay
  | register t =>
    dsimp only [upper]
    split
    · split
      · next kv₀ hs hphase => exact hput (server_some hs).2 rfl rfl
      · exact hstay
    · exact hstay
  | waitTurn t timedOut =>
    dsimp only [upper]
    split
    · split
      · next kv₀ hs hphase =>
        split
        · exact hput (server_some hs).2 rfl rfl
        · exact hstay
      · exact hstay
    · exact hstay
  | kill i => exact hmap i _ fun _ => ⟨rfl, rfl⟩
  | release i =>
    refine hmap i _ fun kv₀ => ?_
    split <;> exact ⟨rfl, rfl⟩
  | _ => exact hstay

end KvCluster

/-- What is waiting to be passed to Raft was encoded from a state that its node went through, and fits. -/
def SnapCall.OK (b : SnapCall) (s : Server (Option KVState)) : Prop :=
  b.inc ≤ s.inc ∧ (b.inc = s.inc →
    ∃ t : KVState, (b.index, some t) ∈ s.states ∧ b.data = t.encodeSnapshot ∧ StoreFits t)

theorem SnapCall.OK.mono {b : SnapCall} (h : b.OK s) (hinc : s'.inc = s.inc) (hst : ∀ x ∈ s.states, x ∈ s'.states) :
    b.OK s' := by
  rw [OK, hinc]
  refine ⟨h.1, fun heq => ?_⟩
  obtain ⟨t, ht, hdata, hfits⟩ := h.2 heq
  exact ⟨t, hst _ ht, hdata, hfits⟩

/-- The invariant of a run of the servers. -/
structure KvSound (n : Nat) (cfg : KvConfig) (E : Record) (G : Ghost) (k : KvCluster) : Prop where
  sound : Sound n cfg.service E G k.raft
  peaked : Peaked n G k.raft
  feeds : k.raft.Feeds n cfg.service E G
  ordered : k.raft.Ordered n
  servers : ∀ i < n, ∃ kv, k.servers i = some kv ∧ Coupled (k.raft.nodes i) kv
  snapshots : ∀ b ∈ k.snapshots, b.node < n → b.OK (k.raft.nodes b.node)

theorem kvSound_init (n : Nat) (cfg : KvConfig) (E : Record) : KvSound n cfg E Ghost.start (KvCluster.init n cfg) where
  sound := sound_init n cfg.service E
  peaked := peaked_init n cfg.service
  feeds := feeds_init n cfg.service E
  ordered := ordered_init n cfg.service
  servers _ _ := ⟨_, rfl, rfl⟩
  snapshots _ hb := absurd hb List.not_mem_nil

/-- The record covers what an event shows. -/
def KvCluster.CoveredBy (n : Nat) (cfg : KvConfig) (k : KvCluster) (E : Record) (ev : KvEvent) : Prop :=
  ∀ e, k.raftEvent n cfg ev = some e → Covers n cfg.service E k.raft e

/-- Where nothing outgrows its counts, what is passed to Raft is a snapshot of the upper layer, and a step is one of
Raft. -/
theorem KvSound.ofRaft (h : KvSound n cfg E G k) (hint : E.intact) (hcap : cfg.cap < 2^31)
    (hdisk : k.DiskFits n ev) : k.OfRaft n cfg ev := by
  refine KvCluster.ofRaft (fun t b _ hb hi hinc => ?_) fun i now hev hi hk => ?_
  · obtain ⟨t, ht, hdata, hfits⟩ := (h.snapshots b (List.mem_of_getElem? hb) hi).2 hinc
    rwa [hdata, ((h.feeds b.node hi).states hint _ ht).load_encodeSnapshot h.sound.inv.toDraft hcap hfits]
  · subst hev
    exact Raft.makeOfFiles_eq_make n i (h.sound.saved_memory hi hk) (hdisk hi hk) now

/-- Raft under a step of the servers. -/
theorem KvSound.lower (h : KvSound n cfg E G k) (hint : E.intact) (hcap : cfg.cap < 2^31) (hdisk : k.DiskFits n ev)
    (hstatic : ev.isStatic = true) (hc : k.CoveredBy n cfg E ev) :
    ∃ G', G.Le E G' ∧ Sound n cfg.service E G' (k.lower n cfg ev) ∧ Peaked n G' (k.lower n cfg ev) ∧
      (k.lower n cfg ev).Feeds n cfg.service E G' ∧ (k.lower n cfg ev).Ordered n := by
  rw [show k.lower n cfg ev = _ from h.ofRaft hint hcap hdisk]
  cases he : k.raftEvent n cfg ev with
  | none => exact ⟨G, .refl E G, h.sound, h.peaked, h.feeds, h.ordered⟩
  | some e =>
    have he' := KvCluster.static_raftEvent hstatic he
    obtain ⟨G', hle, hd⟩ := h.sound.step he' (hc e he)
    have hp := h.peaked.step h.sound he' hle hd
    exact ⟨G', hle, hd, hp, h.feeds.step h.sound hle hd hp.toCeiled, h.ordered.step h.sound e⟩

/-- The server that comes up after a crash. -/
theorem KvSound.comeUp (h : KvSound n cfg E G k) (hint : E.intact) (hi : i < n) {now : Int}
    (hdisk : k.DiskFits n (.restart i now)) (hk : (k.raft.nodes i).raft.killed = true) :
    ∃ r kv, k.comeUp n cfg i now = some (r, kv) ∧ Coupled ((k.raft.nodes i).reboot cfg.service r) kv := by
  obtain ⟨G', hle, hd⟩ := h.sound.restart hi now
  have hnode : (k.raft.put i { node := (k.raft.nodes i).restart cfg.service n i now }).nodes i =
      (k.raft.nodes i).reboot cfg.service (Raft.make n i (k.raft.nodes i).saved now) := by
    rw [← Server.restart_of_killed hk]
    exact Function.update_self _ _ _
  have hfeed := (hd.nodes i hi).feed
  rw [hnode] at hfeed
  have hstate := (hfeed (fresh_make i _ now).alive).states hint _ (List.mem_singleton_self _)
  obtain ⟨kv, hkv, hlast, hst⟩ := boot_coupled hd.inv.toDraft hstate
  refine ⟨Raft.make n i (k.raft.nodes i).saved now, kv, ?_, ?_⟩
  · rw [KvCluster.comeUp, Raft.makeOfFiles_eq_make n i (h.sound.saved_memory hi hk) (hdisk hi hk) now,
      Option.bind_some, hkv]
    rfl
  · rw [Coupled, Server.reboot, List.getLast?_singleton, hlast, hst]

/-- A step of the servers. -/
theorem KvSound.servers_step (h : KvSound n cfg E G k) (hint : E.intact) (hdisk : k.DiskFits n ev) (hi : i < n) :
    ∃ kv, (k.step n cfg ev).servers i = some kv ∧ Coupled ((k.lower n cfg ev).nodes i) kv := by
  obtain ⟨kv, hkv, hcoup⟩ := h.servers i hi
  have hstay : ev.mover ≠ some i → ∃ kv, (k.step n cfg ev).servers i = some kv ∧
      Coupled ((k.lower n cfg ev).nodes i) kv := by
    intro hm
    obtain ⟨kv', hkv', hlast, hstate⟩ := KvCluster.upper_server n cfg (k.lower n cfg ev) hm hkv
    refine ⟨kv', hkv', ?_⟩
    rw [Coupled, (k.lower_states hm).1, hlast, hstate]
    exact hcoup
  cases ev with
  | applier j =>
    by_cases hji : j = i
    swap
    · exact hstay fun heq => hji (Option.some.inj heq)
    subst hji
    cases hch : (k.raft.nodes j).applyCh with
    | nil =>
      have hlower : k.lower n cfg (.applier j) = k.raft := by
        simp only [KvCluster.lower, KvCluster.raftEvent, hkv, hch, Option.toList_none, List.foldl_nil]
      have hstep : (k.step n cfg (.applier j)).servers j = some kv := by
        simp only [KvCluster.step, KvCluster.upper, hkv, hch]
      exact ⟨kv, hstep, hlower ▸ hcoup⟩
    | cons m rest =>
      obtain ⟨kv', hloop, hcoup'⟩ := hcoup.applier h.sound.inv.toDraft hint (h.feeds j hi) (h.ordered j hi) hch
      have hstep : (k.step n cfg (.applier j)).servers j = some kv' := by
        simp only [KvCluster.step, KvCluster.upper, hkv, hch, hloop, Function.update_self]
      rw [KvCluster.lower_applier cfg hi hkv hch hloop]
      exact ⟨kv', hstep, hcoup'⟩
  | restart j now =>
    by_cases hji : j = i
    swap
    · exact hstay fun heq => hji (Option.some.inj heq)
    subst hji
    cases hk : (k.raft.nodes j).raft.killed with
    | true =>
      obtain ⟨r, kv', hup, hcoup'⟩ := h.comeUp hint hi hdisk hk
      have hstep : (k.step n cfg (.restart j now)).servers j = some kv' := by
        simp only [KvCluster.step, KvCluster.upper, hk, hi, and_self, ↓reduceIte, hup, Function.update_self,
          Option.map_some]
      rw [KvCluster.lower_restart hi hup, if_pos hk]
      exact ⟨kv', hstep, hcoup'⟩
    | false =>
      have hstep : (k.step n cfg (.restart j now)).servers j = some kv := by
        simp only [KvCluster.step, KvCluster.upper, hk, Bool.false_eq_true, false_and, ↓reduceIte, hkv]
      refine ⟨kv, hstep, ?_⟩
      cases hup : k.comeUp n cfg j now with
      | none =>
        simp only [KvCluster.lower, hup]
        exact hcoup
      | some x =>
        rw [KvCluster.lower_restart hi hup, if_neg (by simp [hk])]
        exact hcoup
  | _ => exact hstay (by simp [KvEvent.mover])

theorem SnapCall.OK.lower {b : SnapCall} (h : b.OK (k.raft.nodes b.node)) : b.OK ((k.lower n cfg ev).nodes b.node) := by
  have hmoved := KvCluster.lower_moved n cfg k ev b.node
  generalize (k.lower n cfg ev).nodes b.node = s' at hmoved
  cases hmoved with
  | still hst hinc => exact h.mono hinc fun x hx => hst ▸ hx
  | consume _ hs =>
    rw [hs]
    cases hch : (k.raft.nodes b.node).applyCh with
    | nil => rwa [Server.consume_nil hch]
    | cons m rest =>
      rw [Server.consume_cons hch]
      exact h.mono rfl fun x hx => List.mem_append_left _ hx
  | reboot now r _ _ hs =>
    -- the thread is gone
    have hinc : s'.inc = (k.raft.nodes b.node).inc + 1 := by rw [hs, Server.reboot]
    rw [OK, hinc]
    exact ⟨h.1.trans (Nat.le_succ _), fun heq => absurd (heq ▸ h.1) (Nat.not_succ_le_self _)⟩

/-- What `PrepareSnapshotLocked` takes is the state after the command. -/
theorem KVServer.prepareSnapshot_some {m : ApplyMsg} {size : UInt64} {maxraftstate : Int32} {b : Int × Bytes}
    (h : kv.prepareSnapshot m size maxraftstate = some b) :
    b.1 = m.commandIndex ∧ b.2 = (kv.applyCommand m).state.encodeSnapshot := by
  rw [prepareSnapshot] at h
  split at h
  · cases h
  · next op hop =>
    split_ifs at h
    cases h
    rw [state_applyCommand, hop]
    exact ⟨rfl, rfl⟩

theorem KvSound.snapshots_step (h : KvSound n cfg E G k) (hint : E.intact) (hfit : k.StoresFit n)
    (hfit' : (k.step n cfg ev).StoresFit n) :
    ∀ b ∈ (k.step n cfg ev).snapshots, b.node < n → b.OK ((k.lower n cfg ev).nodes b.node) := by
  have hold : ∀ b ∈ k.snapshots, b.node < n → b.OK ((k.lower n cfg ev).nodes b.node) := fun b hb hi =>
    (h.snapshots b hb hi).lower
  cases ev with
  | applier i =>
    intro b hb hi
    dsimp only [KvCluster.step, KvCluster.upper] at hb
    split at hb
    · next kv m rest hkv hch =>
      rcases List.mem_append.mp hb with hb | hb
      · exact hold b hb hi
      obtain ⟨x, hx, rfl⟩ := List.mem_map.mp hb
      rw [Option.mem_toList] at hx
      split_ifs at hx with hcmd
      obtain ⟨hidx, hdata⟩ := KVServer.prepareSnapshot_some hx
      obtain ⟨kv₀, hkv₀, hcoup⟩ := h.servers i hi
      rw [hkv] at hkv₀
      cases hkv₀
      obtain ⟨kv', hloop, hcoup'⟩ := hcoup.applier h.sound.inv.toDraft hint (h.feeds i hi) (h.ordered i hi) hch
      have hlower := KvCluster.lower_applier cfg hi hkv hch hloop
      have hstep : (k.step n cfg (.applier i)).servers i = some kv' := by
        simp only [KvCluster.step, KvCluster.upper, hkv, hch, hloop, Function.update_self]
      have hlast := (Server.consume_last cfg.service hch).1
      rw [hcoup'.lastCmd, ApplyMsg.index, if_pos hcmd] at hlast
      rw [KVServer.applierLoop, if_pos hcmd] at hloop
      cases hloop
      show SnapCall.OK _ ((k.lower n cfg (.applier i)).nodes i)
      rw [hlower, SnapCall.OK, Server.consume_cons hch]
      refine ⟨le_rfl, fun _ => ⟨(kv.applyCommand m).state, ?_, hdata, hfit' i hi _ hstep⟩⟩
      have hmem := List.mem_of_getLast? hcoup'
      rwa [hlast, ← hidx, Server.consume_cons hch] at hmem
    · exact hold b hb hi
  | force i =>
    intro b hb hi
    dsimp only [KvCluster.step, KvCluster.upper] at hb
    split at hb
    · next kv hkv =>
      rcases List.mem_append.mp hb with hb | hb
      · exact hold b hb hi
      rw [List.mem_singleton.mp hb] at hi ⊢
      obtain ⟨kv₀, hkv₀, hcoup⟩ := h.servers i hi
      rw [hkv] at hkv₀
      cases hkv₀
      exact ⟨le_rfl, fun _ => ⟨kv.state, List.mem_of_getLast? hcoup, rfl, hfit i hi kv hkv⟩⟩
    · exact hold b hb hi
  | snapshot t => exact fun b hb => hold b (List.mem_of_mem_eraseIdx hb)
  | get i key now =>
    dsimp only [KvCluster.step, KvCluster.upper]
    split <;> exact hold
  | putAppend i args =>
    dsimp only [KvCluster.step, KvCluster.upper]
    split
    · split_ifs <;> exact hold
    · exact hold
  | restart i now =>
    dsimp only [KvCluster.step, KvCluster.upper]
    split <;> exact hold
  | getTurn t timedOut | propose t | register t =>
    dsimp only [KvCluster.step, KvCluster.upper]
    split
    · split <;> exact hold
    · exact hold
  | waitTurn t timedOut =>
    dsimp only [KvCluster.step, KvCluster.upper]
    split
    · split
      · split <;> exact hold
      · exact hold
    · exact hold
  | _ => exact hold

/-- Every step of a run with a static membership in which no checksum took one snapshot for another, and nothing outgrows
its counts. -/
theorem KvSound.step (h : KvSound n cfg E G k) (hint : E.intact) (hcap : cfg.cap < 2^31) (hfit : k.StoresFit n)
    (hdisk : k.DiskFits n ev) (hfit' : (k.step n cfg ev).StoresFit n) (hstatic : ev.isStatic = true)
    (hc : k.CoveredBy n cfg E ev) :
    ∃ G', G.Le E G' ∧ KvSound n cfg E G' (k.step n cfg ev) := by
  obtain ⟨G', hle, hs, hp, hf, ho⟩ := h.lower hint hcap hdisk hstatic hc
  refine ⟨G', hle, ?_, ?_, ?_, ?_, fun i hi => ?_, ?_⟩
  · rwa [KvCluster.raft_step]
  · rwa [KvCluster.raft_step]
  · rwa [KvCluster.raft_step]
  · rwa [KvCluster.raft_step]
  · rw [KvCluster.raft_step]
    exact h.servers_step hint hdisk hi
  · rw [KvCluster.raft_step]
    exact h.snapshots_step hint hfit hfit'

end
end ChonKV
