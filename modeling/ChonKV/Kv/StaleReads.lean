import ChonKV.Kv.Linear

/-!
`GetStale` asks nobody: what it may answer is the store after some beginning of the history, and one incarnation of a
server never goes back to an earlier one.
-/

set_option autoImplicit false

namespace ChonKV

open Ballot Ballot.Ledger

/-- What the upper layer takes comes after what it has. -/
theorem Server.lastCmd_consume {σ : Type} (svc : Service σ) {s : Server σ} (h : InOrder s.lastCmd s.applyCh) :
    s.lastCmd ≤ (s.consume svc).lastCmd := by
  cases hch : s.applyCh with
  | nil => rw [Server.consume_nil hch]
  | cons m rest =>
    rw [(Server.consume_last svc hch).1]
    rw [hch] at h
    have hafter := h.1
    unfold ApplyMsg.After at hafter
    unfold ApplyMsg.index
    split_ifs at hafter ⊢
    · omega
    · exact hafter.2

section
variable {n : Nat} {cfg : KvConfig} {E : Record} {G : Ghost} {k : KvCluster} {ev : KvEvent} {evs : List KvEvent}

/-- The upper layer of one incarnation goes on. -/
theorem KvCluster.lower_lastCmd (h : k.raft.Ordered n) {i : Nat} (hi : i < n)
    (hinc : ((k.lower n cfg ev).nodes i).inc = (k.raft.nodes i).inc) :
    (k.raft.nodes i).lastCmd ≤ ((k.lower n cfg ev).nodes i).lastCmd := by
  have hmoved := k.lower_moved n cfg ev i
  generalize (k.lower n cfg ev).nodes i = s' at hinc hmoved
  cases hmoved with
  | still hst => rw [Server.lastCmd, Server.lastCmd, hst]
  | consume _ hs =>
    rw [hs]
    exact Server.lastCmd_consume cfg.service (h i hi)
  | reboot now r _ _ hs =>
    rw [hs, Server.reboot] at hinc
    exact absurd hinc (Nat.succ_ne_self _)

theorem KvCluster.inc_run (n : Nat) (cfg : KvConfig) (evs : List KvEvent) (i : Nat) {a b : Nat} (hab : a ≤ b) :
    ((KvCluster.run n cfg (evs.take a)).raft.nodes i).inc ≤ ((KvCluster.run n cfg (evs.take b)).raft.nodes i).inc := by
  induction b, hab using Nat.le_induction with
  | base => exact le_rfl
  | succ b hab ih =>
    cases hev : evs[b]? with
    | none => rwa [take_succ_of_none hev]
    | some ev =>
      rw [run_take_succ hev, raft_step]
      exact ih.trans (inc_lower n cfg _ ev i)

/-- One incarnation of a server never goes back. -/
theorem KvCluster.lastCmd_run (hsound : ∀ a, (KvCluster.run n cfg (evs.take a)).raft.Ordered n) {i : Nat} (hi : i < n)
    {a b : Nat} (hab : a ≤ b) (hinc : ((KvCluster.run n cfg (evs.take b)).raft.nodes i).inc =
      ((KvCluster.run n cfg (evs.take a)).raft.nodes i).inc) :
    ((KvCluster.run n cfg (evs.take a)).raft.nodes i).lastCmd ≤
      ((KvCluster.run n cfg (evs.take b)).raft.nodes i).lastCmd := by
  induction b, hab using Nat.le_induction with
  | base => exact le_rfl
  | succ b hab ih =>
    have hmono := inc_run n cfg evs i hab
    have hmono' := inc_run n cfg evs i (Nat.le_add_right b 1)
    refine (ih (by omega)).trans ?_
    cases hev : evs[b]? with
    | none => rw [take_succ_of_none hev]
    | some ev =>
      rw [run_take_succ hev, raft_step] at hinc hmono' ⊢
      exact lower_lastCmd (hsound b) hi (by omega)

/-- What `GetStale` may answer. It finds what the store has after some beginning of the history that is committed, never
anything else, and while the server is not restarted a later answer is of no earlier beginning; all this as long as no
store and no file outgrows the counts of its format. -/
theorem stale_reads_forward (n : Nat) (cfg : KvConfig) (hcap : cfg.cap < 2^31) {evs : List KvEvent}
    (hstatic : ∀ ev ∈ evs, ev.isStatic = true) (hsize : (KvCluster.init n cfg).Sized n cfg evs)
    (hint : (KvCluster.recordOf n cfg evs).intact) : ∃ H : Nat → LogEntry, ∀ a b, a ≤ b → ∀ i < n,
    ((KvCluster.run n cfg (evs.take b)).raft.nodes i).inc = ((KvCluster.run n cfg (evs.take a)).raft.nodes i).inc →
    ∃ kv kv' : KVServer, (KvCluster.run n cfg (evs.take a)).servers i = some kv ∧
      (KvCluster.run n cfg (evs.take b)).servers i = some kv' ∧ ∃ p q : Nat, p ≤ q ∧
        (p : Int) ≤ (KvCluster.run n cfg (evs.take a)).raft.maxCommit ∧
        (q : Int) ≤ (KvCluster.run n cfg (evs.take b)).raft.maxCommit ∧ ∀ r key,
          (kv.getStale r key = { (storeAfter cfg H p).lookup key with leaderId := Int32.ofInt r.leaderId }) ∧
          (kv'.getStale r key = { (storeAfter cfg H q).lookup key with leaderId := Int32.ofInt r.leaderId }) ∧
          ((kv.getStale r key).err = .kOK ∨ (kv.getStale r key).err = .kNoKey) := by
  obtain ⟨G', -, hwf, hall⟩ := (kvSound_init n cfg (KvCluster.recordOf n cfg evs)).along hint hcap hsize hstatic
    fun a ev => coveredBy_recordOf n cfg
  refine ⟨G'.L.history (majority n), fun a b hab i hi hinc => ?_⟩
  have hordered : ∀ a, (KvCluster.run n cfg (evs.take a)).raft.Ordered n := fun a => by
    obtain ⟨G₁, -, h, -⟩ := hall a
    exact h.ordered
  obtain ⟨Ga, hlea, ha, -⟩ := hall a
  obtain ⟨Gb, hleb, hb, -⟩ := hall b
  obtain ⟨kv, hkv, p, hp, hpmax, hstate⟩ := (ha.executes hint hcap hlea hwf).servers i hi
  obtain ⟨kv', hkv', q, hq, hqmax, hstate'⟩ := (hb.executes hint hcap hleb hwf).servers i hi
  obtain ⟨kv₀, hkv₀, hcoup⟩ := ha.servers i hi
  obtain ⟨kv₁, hkv₁, hcoup'⟩ := hb.servers i hi
  have hlast : kv₀.lastCmdIndex ≤ kv₁.lastCmdIndex := by
    rw [← hcoup.lastCmd, ← hcoup'.lastCmd]
    exact KvCluster.lastCmd_run hordered hi hab hinc
  have hsame := Option.some.inj (hkv₀.symm.trans hkv)
  have hsame' := Option.some.inj (hkv₁.symm.trans hkv')
  rw [hsame, hsame', hp, hq] at hlast
  refine ⟨kv, kv', hkv, hkv', p, q, by omega, hpmax, hqmax, fun r key => ⟨?_, ?_, ?_⟩⟩
  · rw [KVServer.getStale, hstate]
  · rw [KVServer.getStale, hstate']
  · rw [KVServer.getStale, KVState.lookup]
    split
    · exact .inl rfl
    · exact .inr rfl

end

/-- Node 2 had nothing for the key, and has its value after it installed the snapshot of node 0. -/
theorem stale_reads_forward_put : ∃ (H : Nat → LogEntry) (p q : Nat), p ≤ q ∧
    ((storeAfter smallLimits H p).lookup [7]).err = .kNoKey ∧
    ((storeAfter smallLimits H q).lookup [7]).value = [8, 9] := by
  have hbefore : ((KvCluster.run 3 smallLimits (putRun.take 23)).servers 2).map (fun kv => kv.getStale (.make 3 2 {} 0) [7]) =
      some { err := .kNoKey, leaderId := -1 } := by decide +kernel
  have hafter : ((KvCluster.run 3 smallLimits (putRun.take 32)).servers 2).map (fun kv => kv.getStale (.make 3 2 {} 0) [7]) =
      some { err := .kOK, value := [8, 9], leaderId := -1 } := by decide +kernel
  obtain ⟨H, hH⟩ := stale_reads_forward 3 smallLimits (by decide) static_putRun sized_putRun intact_putRun
  obtain ⟨kv, kv', hkv, hkv', p, q, hpq, -, -, hanswer⟩ := hH 23 32 (by decide) 2 (by decide) (by decide +kernel)
  obtain ⟨hp, hq, -⟩ := hanswer (.make 3 2 {} 0) [7]
  rw [hkv, Option.map_some, hp] at hbefore
  rw [hkv', Option.map_some, hq] at hafter
  exact ⟨H, p, q, hpq, (GetReply.mk.inj (Option.some.inj hbefore)).1, (GetReply.mk.inj (Option.some.inj hafter)).2.1⟩

end ChonKV
