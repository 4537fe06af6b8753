import ChonKV.Cluster.ApplyOrder
import ChonKV.Cluster.CommitPeak

/-!
Where the upper layer of a node stands, and what waits for it: beginnings of the history, none of them beyond what was
committed. It stays so while the upper layer of a node that is down takes what is left.
-/

set_option autoImplicit false

namespace ChonKV

open Ballot Ballot.Ledger
open Function (update)

section
variable {σ : Type} {n : Nat} {svc : Service σ} {E : Record} {G G' : Ghost} {c : Cluster σ} {i : Nat} {s s' : Server σ}
  {M M' : Int}

/-- The upper layer of a node, while nothing beyond `M` was committed. -/
structure Feeding (n : Nat) (svc : Service σ) (E : Record) (G : Ghost) (M : Int) (s : Server σ) : Prop where
  fed : ∃ b, Fed n svc E G s.lastCmd s.applyCh b
  bound : ∀ m ∈ s.applyCh, m.index ≤ M
  reached : s.lastCmd ≤ M
  states : E.intact → ∀ x ∈ s.states, StateOK n svc G x

theorem Feeding.mono (h : Feeding n svc E G M s) (hle : G.Le E G') (hM : M ≤ M') : Feeding n svc E G' M' s where
  fed := h.fed.imp fun _ hf => hf.mono hle
  bound m hm := (h.bound m hm).trans hM
  reached := h.reached.trans hM
  states hint x hx := (h.states hint x hx).mono hle

theorem Feeding.same (h : Feeding n svc E G M s) (hs : s.SameFeed s') : Feeding n svc E G M s' := by
  have hlast : s'.lastCmd = s.lastCmd := by rw [Server.lastCmd, Server.lastCmd, hs.2.1]
  obtain ⟨fed, bound, reached, states⟩ := h
  refine ⟨?_, ?_, ?_, ?_⟩
  · rwa [hlast, hs.1]
  · rwa [hs.1]
  · rwa [hlast]
  · rwa [hs.2.1]

theorem Feeding.current (h : Feeding n svc E G M s) (hint : E.intact) : StateOK n svc G (s.lastCmd, s.current svc) := by
  unfold Server.lastCmd Server.current
  cases hl : s.states.getLast? with
  | none => exact ⟨[], 0, 0, rfl, .inl rfl, rfl⟩
  | some x => exact h.states hint x (List.mem_of_getLast? hl)

/-- After a message the upper layer stands where the message says. -/
theorem Server.consume_last (svc : Service σ) {m : ApplyMsg} {rest : List ApplyMsg} (hch : s.applyCh = m :: rest) :
    (s.consume svc).lastCmd = m.index ∧ (s.consume svc).applyCh = rest := by
  simp only [Server.consume_cons hch, Server.lastCmd, ApplyMsg.index, List.getLast?_append, List.getLast?_singleton,
    Option.some_or, Option.map_some, Option.getD_some]
  split_ifs <;> exact ⟨rfl, trivial⟩

theorem Server.consume_nil (hch : s.applyCh = []) : s.consume svc = s := by
  unfold Server.consume
  rw [hch]

theorem Feeding.consume {K : Nat → Core} (h : Feeding n svc E G M s) (hd : Draft n E G K) :
    Feeding n svc E G M (s.consume svc) := by
  cases hch : s.applyCh with
  | nil =>
    rw [Server.consume_nil hch]
    exact h
  | cons m rest =>
    obtain ⟨hlast, hrest⟩ := Server.consume_last svc hch
    obtain ⟨b, hf⟩ := h.fed
    have hbound := h.bound
    have hcurrent := h.current
    rw [hch] at hf hbound
    generalize s.lastCmd = x at hf hcurrent
    refine ⟨?_, ?_, ?_, ?_⟩
    · rw [hlast, hrest]
      cases hf with
      | command hset he hfed => exact ⟨b, hfed⟩
      | snapshot hv hc hok hfed =>
        rw [ApplyMsg.index, hc]
        exact ⟨b, hfed⟩
    · rw [hrest]
      exact fun m' hm' => hbound m' (List.mem_cons_of_mem m hm')
    · rw [hlast]
      exact hbound m List.mem_cons_self
    · intro hint x' hx'
      rw [Server.consume_cons hch] at hx'
      rcases List.mem_append.mp hx' with hx' | hx'
      · exact h.states hint x' hx'
      rw [List.mem_singleton.mp hx']
      cases hf with
      | command hset he hfed => exact (hcurrent hint).apply hd hset he
      | snapshot hv hc hok hfed =>
        obtain ⟨l, k, hx, -, hset, -, hcont⟩ := hok
        rw [if_neg (by simp [hc])]
        exact ⟨l, k, _, hx, hset, (hcont hint).2⟩

/-- A node that is up. -/
theorem Sound.feeding (h : Sound n svc E G c) (hcap : Ceiled n c) (hi : i < n) (hk : (c.nodes i).raft.killed = false) :
    Feeding n svc E G c.maxCommit (c.nodes i) := by
  have hat := h.live hi hk
  have hfeed := (h.nodes i hi).feed hk
  have happlied : (c.nodes i).raft.lastApplied ≤ c.maxCommit := by
    have hle : (c.nodes i).raft.lastApplied ≤ (c.nodes i).raft.commitIndex := hat.node.applied.2
    exact hle.trans (hcap.objects i hi)
  refine ⟨hfeed.fed.imp fun _ hf => hf.1, fun m hm => (hfeed.bound m hm).trans happlied, ?_, hfeed.states⟩
  have hlast : (c.nodes i).lastCmd ≤ (c.nodes i).raft.lastApplied := h.lastCmd_le hi hk
  exact hlast.trans happlied

/-- The upper layers of all nodes. -/
def Cluster.Feeds (c : Cluster σ) (n : Nat) (svc : Service σ) (E : Record) (G : Ghost) : Prop :=
  ∀ i < n, Feeding n svc E G c.maxCommit (c.nodes i)

variable [DecidableEq σ]

theorem feeds_init (n : Nat) (svc : Service σ) (E : Record) : (Cluster.init n svc).Feeds n svc E Ghost.start :=
  fun i hi => (sound_init n svc E).feeding (peaked_init n svc).toCeiled hi (fresh_make i {} 0).alive

/-- Every event of a run with a static membership. -/
theorem Cluster.Feeds.step (h : c.Feeds n svc E G) (hs : Sound n svc E G c) {e : Event} (hle : G.Le E G')
    (hd : Sound n svc E G' (c.step n svc e)) (hcap : Ceiled n (c.step n svc e)) :
    (c.step n svc e).Feeds n svc E G' := by
  intro j hj
  cases hk : ((c.step n svc e).nodes j).raft.killed with
  | false => exact hd.feeding hcap hj hk
  | true =>
    have hold := (h j hj).mono hle (c.maxCommit_step n svc e)
    cases c.fares n svc e j with
    | same hsame => exact hold.same hsame
    | push now hraft hch hst hinc =>
      -- only the applier of a node that is up pushes
      cases hk' : (c.nodes j).raft.killed with
      | false =>
        obtain ⟨⟨G₁, -, hat, -⟩, -⟩ := (hs.live hj hk').applyLoop now
        have halive : ((c.nodes j).raft.applyLoop now).1.killed = false := hat.ok.alive
        rw [hraft, halive] at hk
        cases hk
      | true =>
        refine hold.same ⟨?_, hst, hinc⟩
        rw [hch, Raft.applyLoop, if_pos (.inl hk'), List.append_nil]
    | consume hcons =>
      rw [hcons]
      exact hold.consume hd.inv.toDraft
    | restart now hk' hres =>
      rw [hres, Server.restart, if_neg (by simp [hk'])] at hk
      rw [show (Raft.make n j (c.nodes j).saved now).killed = false from (fresh_make j _ now).alive] at hk
      cases hk

end
end ChonKV
