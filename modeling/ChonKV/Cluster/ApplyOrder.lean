import ChonKV.Cluster.History
import ChonKV.Cluster.Turns

/-!
The order of the messages on an apply channel, whatever installs a snapshot or cuts the log meanwhile: an entry
comes right after what the upper layer has, and a snapshot never takes it back.
-/

set_option autoImplicit false

namespace ChonKV

open Ballot Ballot.Ledger Raft
open Function (update)

/-- What comes after the index `x`. -/
def ApplyMsg.After (x : Int) (m : ApplyMsg) : Prop :=
  if m.commandValid then m.commandIndex = x + 1 else m.snapshotValid = true ∧ x ≤ m.snapshotIndex

instance (x : Int) (m : ApplyMsg) : Decidable (m.After x) := by
  unfold ApplyMsg.After
  infer_instance

/-- Every message of a channel comes after the one before it, and the first one after the index `x`. -/
def InOrder : Int → List ApplyMsg → Prop
  | _, [] => True
  | x, m :: ms => m.After x ∧ InOrder m.index ms

/-- The index that the upper layer is at when it has taken all messages. -/
def endOf (x : Int) (ms : List ApplyMsg) : Int := (ms.getLast?.map ApplyMsg.index).getD x

theorem endOf_cons (x : Int) (m : ApplyMsg) (ms : List ApplyMsg) : endOf x (m :: ms) = endOf m.index ms := by
  cases ms with
  | nil => rfl
  | cons m' ms =>
    rw [endOf, endOf, List.getLast?_cons_cons, List.getLast?_cons]
    rfl

theorem InOrder.append {x : Int} {ms ms' : List ApplyMsg} (h : InOrder x ms) (h' : InOrder (endOf x ms) ms') :
    InOrder x (ms ++ ms') := by
  induction ms generalizing x with
  | nil => exact h'
  | cons m ms ih =>
    rw [endOf_cons] at h'
    exact ⟨h.1, ih h.2 h'⟩

/-- The upper layer is taken no further than the messages say. -/
theorem endOf_le {x y : Int} {ms : List ApplyMsg} (hx : x ≤ y) (hms : ∀ m ∈ ms, m.index ≤ y) : endOf x ms ≤ y := by
  unfold endOf
  cases hl : ms.getLast? with
  | none => exact hx
  | some m => exact hms m (List.mem_of_getLast? hl)

section
variable {σ : Type} {n : Nat} {svc : Service σ} {E : Record} {G G' : Ghost} {c : Cluster σ} {i : Nat}

theorem Fed.endOf_eq {a b : Int} {ms : List ApplyMsg} (h : Fed n svc E G a ms b) : endOf a ms = b := by
  induction h with
  | nil a => rfl
  | command hset he hrest ih =>
    rw [endOf_cons]
    exact ih
  | snapshot hv hc hok hrest ih =>
    rw [endOf_cons, ApplyMsg.index, hc]
    exact ih

theorem Fed.inOrder {a b : Int} {ms : List ApplyMsg} (h : Fed n svc E G a ms b)
    (hcommands : ∀ m ∈ ms, m.commandValid = true) : InOrder a ms := by
  induction h with
  | nil a => trivial
  | @command l k T e ms b hset he hrest ih =>
    refine ⟨?_, ih fun m hm => hcommands m (List.mem_cons_of_mem _ hm)⟩
    show ((k + 1 : Nat) : Int) = k + 1
    push_cast
    rfl
  | snapshot hv hc hok hrest ih => exact absurd (hcommands _ List.mem_cons_self) (by simp [hc])

theorem applyBatch_commands (r : Raft) (now : Int) (k : Nat) (idx : Int) :
    ∀ m ∈ (r.applyBatch now k idx).2, m.commandValid = true := by
  induction k generalizing r idx with
  | zero => simp [applyBatch]
  | succ k ih =>
    rw [applyBatch]
    have hturn : ∀ r' msg, (r.applyTurn idx = .dispatch r' msg ∨ r.applyTurn idx = .conf r' msg) →
        msg.commandValid = true := by
      intro r' msg h
      unfold applyTurn at h
      dsimp only at h
      split_ifs at h
      all_goals rcases h with h | h <;> cases h <;> rfl
    cases ht : r.applyTurn idx with
    | stop => simp
    | skip r' => exact ih r' _
    | dispatch r' msg => exact List.forall_mem_cons.mpr ⟨hturn r' msg (.inl ht), ih r' _⟩
    | conf r' msg => exact List.forall_mem_cons.mpr ⟨hturn r' msg (.inr ht), ih _ _⟩

/-- What one turn of `ApplyLoop` pushes comes after what it pushed before. -/
theorem At.push_inOrder {K : Nat → Core} {r : Raft} (h : At n svc E G K i r.frame) (now : Int) {x : Int}
    {ms : List ApplyMsg} (hms : InOrder x ms) (hle : endOf x ms ≤ r.lastApplied)
    (hend : r.pendingSnapshot = none → endOf x ms = r.lastApplied) : InOrder x (ms ++ (r.applyLoop now).2) := by
  obtain ⟨-, happlies⟩ := h.applyLoop now
  refine hms.append ?_
  cases hp : r.pendingSnapshot with
  | some m =>
    obtain ⟨hv, hc, hx, -⟩ := h.ok.pending m hp
    have hindex : m.snapshotIndex = r.lastApplied := hx
    unfold Raft.applyLoop
    by_cases hoff : r.killed ∨ 0 < r.installGateDepth
    · rw [if_pos hoff]
      trivial
    · rw [if_neg hoff, hp]
      refine ⟨?_, trivial⟩
      rw [ApplyMsg.After, hc, if_neg (by decide), hindex]
      exact ⟨hv, hle⟩
  | none =>
    obtain ⟨b, hfed, -⟩ := happlies.fed r.lastApplied fun _ => rfl
    rw [hend hp]
    refine hfed.inOrder ?_
    unfold Raft.applyLoop
    rw [hp]
    split_ifs
    · simp
    · exact applyBatch_commands r now _ _
    · simp

/-- The channels of all nodes are in order; that of a node that is down is still taken from. -/
def Cluster.Ordered (c : Cluster σ) (n : Nat) : Prop := ∀ i < n, InOrder (c.nodes i).lastCmd (c.nodes i).applyCh

/-- Nothing is pushed, nothing is taken, and the process goes on. -/
def Server.SameFeed (s s' : Server σ) : Prop := s'.applyCh = s.applyCh ∧ s'.states = s.states ∧ s'.inc = s.inc

theorem Server.SameFeed.refl (s : Server σ) : s.SameFeed s := ⟨rfl, rfl, rfl⟩

theorem sameFeed_finishRead {s s' : Server σ} (h : s.SameFeed s') (k : Reader) (result : Int) :
    s.SameFeed (s'.finishRead k result).node := by
  rwa [finishRead_node]

theorem sameFeed_openRead {s s' : Server σ} (h : s.SameFeed s') (k : Reader) (fresh : Nat) (now : Int) :
    s.SameFeed (s'.openRead k fresh now).node := by
  rw [Server.openRead]
  dsimp only
  split
  · exact h
  · refine sameFeed_finishRead ?_ k _
    exact h
  · exact h

theorem sameFeed_runTask {s s' : Server σ} (h : s.SameFeed s') (fresh : Nat) (now : Int) (t : Task) :
    s.SameFeed (s'.runTask fresh now t).node := by
  cases t with
  | sendRequestVotes =>
    rw [Server.runTask]
    split <;> exact h
  | readOpen k => exact sameFeed_openRead h k fresh now
  | readBroadcast k ctx term readIndex t =>
    rw [Server.runTask]
    by_cases hlt : t < s'.raft.peers
    · rw [if_pos hlt]
      split <;> exact h
    · rw [if_neg hlt]
      exact h
  | readWait k ctx term readIndex deadline =>
    rw [Server.runTask]
    dsimp only
    split
    · exact h
    · refine sameFeed_finishRead ?_ k _
      exact h
  | _ => exact h

theorem sameFeed_deliver (s : Server σ) (p : Packet) (now : Int) : s.SameFeed (s.deliver p now).node := by
  rw [Server.deliver]
  dsimp only
  split
  all_goals try exact .refl s
  · split <;> exact .refl s
  · split_ifs <;> exact .refl s

theorem sameFeed_endForward (s : Server σ) (token : Nat) (ok : Bool) (reply : ReadIndexReply) :
    s.SameFeed (s.endForward token ok reply).node := by
  rw [Server.endForward]
  split
  · exact .refl s
  · refine sameFeed_finishRead ?_ _ _
    exact .refl s

theorem sameFeed_answer (s : Server σ) (p : Packet) (reply : RpcReply) (now : Int) :
    s.SameFeed (s.answer p reply now).node := by
  unfold Server.answer
  split_ifs
  · exact .refl s
  · split
    all_goals try exact .refl s
    exact sameFeed_endForward s _ _ _

theorem sameFeed_fail (s : Server σ) (p : Packet) (now : Int) : s.SameFeed (s.fail p now).node := by
  unfold Server.fail
  split_ifs
  · exact .refl s
  · split
    all_goals try exact .refl s
    exact sameFeed_endForward s _ _ _

theorem ordered_init (n : Nat) (svc : Service σ) : (Cluster.init n svc).Ordered n := fun _ _ => trivial

/-- The upper layer takes the next message. -/
theorem InOrder.consume {s : Server σ} (h : InOrder s.lastCmd s.applyCh) :
    InOrder (s.consume svc).lastCmd (s.consume svc).applyCh := by
  cases hch : s.applyCh with
  | nil =>
    have hstay : s.consume svc = s := by
      unfold Server.consume
      rw [hch]
    rw [hstay]
    exact h
  | cons m rest =>
    rw [hch] at h
    have hlast : (s.consume svc).lastCmd = m.index := by
      rw [Server.consume_cons hch, Server.lastCmd, ApplyMsg.index]
      simp only [List.getLast?_append, List.getLast?_singleton, Option.some_or, Option.map_some, Option.getD_some]
      split_ifs <;> rfl
    rw [hlast, Server.consume_cons hch]
    exact h.2

/-- The upper layer of a node that is up is not ahead of the applier. -/
theorem Sound.lastCmd_le (h : Sound n svc E G c) (hi : i < n) (hk : (c.nodes i).raft.killed = false) :
    (c.nodes i).lastCmd ≤ (c.nodes i).raft.lastApplied := by
  have hat := h.live hi hk
  unfold Server.lastCmd
  cases hl : (c.nodes i).states.getLast? with
  | none =>
    have happlied : (c.nodes i).raft.snapshotIndex ≤ (c.nodes i).raft.lastApplied := hat.node.applied.1
    have hbase : (c.nodes i).raft.snapshotIndex = G.L.base i := hat.node.shows.index
    simp only [Option.map_none, Option.getD_none]
    omega
  | some x => exact ((h.nodes i hi).feed hk).reached x (List.mem_of_getLast? hl)

/-- The applier pushes what comes next. -/
theorem Sound.push_inOrder (h : Sound n svc E G c) (hi : i < n) (hord : InOrder (c.nodes i).lastCmd (c.nodes i).applyCh)
    (now : Int) : InOrder (c.nodes i).lastCmd ((c.nodes i).applyCh ++ ((c.nodes i).raft.applyLoop now).2) := by
  cases hk : (c.nodes i).raft.killed with
  | true =>
    unfold Raft.applyLoop
    rwa [if_pos (.inl hk), List.append_nil]
  | false =>
    have hat := h.live hi hk
    have hfeed := (h.nodes i hi).feed hk
    obtain ⟨b, hfed, hb⟩ := hfeed.fed
    have hlast := h.lastCmd_le hi hk
    refine hat.push_inOrder now hord (endOf_le hlast hfeed.bound) fun hp => ?_
    rw [hfed.endOf_eq]
    exact hb hp

variable [DecidableEq σ]

/-- What an event makes of the channel and the states of node `j`. -/
inductive Server.Fares (n : Nat) (svc : Service σ) (j : Nat) (s : Server σ) : Event → Server σ → Prop
  | same {e : Event} {s' : Server σ} (h : s.SameFeed s') : Fares n svc j s e s'
  | push {s' : Server σ} (now : Int) (hraft : s'.raft = (s.raft.applyLoop now).1)
      (hch : s'.applyCh = s.applyCh ++ (s.raft.applyLoop now).2) (hst : s'.states = s.states) (hinc : s'.inc = s.inc) :
      Fares n svc j s (.applyLoop j now) s'
  | consume {s' : Server σ} (h : s' = s.consume svc) : Fares n svc j s (.consume j) s'
  | restart {s' : Server σ} (now : Int) (hk : s.raft.killed = true) (h : s' = s.restart svc n j now) :
      Fares n svc j s (.restart j now) s'

theorem Cluster.Turn.fares {e : Event} {ef : Effect σ} (h : Cluster.Turn n svc c e i ef) :
    (c.nodes i).Fares n svc i e ef.node := by
  cases h with
  | electionTimeout i now =>
    rw [Server.electionTimeout, Server.finishStart]
    split <;> exact .same (.refl _)
  | runTask i k now t ht =>
    refine .same (sameFeed_runTask ?_ _ now t)
    exact .refl _
  | deliver k now p hp => exact .same (sameFeed_deliver _ p now)
  | answer k now a ha => exact .same (sameFeed_answer _ _ _ now)
  | fail k now p hp => exact .same (sameFeed_fail _ p now)
  | replicate i s now hs =>
    rw [Server.replicate]
    dsimp only
    split <;> exact .same (.refl _)
  | takeSnapshot i index data =>
    refine .same ?_
    unfold Server.takeSnapshot
    split_ifs
    · split <;> exact .refl _
    · exact .refl _
  | read i now =>
    refine .same (sameFeed_openRead ?_ _ _ now)
    exact .refl _
  | kill i =>
    refine .same ?_
    unfold Server.kill
    split_ifs <;> exact .refl _
  | applyLoop i now => exact .push now rfl rfl rfl rfl
  | consume i => exact .consume rfl
  | restart i now =>
    by_cases hk : (c.nodes i).raft.killed = true
    · exact .restart now hk rfl
    · dsimp only
      rw [Server.restart, if_pos hk]
      exact .same (.refl _)
  | _ => exact .same (.refl _)

/-- Every node fares so in every step. -/
theorem Cluster.fares (n : Nat) (svc : Service σ) (c : Cluster σ) (e : Event) (j : Nat) :
    (c.nodes j).Fares n svc j e ((c.step n svc e).nodes j) := by
  rcases Cluster.step_cases n svc c e with heq | ⟨i, hi, ef, ht, heq⟩
  · rw [heq, Cluster.called_nodes]
    exact .same (.refl _)
  by_cases hji : j = i
  · rw [heq, hji, show ((c.called e).put i ef).nodes i = ef.node from Function.update_self _ _ _]
    exact ht.fares
  · rw [heq, show ((c.called e).put i ef).nodes j = c.nodes j from
      (Function.update_of_ne hji _ _).trans (congrFun (c.called_nodes e) j)]
    exact .same (.refl _)

/-- Every event of a run with a static membership. -/
theorem Cluster.Ordered.step (hc : c.Ordered n) (h : Sound n svc E G c) (e : Event) : (c.step n svc e).Ordered n := by
  intro j hj
  have hord := hc j hj
  cases c.fares n svc e j with
  | same hsame =>
    unfold Server.lastCmd at hord ⊢
    rwa [hsame.1, hsame.2.1]
  | push now hraft hch hst hinc =>
    have hpush := h.push_inOrder hj hord now
    unfold Server.lastCmd at hpush ⊢
    rwa [hch, hst]
  | consume hs =>
    rw [hs]
    exact hord.consume
  | restart now hk hs =>
    rw [hs]
    unfold Server.restart
    rw [if_neg (by simp [hk])]
    trivial

/-- Apply order. Whatever the interleaving of the applier with snapshots that are installed or taken and with
handlers that change the log, what waits on the channel of a node comes in order after what its upper layer has. -/
theorem apply_in_order (svc : Service σ) {evs : List Event} (hstatic : ∀ e ∈ evs, e.isStatic = true) :
    (Cluster.run n svc evs).Ordered n := by
  induction evs using List.reverseRecOn with
  | nil => exact ordered_init n svc
  | append_singleton evs e ih =>
    have hprev := fun e he => hstatic e (List.mem_append_left _ he)
    obtain ⟨G, h⟩ := sound_run (n := n) svc .all hprev (coversAll_all _ evs)
    rw [Cluster.run_append]
    exact (ih hprev).step h e

end

/-- After node 1 installed the snapshot of node 2, node 2 commits another entry, and node 1 hears of it before its upper
layer took the snapshot. -/
def queuedRun : List Event :=
  splicedRun ++ [.answer 11 400, .applyLoop 1 400, .start 2 [], .leaderTick 2 500, .replicate 2 3 500,
    .replicate 2 1 500, .deliver 20 500, .deliver 21 500, .answer 12 500, .answer 13 500, .leaderTick 2 600,
    .replicate 2 1 600, .deliver 22 600, .applyLoop 1 600]

theorem apply_in_order_queued : ((Cluster.run 5 unitService queuedRun).nodes 1).applyCh.map ApplyMsg.index = [1, 2] ∧
    (Cluster.run 5 unitService queuedRun).Ordered 5 :=
  ⟨by decide +kernel, apply_in_order unitService (by decide)⟩

end ChonKV
