import ChonKV.Cluster.LinearReads
import ChonKV.Kv.Coupled

/-!
The one history behind the stores of a cluster: at any time of a run every server has executed a beginning of it, in
order and from the first entry on, however it got there.
-/

set_option autoImplicit false

namespace ChonKV

open Ballot Ballot.Ledger
open Function (update)

/-- The state of a server that executed the first `p` entries of `H`. -/
def storeAfter (cfg : KvConfig) (H : Nat → LogEntry) (p : Nat) : KVState :=
  (stateAt cfg.cap cfg.maxIdleIndex (firsts H p) p).state

/-- What the servers have of `H`. -/
structure KvCluster.Executes (k : KvCluster) (n : Nat) (cfg : KvConfig) (H : Nat → LogEntry) : Prop where
  servers : ∀ i < n, ∃ kv, k.servers i = some kv ∧ ∃ p : Nat, kv.lastCmdIndex = p ∧ (p : Int) ≤ k.raft.maxCommit ∧
    kv.state = storeAfter cfg H p
  queued : ∀ i < n, ∀ m ∈ (k.raft.nodes i).applyCh, m.commandValid = true →
    ∃ p : Nat, m = Raft.commandMsg (p+1) (H p) ∧ (p : Int) + 1 ≤ k.raft.maxCommit
  snapshots : ∀ b ∈ k.snapshots, b.node < n → b.inc = (k.raft.nodes b.node).inc →
    ∃ p : Nat, b.index = p ∧ b.data = (storeAfter cfg H p).encodeSnapshot ∧
      cfg.service.load b.data = some (storeAfter cfg H p) ∧
      (b.index, cfg.service.load b.data) ∈ (k.raft.nodes b.node).states
  fresh : ∀ i < n, ∀ command, ((k.raft.nodes i).raft.start command).2.1.isLeader = true →
    ∃ m : Nat, ((k.raft.nodes i).raft.start command).2.1.index = m + 1 ∧
      ((H m).term = ((k.raft.nodes i).raft.start command).2.1.term → k.raft.maxCommit ≤ m)

section
variable {n : Nat} {cfg : KvConfig} {E : Record} {G G' : Ghost} {k : KvCluster} {evs : List KvEvent}

/-- A state of an upper layer is that after a beginning of the history. -/
theorem StateOK.store {K : Nat → Core} (hd : Draft n E G K) (hle : G.Le E G') (hwf : G'.L.WF (majority n)) {x : Int}
    {s : Option KVState} (h : StateOK n cfg.service G (x, s)) :
    ∃ p : Nat, x = p ∧ s = some (storeAfter cfg (G'.L.history (majority n)) p) := by
  obtain ⟨l, p, T, hx, hset, hs⟩ := h.stateAt hd
  have htake := hwf.settled_history (hset.ext hle.ext)
  refine ⟨p, hx, hs.trans (congrArg (fun kv : KVServer => some kv.state) (stateAt_congr ?_))⟩
  rw [htake, List.take_of_length_le (firsts_length _ p).le]

/-- What is queued for the upper layer is what comes next in the history. -/
theorem Fed.queued {svc : Service (Option KVState)} (hle : G.Le E G') (hwf : G'.L.WF (majority n)) {a b : Int}
    {ms : List ApplyMsg} (h : Fed n svc E G a ms b) : ∀ m ∈ ms, m.commandValid = true →
      ∃ p : Nat, m = Raft.commandMsg (p+1) (G'.L.history (majority n) p) := by
  induction h with
  | nil a => simp
  | @command l p T e ms b hset he hrest ih =>
    intro m hm hv
    rcases List.mem_cons.mp hm with rfl | hm
    · have htake := hwf.settled_history (hset.ext hle.ext)
      have hget := firsts_get (G'.L.history (majority n)) (Nat.lt_succ_self p)
      rw [← htake, List.getElem?_take_of_lt (Nat.lt_succ_self p), he] at hget
      refine ⟨p, ?_⟩
      rw [Option.some.inj hget]
      push_cast
      rfl
    · exact ih m hm hv
  | snapshot hv hc hok hrest ih =>
    intro m hm hv'
    rcases List.mem_cons.mp hm with rfl | hm
    · rw [hc] at hv'
      cases hv'
    · exact ih m hm hv'

/-- What a leader appends in its term is not yet committed. -/
theorem Peaked.start_fresh {σ : Type} {svc : Service σ} {c : Cluster σ} (hp : Peaked n G c) (h : Sound n svc E G c)
    (hle : G.Le E G') (hwf : G'.L.WF (majority n)) {i : Nat} (hi : i < n) (command : Command)
    (hl : ((c.nodes i).raft.start command).2.1.isLeader = true) :
    ∃ m : Nat, ((c.nodes i).raft.start command).2.1.index = m + 1 ∧
      ((G'.L.history (majority n) m).term = ((c.nodes i).raft.start command).2.1.term → c.maxCommit ≤ m) := by
  cases hk : (c.nodes i).raft.killed with
  | true =>
    unfold Raft.start at hl
    dsimp only at hl
    rw [if_pos (.inl hk)] at hl
    cases hl
  | false =>
    obtain ⟨G₁, -, -, -, hissued⟩ := (h.live hi hk).start command
    obtain ⟨m, hm, hlen, -⟩ := hissued hl
    refine ⟨m, hm, fun hterm => ?_⟩
    by_contra hlt
    rcases hp.peak with h0 | ⟨T, p, hchosen, hle', -⟩
    · omega
    · -- the entry is in the history of its term already
      have hmp : m < p+1 := by omega
      have hset : G.L.Settled (majority n) (G.L.hist T) (p+1) T := .inr ⟨T, p, hchosen, le_rfl, le_rfl, rfl⟩
      have htake := hwf.settled_history (hset.ext hle.ext)
      have hget := firsts_get (G'.L.history (majority n)) hmp
      rw [← htake, List.getElem?_take_of_lt hmp] at hget
      have hmatch := (h.inv.wf.matching T m _ hget).2
      have hstamp : Stamped.stamp (G'.L.history (majority n) m) = ((c.nodes i).raft.start command).2.1.term := hterm
      rw [hstamp] at hmatch
      have hlen' := congrArg List.length hmatch
      have hT := hchosen.lt
      simp only [List.length_take] at hlen'
      omega

/-- A state of a run seen from a later one. -/
theorem KvSound.executes (h : KvSound n cfg E G k) (hint : E.intact) (hcap : cfg.cap < 2^31) (hle : G.Le E G')
    (hwf : G'.L.WF (majority n)) : k.Executes n cfg (G'.L.history (majority n)) where
  servers i hi := by
    obtain ⟨kv, hkv, hcoup⟩ := h.servers i hi
    have hstate := (h.feeds i hi).current hint
    rw [hcoup.lastCmd, hcoup.current] at hstate
    obtain ⟨p, hp, hs⟩ := hstate.store h.sound.inv.toDraft hle hwf
    have hreached := (h.feeds i hi).reached
    rw [hcoup.lastCmd, hp] at hreached
    exact ⟨kv, hkv, p, hp, hreached, Option.some.inj hs⟩
  queued i hi m hm hv := by
    obtain ⟨b, hf⟩ := (h.feeds i hi).fed
    obtain ⟨p, rfl⟩ := hf.queued hle hwf m hm hv
    exact ⟨p, rfl, (h.feeds i hi).bound _ hm⟩
  snapshots b hb hi hinc := by
    obtain ⟨t, ht, hdata, hfits⟩ := (h.snapshots b hb hi).2 hinc
    have hok := (h.feeds b.node hi).states hint _ ht
    have hload := hok.load_encodeSnapshot h.sound.inv.toDraft hcap hfits
    obtain ⟨p, hp, hs⟩ := hok.store h.sound.inv.toDraft hle hwf
    cases hs
    exact ⟨p, hp, hdata, by rw [hdata, hload], by rwa [hdata, hload]⟩
  fresh i hi command hl := h.peaked.start_fresh h.sound hle hwf hi command hl

theorem KvCluster.Sized.storesFit (h : k.Sized n cfg evs) : k.StoresFit n := by
  cases evs with
  | nil => exact h
  | cons ev evs => exact h.1

/-- Every state of a run lies before its end, and what Raft does there is a step of Raft. -/
theorem KvSound.along (h : KvSound n cfg E G k) (hint : E.intact) (hcap : cfg.cap < 2^31) (hsize : k.Sized n cfg evs)
    (hstatic : ∀ ev ∈ evs, ev.isStatic = true) (hc : ∀ (a : Nat) ev, evs[a]? = some ev →
      ((evs.take a).foldl (KvCluster.step n cfg) k).CoveredBy n cfg E ev) :
    ∃ G', G.Le E G' ∧ G'.L.WF (majority n) ∧ ∀ a, ∃ G₁, G₁.Le E G' ∧
      KvSound n cfg E G₁ ((evs.take a).foldl (KvCluster.step n cfg) k) ∧
      ∀ ev, evs[a]? = some ev → ((evs.take a).foldl (KvCluster.step n cfg) k).OfRaft n cfg ev := by
  induction evs generalizing G k with
  | nil => exact ⟨G, .refl E G, h.sound.inv.wf, fun a => ⟨G, .refl E G, by simpa using h, fun ev hev => by cases hev⟩⟩
  | cons ev evs ih =>
    obtain ⟨hfit, hdisk, hrest⟩ := hsize
    obtain ⟨G₁, hle₁, h₁⟩ := h.step hint hcap hfit hdisk hrest.storesFit (hstatic ev List.mem_cons_self) (hc 0 ev rfl)
    obtain ⟨G', hle', hwf, hall⟩ := ih h₁ hrest (fun ev' hev' => hstatic ev' (List.mem_cons_of_mem ev hev'))
      fun a ev' hev' => hc (a+1) ev' hev'
    refine ⟨G', hle₁.trans hle', hwf, fun a => ?_⟩
    cases a with
    | zero =>
      refine ⟨G, hle₁.trans hle', h, fun ev' hev' => ?_⟩
      cases hev'
      exact h.ofRaft hint hcap hdisk
    | succ a => exact hall a

end

/-- The snapshots that are passed to Raft in a run, and the buffers that its nodes put together. -/
def KvCluster.recordOf (n : Nat) (cfg : KvConfig) (evs : List KvEvent) : Record where
  led _ _ := True
  relapsed _ := True
  taken data := ∃ (a : Nat) (ev : KvEvent) (i : Nat) (index : Int), evs[a]? = some ev ∧
    (KvCluster.run n cfg (evs.take a)).raftEvent n cfg ev = some (.takeSnapshot i index data)
  assembled buf := ∃ (a k : Nat) (now : Int) (p : Packet) (args : InstallSnapshotArgs),
    evs[a]? = some (.raft (.deliver k now)) ∧ (KvCluster.run n cfg (evs.take a)).raft.packets[k]? = some p ∧
    p.rpc = .install args ∧
    (((KvCluster.run n cfg (evs.take a)).raft.nodes p.dst).raft.installSnapshot args now).2.2 = some buf

theorem coveredBy_recordOf (n : Nat) (cfg : KvConfig) {evs : List KvEvent} {a : Nat} {ev : KvEvent}
    (hev : evs[a]? = some ev) :
    (KvCluster.run n cfg (evs.take a)).CoveredBy n cfg (KvCluster.recordOf n cfg evs) ev := by
  intro e he
  refine ⟨fun _ _ => trivial, fun _ _ _ _ _ _ _ _ _ => trivial, fun i index data heq => ?_,
    fun k now p args buf heq hp hrpc hbuf => ?_⟩
  · exact ⟨a, ev, i, index, hev, heq ▸ he⟩
  · subst heq
    obtain rfl := KvCluster.raftEvent_deliver he
    exact ⟨a, k, now, p, args, hev, hp, hrpc, hbuf⟩

/-- What the nodes of a run know of the history of its end. -/
theorem executes_run (n : Nat) (cfg : KvConfig) (hcap : cfg.cap < 2^31) {evs : List KvEvent}
    (hstatic : ∀ ev ∈ evs, ev.isStatic = true) (hsize : (KvCluster.init n cfg).Sized n cfg evs)
    (hint : (KvCluster.recordOf n cfg evs).intact) : ∃ G : Ghost, ∀ a, (KvCluster.run n cfg (evs.take a)).Executes n cfg
      (G.L.history (majority n)) ∧ (KvCluster.run n cfg (evs.take a)).raft.Ordered n ∧
      ∀ ev, evs[a]? = some ev → (KvCluster.run n cfg (evs.take a)).OfRaft n cfg ev := by
  obtain ⟨G, -, hwf, hall⟩ := (kvSound_init n cfg (KvCluster.recordOf n cfg evs)).along hint hcap hsize hstatic
    fun a ev => coveredBy_recordOf n cfg
  refine ⟨G, fun a => ?_⟩
  obtain ⟨G₁, hle, h, hraft⟩ := hall a
  exact ⟨h.executes hint hcap hle hwf, h.ordered, hraft⟩

/-- The servers of a run execute one history. Whatever is lost, crashes, is compacted or is brought up from a
snapshot, no server ends itself, the store and the sessions of each are those after the entries up to the last index
that it applied, and a snapshot that is passed to Raft is that of its index. Nothing in the run outgrows the counts of
the files. -/
theorem servers_execute (n : Nat) (cfg : KvConfig) (hcap : cfg.cap < 2^31) {evs : List KvEvent}
    (hstatic : ∀ ev ∈ evs, ev.isStatic = true) (hsize : (KvCluster.init n cfg).Sized n cfg evs)
    (hint : (KvCluster.recordOf n cfg evs).intact) :
    ∃ H : Nat → LogEntry, ∀ a, (KvCluster.run n cfg (evs.take a)).Executes n cfg H := by
  obtain ⟨G, hG⟩ := executes_run n cfg hcap hstatic hsize hint
  exact ⟨G.L.history (majority n), fun a => (hG a).1⟩

/-- The snapshot that an event passes to Raft, or that a node puts together in it. -/
def KvCluster.shownBy (n : Nat) (cfg : KvConfig) (k : KvCluster) (ev : KvEvent) : Option Bytes :=
  match k.raftEvent n cfg ev with
  | some (.takeSnapshot _ _ data) => some data
  | some (.deliver m now) =>
    match k.raft.packets[m]? with
    | some ⟨_, _, dst, .install args⟩ => ((k.raft.nodes dst).raft.installSnapshot args now).2.2
    | _ => none
  | _ => none

/-- Nothing is taken for another snapshot in a run with one snapshot. -/
theorem intact_of_one {n : Nat} {cfg : KvConfig} {evs : List KvEvent} (data : Bytes)
    (h : ∀ a : Fin evs.length, ∀ d ∈ (KvCluster.run n cfg (evs.take a)).shownBy n cfg (evs.get a), d = data) :
    (KvCluster.recordOf n cfg evs).intact := by
  have hshown : ∀ (a : Nat) ev, evs[a]? = some ev →
      ∀ d ∈ (KvCluster.run n cfg (evs.take a)).shownBy n cfg ev, d = data := forall_getElem?_iff.mpr h
  rintro buf data' ⟨a, m, now, ⟨src, inc, dst, rpc⟩, args, hev, hp, hrpc, hbuf⟩ ⟨b, ev, i, index, hev', he⟩ - -
  have hbuf' : buf = data := by
    refine hshown a _ hev buf ?_
    cases hrpc
    simp only [KvCluster.shownBy, KvCluster.raftEvent, Event.isInner, ↓reduceIte, hp]
    exact hbuf
  have hdata' : data' = data := by
    refine hshown b ev hev' data' ?_
    simp only [KvCluster.shownBy, he, Option.mem_def]
  rw [hbuf', hdata']

def smallLimits : KvConfig := { cap := 4, maxIdleIndex := 10, maxraftstate := 1 }

def onePut : PutAppendArgs := { key := [7], value := [8, 9], op := KVState.putMethod, clientId := 1, seqId := 1 }

/-- Node 0 leads, and a client puts a key there. Node 1 has the entry, crashes and comes up again, and hears of the
commit. Node 0 takes a snapshot of its store, and node 2, which has nothing, installs it. A client of node 2 reads. -/
def putRun : List KvEvent :=
  (takeoverRun.take 7).map .raft ++
    [.putAppend 0 onePut, .propose 0, .register 0, .raft (.replicate 0 1 200), .raft (.deliver 4 200),
      .raft (.answer 2 200), .raft (.applyLoop 0 200), .applier 0, .waitTurn 0 false, .kill 1, .restart 1 250,
      .raft (.leaderTick 0 300), .raft (.replicate 0 1 300), .raft (.deliver 5 300), .raft (.applyLoop 1 300), .applier 1,
      .snapshot 0, .raft (.runTask 0 1 300), .raft (.runTask 0 1 300), .raft (.replicate 0 2 300), .raft (.deliver 6 300),
      .raft (.runTask 2 0 300), .raft (.runTask 2 0 300), .raft (.applyLoop 2 300), .applier 2, .get 2 [7] 350] ++
    ([.deliver 7 350, .runTask 0 1 350, .runTask 0 1 350, .runTask 0 1 350, .runTask 0 1 350, .runTask 0 1 350,
      .deliver 8 350, .answer 5 350, .runTask 0 1 350, .answer 6 350].map .raft) ++ [.getTurn 0 false]

def onePutState : KVState := (KVServer.fresh 4 10).state.applyOp onePut.toOp 1

theorem static_putRun : ∀ ev ∈ putRun, ev.isStatic = true := by decide

theorem sized_putRun : (KvCluster.init 3 smallLimits).Sized 3 smallLimits putRun := by decide +kernel

theorem intact_putRun : (KvCluster.recordOf 3 smallLimits putRun).intact :=
  intact_of_one onePutState.encodeSnapshot (by decide +kernel)

/-- The leader, the node that replayed its log and the node that installed the snapshot all have the key. -/
theorem servers_execute_put : ∃ kv₀ kv₁ kv₂, (KvCluster.run 3 smallLimits putRun).servers 0 = some kv₀ ∧
    (KvCluster.run 3 smallLimits putRun).servers 1 = some kv₁ ∧ (KvCluster.run 3 smallLimits putRun).servers 2 = some kv₂ ∧
    kv₀.state = kv₁.state ∧ kv₀.state = kv₂.state := by
  obtain ⟨H, hH⟩ := servers_execute 3 smallLimits (by decide) static_putRun sized_putRun intact_putRun
  have hrun := hH putRun.length
  rw [List.take_length] at hrun
  obtain ⟨kv₀, hkv₀, p, hp, -, hs₀⟩ := hrun.servers 0 (by decide)
  obtain ⟨kv₁, hkv₁, q, hq, -, hs₁⟩ := hrun.servers 1 (by decide)
  obtain ⟨kv₂, hkv₂, r, hr, -, hs₂⟩ := hrun.servers 2 (by decide)
  have hlast : [0, 1, 2].map (fun i => ((KvCluster.run 3 smallLimits putRun).servers i).map KVServer.lastCmdIndex) =
      [some 1, some 1, some 1] := by decide +kernel
  simp only [List.map_cons, List.map_nil, hkv₀, hkv₁, hkv₂, Option.map_some, hp, hq, hr, List.cons.injEq,
    Option.some.injEq] at hlast
  obtain ⟨hp', hq', hr', -⟩ := hlast
  obtain rfl : p = q := by omega
  obtain rfl : p = r := by omega
  exact ⟨kv₀, kv₁, kv₂, hkv₀, hkv₁, hkv₂, by rw [hs₀, hs₁], by rw [hs₀, hs₂]⟩

end ChonKV
