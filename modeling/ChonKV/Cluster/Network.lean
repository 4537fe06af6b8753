import ChonKV.Cluster.Snapshots

/-!
What holds of everything that is under way: packets, answers, threads that wait for the lock, and
what the upper layer is fed. It stays true while the abstract state grows.
-/

set_option autoImplicit false

namespace ChonKV

open Ballot Ballot.Ledger
open Function (update)

section
variable {σ : Type} (n : Nat) (svc : Service σ) (E : Record)

def PacketOK (G : Ghost) (p : Packet) : Prop :=
  match p.rpc with
  | .vote args => VoteOK G args ∧ args.candidateId = p.src ∧ p.src ≠ p.dst
  | .append args | .readBeat args => AppendOK n G args
  | .install args => InstallOK n svc E G args
  | .preVote _ | .readIndex _ _ => True

structure AnswerOK (G : Ghost) (a : Answer) : Prop where
  packet : PacketOK n svc E G a.packet
  vote : ∀ args reply, a.packet.rpc = .vote args → a.reply = .vote reply →
    Granted G a.packet.dst args reply
  append : ∀ args reply, a.packet.rpc = .append args → a.reply = .append reply →
    Accepted n G a.packet.dst args reply
  install : ∀ args reply, a.packet.rpc = .install args → a.reply = .install reply →
    Vouched n G a.packet.dst args reply

/-- A reader that was forwarded waits for the answer to a packet that arrived. -/
def ReaderOK (G : Ghost) : Reader → Prop
  | .client _ => True
  | .server p _ => PacketOK n svc E G p

/-- A thread of a node that is up holds what it checked before it released the lock. -/
def TaskOK (G : Ghost) (r : Raft) : Task → Prop
  | .installBlob p args blob => p.rpc = .install args ∧ PacketOK n svc E G p ∧
    (r.killed = false → p.dst = r.me ∧ args.term ≤ r.currentTerm ∧
      SnapOK n svc E G args.lastIncludedIndex args.lastIncludedTerm blob args.term)
  | .installCommit p args blob => p.rpc = .install args ∧ PacketOK n svc E G p ∧
    (r.killed = false → p.dst = r.me ∧ args.term ≤ r.currentTerm ∧
      SnapOK n svc E G args.lastIncludedIndex args.lastIncludedTerm blob args.term ∧
      args.lastIncludedIndex ≤ r.savedBlobIndex)
  | .snapshotBlob index term data => r.killed = false →
    SnapOK n svc E G index term data r.currentTerm ∧ index ≤ r.lastApplied
  | .snapshotCommit index term data => r.killed = false →
    SnapOK n svc E G index term data r.currentTerm ∧ index ≤ r.lastApplied ∧
      index ≤ r.savedBlobIndex
  | .readOpen k | .readBroadcast k _ _ _ _ | .readWait k _ _ _ _ | .readForwarded k _ =>
    ReaderOK n svc E G k
  | _ => True

/-- A state of the upper layer is the one after a settled prefix. -/
def StateOK (G : Ghost) (x : Int × σ) : Prop :=
  ∃ (l : List LogEntry) (k : Nat) (T : Int), x.1 = k ∧ G.L.Settled (majority n) l k T ∧
    x.2 = replay svc (l.take k)

/-- The upper layer of a node that is up. -/
structure FeedOK (G : Ghost) (s : Server σ) : Prop where
  fed : ∃ b, Fed n svc E G s.lastCmd s.applyCh b ∧
    (s.raft.pendingSnapshot = none → b = s.raft.lastApplied)
  bound : ∀ m ∈ s.applyCh, m.index ≤ s.raft.lastApplied
  reached : ∀ x ∈ s.states, x.1 ≤ s.raft.lastApplied
  states : E.intact → ∀ x ∈ s.states, StateOK n svc G x

structure ServerOK (G : Ghost) (s : Server σ) : Prop where
  tasks : ∀ t ∈ s.tasks, TaskOK n svc E G s.raft t
  feed : s.raft.killed = false → FeedOK n svc E G s

/-- What a stretch may leave behind that started when the abstract state was `G₀`. -/
structure Left (G₀ G : Ghost) (e : Effect σ) : Prop where
  node : ServerOK n svc E G e.node
  packets : ∀ p ∈ e.packets, PacketOK n svc E G p := by
    exact fun _ h => absurd h List.not_mem_nil
  answers : e.node.raft.killed = false → ∀ a ∈ e.answers, AnswerOK n svc E G a := by
    exact fun _ _ h => absurd h List.not_mem_nil
  dispatched : ∀ d ∈ e.dispatched, DispatchOK n G d := by
    exact fun _ h => absurd h List.not_mem_nil
  installed : ∀ m ∈ e.installed, PassedOK n svc E G m := by
    exact fun _ h => absurd h List.not_mem_nil
  started : e.started = [] ∨ ∃ x, e.started = [x] ∧ Issued G₀ G x := by exact .inl rfl

variable {n svc E} {G G' : Ghost}

theorem PacketOK.mono {p : Packet} (h : PacketOK n svc E G p) (hle : G.Le E G') :
    PacketOK n svc E G' p := by
  unfold PacketOK at h ⊢
  split at h
  · exact ⟨h.1.mono hle, h.2⟩
  · exact h.mono hle
  · exact h.mono hle
  · exact h.mono hle
  · trivial
  · trivial

theorem AnswerOK.mono {a : Answer} (h : AnswerOK n svc E G a) (hle : G.Le E G') :
    AnswerOK n svc E G' a where
  packet := h.packet.mono hle
  vote args reply hp hr := (h.vote args reply hp hr).mono hle
  append args reply hp hr := (h.append args reply hp hr).mono hle
  install args reply hp hr := (h.install args reply hp hr).mono hle

/-- An answer that says nothing about the node that gave it. -/
theorem AnswerOK.plain {p : Packet} {reply : RpcReply} (hp : PacketOK n svc E G p)
    (hv : ∀ r, reply ≠ .vote r) (ha : ∀ r, reply ≠ .append r) (hi : ∀ r, reply ≠ .install r) :
    AnswerOK n svc E G ⟨p, reply⟩ where
  packet := hp
  vote _ r _ hr := absurd hr (hv r)
  append _ r _ hr := absurd hr (ha r)
  install _ r _ hr := absurd hr (hi r)

theorem AnswerOK.vouched {p : Packet} {args : InstallSnapshotArgs} {reply : InstallSnapshotReply}
    (hp : PacketOK n svc E G p) (hrpc : p.rpc = .install args) (hv : Vouched n G p.dst args reply) :
    AnswerOK n svc E G ⟨p, .install reply⟩ where
  packet := hp
  vote _ _ _ hr := by cases hr
  append _ _ _ hr := by cases hr
  install args' reply' hrpc' hr := by
    cases hrpc.symm.trans hrpc'
    cases hr
    exact hv

theorem ReaderOK.mono {k : Reader} (h : ReaderOK n svc E G k) (hle : G.Le E G') :
    ReaderOK n svc E G' k := by
  cases k with
  | client call => trivial
  | server p term => exact PacketOK.mono h hle

theorem TaskOK.mono {r r' : Raft} {t : Task} (h : TaskOK n svc E G r t) (hle : G.Le E G')
    (hr : r'.killed = false → r.killed = false ∧ Ahead r.frame r'.frame) :
    TaskOK n svc E G' r' t := by
  unfold TaskOK at h ⊢
  split at h
  · refine ⟨h.1, h.2.1.mono hle, fun hk => ?_⟩
    obtain ⟨hk', hg⟩ := hr hk
    obtain ⟨hme, hT, hs⟩ := h.2.2 hk'
    exact ⟨hme.trans hg.me.symm, hT.trans hg.term, hs.mono hle le_rfl⟩
  · refine ⟨h.1, h.2.1.mono hle, fun hk => ?_⟩
    obtain ⟨hk', hg⟩ := hr hk
    obtain ⟨hme, hT, hs, hb⟩ := h.2.2 hk'
    exact ⟨hme.trans hg.me.symm, hT.trans hg.term, hs.mono hle le_rfl, hb.trans hg.blob⟩
  · intro hk
    obtain ⟨hk', hg⟩ := hr hk
    obtain ⟨hs, ha⟩ := h hk'
    exact ⟨hs.mono hle hg.term, ha.trans hg.applied⟩
  · intro hk
    obtain ⟨hk', hg⟩ := hr hk
    obtain ⟨hs, ha, hb⟩ := h hk'
    exact ⟨hs.mono hle hg.term, ha.trans hg.applied, hb.trans hg.blob⟩
  · exact h.mono hle
  · exact h.mono hle
  · exact h.mono hle
  · exact h.mono hle
  · trivial

theorem StateOK.mono {x : Int × σ} (h : StateOK n svc G x) (hle : G.Le E G') : StateOK n svc G' x := by
  obtain ⟨l, k, T, hx, hset, hs⟩ := h
  exact ⟨l, k, T, hx, hset.ext hle.ext, hs⟩

theorem DispatchOK.mono {e : LogEntry} (h : DispatchOK n G e) (hle : G.Le E G') :
    DispatchOK n G' e := by
  obtain ⟨l, k, T, hset, he⟩ := h
  exact ⟨l, k, T, hset.ext hle.ext, he⟩

theorem PassedOK.mono {m : ApplyMsg} (h : PassedOK n svc E G m) (hle : G.Le E G') :
    PassedOK n svc E G' m := by
  obtain ⟨T, hs⟩ := h
  exact ⟨T, hs.mono hle le_rfl⟩

theorem FeedOK.mono {s s' : Server σ} (h : FeedOK n svc E G s) (hle : G.Le E G')
    (hch : s'.applyCh = s.applyCh) (hst : s'.states = s.states)
    (hg : Grows s.raft.frame s'.raft.frame) : FeedOK n svc E G' s' where
  fed := by
    obtain ⟨b, hf, hb⟩ := h.fed
    refine ⟨b, ?_, fun hp => ?_⟩
    · rw [Server.lastCmd, hst, hch]
      exact hf.mono hle
    · obtain ⟨hp', hx⟩ := hg.feed hp
      exact (hb hp').trans hx.symm
  bound m hm := (h.bound m (hch ▸ hm)).trans hg.applied
  reached x hx := (h.reached x (hst ▸ hx)).trans hg.applied
  states hint x hx := (h.states hint x (hst ▸ hx)).mono hle

/-- A stretch that leaves the upper layer alone. -/
theorem ServerOK.next {s s' : Server σ} (h : ServerOK n svc E G s) (hle : G.Le E G')
    (hch : s'.applyCh = s.applyCh) (hst : s'.states = s.states)
    (hr : s'.raft.killed = false → s.raft.killed = false ∧ Grows s.raft.frame s'.raft.frame)
    (ht : ∀ t ∈ s'.tasks, t ∈ s.tasks ∨ TaskOK n svc E G' s'.raft t) : ServerOK n svc E G' s' where
  tasks t hmem := by
    rcases ht t hmem with hold | hnew
    · exact (h.tasks t hold).mono hle fun hk => (hr hk).imp_right Grows.toAhead
    · exact hnew
  feed hk := by
    obtain ⟨hk', hg⟩ := hr hk
    exact (h.feed hk').mono hle hch hst hg

/-- The applier pushes a batch. -/
theorem FeedOK.push {s : Server σ} (h : FeedOK n svc E G s) (hle : G.Le E G') {r' : Raft}
    {batch : List ApplyMsg} (ha : Applies n svc E G s.raft r' batch) (hg : Ahead s.raft.frame r'.frame) :
    FeedOK n svc E G' { s with raft := r', applyCh := s.applyCh ++ batch } where
  fed := by
    obtain ⟨b, hf, hb⟩ := h.fed
    obtain ⟨c, hf', hc⟩ := ha.fed b hb
    exact ⟨c, (hf.append hf').mono hle, hc⟩
  bound m hm := by
    rcases List.mem_append.mp hm with hm | hm
    · exact (h.bound m hm).trans hg.applied
    · exact ha.bound m hm
  reached x hx := (h.reached x hx).trans hg.applied
  states hint x hx := (h.states hint x hx).mono hle

/-- The state that the upper layer is in. -/
def Server.current (svc : Service σ) (s : Server σ) : σ := (s.states.getLast?.map Prod.snd).getD svc.init

theorem FeedOK.current {s : Server σ} (h : FeedOK n svc E G s) (hint : E.intact) :
    StateOK n svc G (s.lastCmd, s.current svc) := by
  unfold Server.lastCmd Server.current
  cases hl : s.states.getLast? with
  | none => exact ⟨[], 0, 0, rfl, .inl rfl, rfl⟩
  | some x => exact h.states hint x (List.mem_of_getLast? hl)

theorem replay_concat (svc : Service σ) (l : List LogEntry) (e : LogEntry) :
    replay svc (l ++ [e]) = svc.apply (replay svc l) (Raft.commandMsg e.index e) := by
  simp [replay]

/-- Applying the next settled entry leads to the state after it. -/
theorem StateOK.apply {K : Nat → Core} (h : Draft n E G K) {k : Nat} {s : σ}
    (hs : StateOK n svc G (k, s)) {l : List LogEntry} {T : Int} {e : LogEntry}
    (hset : G.L.Settled (majority n) l (k+1) T) (he : l[k]? = some e) :
    StateOK n svc G (((k+1 : Nat) : Int), svc.apply s (Raft.commandMsg ((k+1 : Nat) : Int) e)) := by
  obtain ⟨l₀, k₀, T₀, hk, hset₀, hs₀⟩ := hs
  have hk₀ : k₀ = k := by
    have hk' : (k : Int) = k₀ := hk
    omega
  subst hk₀
  have hag := h.wf.settled_agree hset₀ (hset.mono (Nat.le_succ _) le_rfl)
  rw [Nat.min_self] at hag
  have hx := (h.settled_mem hset he (Nat.lt_succ_self _)).2
  refine ⟨l, k₀+1, T, rfl, hset, ?_⟩
  have hcat : replay svc (l.take (k₀+1)) =
      svc.apply (replay svc (l.take k₀)) (Raft.commandMsg e.index e) := by
    rw [take_succ_of_get he, replay_concat]
  rw [hcat, hx, ← hag, show s = replay svc (l₀.take k₀) from hs₀]
  push_cast
  rfl

theorem Server.consume_cons {s : Server σ} {m : ApplyMsg} {rest : List ApplyMsg}
    (h : s.applyCh = m :: rest) : s.consume svc = { s with
      applyCh := rest
      states := s.states ++ [if m.commandValid then (m.commandIndex, svc.apply (s.current svc) m)
        else (m.snapshotIndex, svc.load m.snapshot)] } := by
  unfold Server.consume
  rw [h]
  rfl

/-- The upper layer takes a message. -/
theorem FeedOK.consume {K : Nat → Core} (hd : Draft n E G K) {s : Server σ} (h : FeedOK n svc E G s) :
    FeedOK n svc E G (s.consume svc) := by
  cases hch : s.applyCh with
  | nil =>
    unfold Server.consume
    rw [hch]
    exact h
  | cons m rest =>
    rw [Server.consume_cons hch]
    obtain ⟨b, hf, hb⟩ := h.fed
    have hcur := h.current
    have hbound := h.bound
    rw [hch] at hf hbound
    have hlast : ∀ x : Int × σ, ((s.states ++ [x]).getLast?.map Prod.fst).getD 0 = x.1 := by
      intro x
      simp
    -- the message leads to the state that comes next
    have hstep : ∀ x : Int × σ, x.1 = m.index → (E.intact → StateOK n svc G x) →
        Fed n svc E G x.1 rest b → FeedOK n svc E G { s with
          applyCh := rest
          states := s.states ++ [x] } := by
      intro x hx hst hrest
      refine ⟨⟨b, ?_, hb⟩, fun m' hm' => hbound m' (List.mem_cons_of_mem m hm'), fun y hy => ?_,
        fun hint y hy => ?_⟩
      · rw [Server.lastCmd, hlast]
        exact hrest
      · rcases List.mem_append.mp hy with hy | hy
        · exact h.reached y hy
        · rw [List.mem_singleton.mp hy, hx]
          exact hbound m List.mem_cons_self
      · rcases List.mem_append.mp hy with hy | hy
        · exact h.states hint y hy
        · rw [List.mem_singleton.mp hy]
          exact hst hint
    generalize hz : s.lastCmd = z at hf hcur
    cases hf with
    | command hset he hrest =>
      refine hstep _ rfl (fun hint => ?_) hrest
      exact (hcur hint).apply hd hset he
    | snapshot hv hc hok hrest =>
      rw [if_neg (by simp [hc])]
      refine hstep _ (by simp [ApplyMsg.index, hc]) (fun hint => ?_) hrest
      obtain ⟨l, k, hx, -, hset, -, hcont⟩ := hok
      exact ⟨l, k, _, hx, hset, (hcont hint).2⟩

/-- A snapshot that the upper layer took stands for the prefix it was taken at. -/
theorem FeedOK.taken {K : Nat → Core} {i : Nat} {s : Server σ} (h : FeedOK n svc E G s)
    (hat : At n svc E G K i s.raft.frame) {index term : Int} {data : Bytes}
    (hmem : (index, svc.load data) ∈ s.states) (hcheck : s.raft.snapshotCheck index = some term)
    (htaken : E.taken data) :
    SnapOK n svc E G index term data s.raft.currentTerm ∧ index ≤ s.raft.lastApplied := by
  refine ⟨?_, h.reached _ hmem⟩
  have hshow := hat.node.shows
  obtain ⟨c, hc, hset⟩ := hat.node.commit
  rw [hat.node.term] at hset
  unfold Raft.snapshotCheck at hcheck
  split at hcheck
  · cases hcheck
  rename_i hno
  push Not at hno
  cases hcheck
  obtain ⟨hle, hlt, hin⟩ := hno
  obtain ⟨k, rfl, hb, hkl⟩ := hshow.mem_range.mp hin
  have hpos : 0 < k := by
    have hsi : s.raft.snapshotIndex = G.L.base i := hshow.index
    omega
  have hkc : k ≤ c := by
    have hc' : s.raft.commitIndex = c := hc
    omega
  refine ⟨G.L.log i, k, rfl, hpos, hset.mono hkc le_rfl, hshow.entryAt_term hb hkl, fun hint =>
    ⟨htaken, ?_⟩⟩
  obtain ⟨l, k', T, hk', hset', hs⟩ := h.states hint _ hmem
  have hkk : k = k' := Int.ofNat_inj.mp hk'
  subst hkk
  have hag := hat.inv.wf.settled_agree hset' (hset.mono hkc le_rfl)
  rw [Nat.min_self] at hag
  rw [show svc.load data = _ from hs, hag]

/-- The clock at the start is in no member that the rest looks at. -/
def Raft.clocked (r : Raft) (now : Int) : Raft := { r with lastHeartbeat := now, lastQuorumCheck := now }

theorem adoptBlob_clocked (r : Raft) (now : Int) (b : SnapshotBlob) :
    (r.clocked now).adoptBlob b = (r.adoptBlob b).clocked now := by
  unfold Raft.adoptBlob
  by_cases h1 : r.snapshotIndex < b.index
  · simp [Raft.clocked, h1]
  · by_cases h2 : b.index = r.snapshotIndex <;> simp [Raft.clocked, h1, h2]

theorem readPersist_clocked (r : Raft) (now : Int) (st : RaftState) :
    (r.clocked now).readPersist st = (r.readPersist st).clocked now := by
  have hstate : (r.clocked now).restoreState st = (r.restoreState st).clocked now := rfl
  have hrest : ∀ r : Raft, (r.clocked now).restoreRest st = (r.restoreRest st).clocked now :=
    fun _ => rfl
  unfold Raft.readPersist
  dsimp only
  rw [hstate, show ((r.restoreState st).clocked now).persister = r.persister from rfl,
    show (r.restoreState st).persister = r.persister from rfl]
  cases r.persister.snapshot with
  | none => rfl
  | some b =>
    dsimp only
    rw [adoptBlob_clocked, hrest]

theorem frame_make_now (i : Nat) (d : Disk) (now now' : Int) :
    (Raft.make n i d now).frame = (Raft.make n i d now').frame := by
  have hblank : Raft.blank n i d now = (Raft.blank n i d now').clocked now := rfl
  unfold Raft.make
  rw [hblank]
  cases d.persister.raftState with
  | none => rfl
  | some st =>
    simp only [readPersist_clocked]
    rfl

/-- Nothing is left for the applier, and what a snapshot covers is applied. -/
structure Raft.Fresh (r : Raft) : Prop where
  alive : r.killed = false
  pending : r.pendingSnapshot = none
  applied : r.lastApplied = r.snapshotIndex

theorem Raft.Fresh.adoptBlob {r : Raft} (h : r.Fresh) (b : SnapshotBlob) : (r.adoptBlob b).Fresh := by
  obtain ⟨h1, h2, h3⟩ := h
  unfold Raft.adoptBlob
  dsimp only
  split_ifs with hlt hx hx
  · exact ⟨h1, h2, max_eq_right (h3.trans_le hlt.le)⟩
  · exact ⟨h1, h2, max_eq_right (h3.trans_le hlt.le)⟩
  · exact ⟨h1, h2, h3⟩
  · exact ⟨h1, h2, h3⟩

theorem fresh_make (i : Nat) (d : Disk) (now : Int) : (Raft.make n i d now).Fresh := by
  unfold Raft.make Raft.readPersist
  cases d.persister.raftState with
  | none => exact ⟨rfl, rfl, rfl⟩
  | some st =>
    have hf : ((Raft.blank n i d now).restoreState st).Fresh := ⟨rfl, rfl, rfl⟩
    dsimp only
    cases ((Raft.blank n i d now).restoreState st).persister.snapshot with
    | none => exact ⟨rfl, rfl, rfl⟩
    | some b =>
      have hb := hf.adoptBlob b
      exact ⟨hb.alive, hb.pending, hb.applied⟩

/-- The upper layer comes up from the snapshot that the node comes up with. -/
theorem FeedOK.restarted {K : Nat → Core} {i : Nat} {r : Raft} (hat : At n svc E G K i r.frame)
    (hf : r.Fresh) (inc : Nat) (saved : Disk) :
    FeedOK n svc E G { raft := r, inc := inc, saved := saved, states := [(r.snapshotIndex,
      if 0 < r.snapshotIndex then svc.load r.snapshotData else svc.init)] } where
  fed := ⟨r.snapshotIndex, .nil _, fun _ => hf.applied.symm⟩
  bound m hm := by simp at hm
  reached x hx := by
    rw [List.mem_singleton.mp hx]
    exact hf.applied.ge
  states hint x hx := by
    rw [List.mem_singleton.mp hx]
    by_cases h0 : 0 < r.snapshotIndex
    · obtain ⟨l, k, hk, -, hset, -, hcont⟩ := hat.ok.data h0
      rw [if_pos h0]
      exact ⟨l, k, _, hk, hset, (hcont hint).2⟩
    · have hsi : r.snapshotIndex = G.L.base i := hat.node.shows.index
      rw [if_neg h0]
      exact ⟨[], 0, 0, by show r.snapshotIndex = 0; omega, .inl rfl, rfl⟩

end
end ChonKV
