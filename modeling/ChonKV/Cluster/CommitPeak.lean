import ChonKV.Cluster.EntryIdentity
import ChonKV.Cluster.Office
import ChonKV.Cluster.Turns
import ChonKV.Durable.Freeze

/-!
The highest commit index of a run, and the leaders that know of it: a leader whose term is not below the one in
which it was reached has committed as much, or serves no reads until it has.
-/

set_option autoImplicit false

namespace ChonKV

open Ballot Ballot.Ledger Raft
open Function (update)

/-- What a request tells of commits and snapshots is not above `M`. -/
def Rpc.Below (M : Int) : Rpc → Prop
  | .append args | .readBeat args => args.leaderCommit ≤ M
  | .install args => args.lastIncludedIndex ≤ M
  | _ => True

def Task.Below (M : Int) : Task → Prop
  | .installBlob _ args _ | .installCommit _ args _ => args.lastIncludedIndex ≤ M
  | .snapshotBlob index _ _ | .snapshotCommit index _ _ => index ≤ M
  | _ => True

theorem Rpc.Below.mono {M M' : Int} {rpc : Rpc} (h : rpc.Below M) (hM : M ≤ M') : rpc.Below M' := by
  cases rpc with
  | append args => exact le_trans h hM
  | readBeat args => exact le_trans h hM
  | install args => exact le_trans h hM
  | _ => trivial

theorem Task.Below.mono {M M' : Int} {t : Task} (h : t.Below M) (hM : M ≤ M') : t.Below M' := by
  cases t with
  | installBlob p args blob => exact le_trans h hM
  | installCommit p args blob => exact le_trans h hM
  | snapshotBlob index term data => exact le_trans h hM
  | snapshotCommit index term data => exact le_trans h hM
  | _ => trivial

section
variable {σ : Type} {n : Nat} {svc : Service σ} {E : Record} {G G' : Ghost} {c d : Cluster σ} {i j : Nat}

/-- What a stretch leaves behind while nothing beyond `M` was committed. -/
structure Server.Obeys (M : Int) (s : Server σ) (e : Effect σ) : Prop where
  raft : Ruled M s.raft e.node.raft
  tasks : ∀ t ∈ e.node.tasks, t ∈ s.tasks ∨ t.Below M
  packets : ∀ p ∈ e.packets, p.rpc.Below M

variable {M : Int} {s : Server σ}

/-- A stretch that sends nothing. -/
theorem Server.Obeys.of_raft {s' : Server σ} {as : List Answer} {ds : List LogEntry} {is : List ApplyMsg}
    {st : List StartResult} {fs : List (Nat × Int)} (h : Ruled M s.raft s'.raft)
    (ht : ∀ t ∈ s'.tasks, t ∈ s.tasks ∨ t.Below M) : s.Obeys M ⟨s', [], as, ds, is, st, fs⟩ :=
  ⟨h, ht, fun _ hp => absurd hp List.not_mem_nil⟩

theorem Server.Obeys.finishRead {s' : Server σ} (h : Ruled M s.raft s'.raft)
    (ht : ∀ t ∈ s'.tasks, t ∈ s.tasks ∨ t.Below M) (k : Reader) (result : Int) :
    s.Obeys M (s'.finishRead k result) := by
  refine ⟨?_, ?_, ?_⟩
  · rwa [finishRead_node]
  · rwa [finishRead_node]
  · simp [finishRead_packets]

theorem tasks_added {s s' : Server σ} {ts : List Task} (hs : ∀ t ∈ s'.tasks, t ∈ s.tasks)
    (hts : ∀ t ∈ ts, t.Below M) (t : Task) (ht : t ∈ (s'.addTasks ts).tasks) : t ∈ s.tasks ∨ t.Below M :=
  (mem_addTasks ht).imp (hs t) (hts t)

theorem obeys_electionTimeout (M : Int) (s : Server σ) (now : Int) : s.Obeys M (s.electionTimeout now) := by
  have h : Ruled M s.raft (s.raft.electionTimeout now).1 := .modest (modest_electionTimeout s.raft now)
  rw [Server.electionTimeout, Server.finishStart]
  split
  · exact .of_raft h fun t ht => .inl ht
  · exact .of_raft h (tasks_added (fun _ ht => ht) (by simp [Task.Below]))
  · refine ⟨h, fun t ht => .inl ht, fun p hp => ?_⟩
    obtain ⟨dst, -, rfl⟩ := List.mem_map.mp hp
    trivial

theorem obeys_openRead (M : Int) {s s' : Server σ} (h : s'.raft = s.raft) (ht : ∀ t ∈ s'.tasks, t ∈ s.tasks)
    (k : Reader) (fresh : Nat) (now : Int) : s.Obeys M (s'.openRead k fresh now) := by
  have hr : Ruled M s.raft (s'.raft.readIndexOpen now).1 :=
    .modest (.of_part ((seatPart_readIndexOpen s'.raft now).trans (congrArg seatPart h)))
  rw [Server.openRead]
  dsimp only
  split
  · refine ⟨hr, tasks_added ht (by simp [Task.Below]), fun p hp => ?_⟩
    rw [List.mem_singleton.mp hp]
    trivial
  · refine .finishRead ?_ ?_ k _
    · exact hr
    · exact fun t htt => .inl (ht t htt)
  · refine .of_raft hr (tasks_added ht fun t htt => ?_)
    rw [List.mem_singleton.mp htt]
    split_ifs <;> trivial

theorem mem_snapshotChunks {base chunk : InstallSnapshotArgs} {k off : Nat} {rest : Bytes}
    (h : chunk ∈ snapshotChunks base k off rest) : chunk.lastIncludedIndex = base.lastIncludedIndex := by
  induction k generalizing off rest with
  | zero => simp [snapshotChunks] at h
  | succ k ih =>
    rw [snapshotChunks] at h
    split_ifs at h
    · rw [List.mem_singleton.mp h]
    · rcases List.mem_cons.mp h with rfl | h
      · rfl
      · exact ih h

/-- What a node sends tells of its own commit index and snapshot. -/
def Tells (r : Raft) : Send → Prop
  | .none => True
  | .append args => args.leaderCommit = r.commitIndex
  | .snapshot chunks => ∀ chunk ∈ chunks, chunk.lastIncludedIndex = r.snapshotIndex

theorem tells_sendTo (r : Raft) (dst : Nat) (p : Progress) (now : Int) : Tells r (r.sendTo dst p now).2 := by
  rw [sendTo]
  dsimp only
  split_ifs
  · rw [sendSnapshot]
    dsimp only
    intro chunk hc
    rw [mem_snapshotChunks hc]
    split_ifs <;> rfl
  · rw [sendAppend]
    split_ifs <;> exact rfl

theorem tells_replicate (r : Raft) (dst : Nat) (now : Int) : Tells r (r.replicate dst now).2 := by
  have hfreeze : ∀ p, (r.freezeRemoved dst p).1.commitIndex = r.commitIndex ∧
      (r.freezeRemoved dst p).1.snapshotIndex = r.snapshotIndex := by
    intro p
    rw [freezeRemoved]
    dsimp only
    split_ifs <;> exact ⟨rfl, rfl⟩
  rw [replicate]
  dsimp only
  split_ifs
  all_goals try trivial
  obtain ⟨hc, hs⟩ := hfreeze (r.progress dst now)
  have h := tells_sendTo (r.freezeRemoved dst (r.progress dst now)).1 dst
    (r.freezeRemoved dst (r.progress dst now)).2 now
  unfold Tells at h ⊢
  rwa [hc, hs] at h

theorem obeys_replicate (hc : s.raft.commitIndex ≤ M) (hs : s.raft.killed = false → s.raft.snapshotIndex ≤ M)
    (dst : Nat) (now : Int) : s.Obeys M (s.replicate dst now) := by
  have h : Ruled M s.raft (s.raft.replicate dst now).1 := .modest (modest_replicate s.raft dst now)
  have ht := tells_replicate s.raft dst now
  have hdead : s.raft.killed = true → (s.raft.replicate dst now).2 = .none := fun hk => by
    rw [Raft.replicate, if_pos (.inl hk)]
  rw [Server.replicate]
  dsimp only
  split
  · exact .of_raft h fun t ht => .inl ht
  · next args hsend =>
    rw [hsend] at ht
    refine ⟨h, fun t ht => .inl ht, fun p hp => ?_⟩
    rw [List.mem_singleton.mp hp]
    exact (show args.leaderCommit = _ from ht).trans_le hc
  · next chunks hsend =>
    rw [hsend] at ht
    have hk : s.raft.killed = false := by
      by_contra hk
      rw [hdead (by simpa using hk)] at hsend
      cases hsend
    refine ⟨h, fun t ht => .inl ht, fun p hp => ?_⟩
    obtain ⟨chunk, hchunk, rfl⟩ := List.mem_map.mp hp
    exact (ht chunk hchunk).trans_le (hs hk)

theorem readHeartbeat_commit {r : Raft} {ctx t : Nat} {args : AppendEntriesArgs}
    (h : r.readHeartbeat ctx t = .send args) : args.leaderCommit = r.commitIndex := by
  rw [readHeartbeat] at h
  split_ifs at h
  all_goals cases h; rfl

/-- One stretch of a thread that released the lock. -/
theorem obeys_runTask (hc : s.raft.commitIndex ≤ M) {t : Task} (hbelow : t.Below M) (k fresh : Nat) (now : Int) :
    s.Obeys M ({ s with tasks := s.tasks.eraseIdx k }.runTask fresh now t) := by
  have herase : ∀ t ∈ s.tasks.eraseIdx k, t ∈ s.tasks := fun _ ht => List.mem_of_mem_eraseIdx ht
  have hkeep : ∀ t ∈ s.tasks.eraseIdx k, t ∈ s.tasks ∨ t.Below M := fun t ht => .inl (herase t ht)
  have hsame : Ruled M s.raft s.raft := .modest (.refl _)
  cases t with
  | startRealElection =>
    have h : Ruled M s.raft (s.raft.startRealElection now).1 := ruled_startRealElection s.raft now
    rw [Server.runTask]
    dsimp only
    split_ifs
    · exact .of_raft h (tasks_added herase (by simp [Task.Below]))
    · exact .of_raft h (tasks_added herase (by simp))
  | sendRequestVotes =>
    rw [Server.runTask]
    split
    · exact .of_raft hsame hkeep
    · refine ⟨hsame, hkeep, fun p hp => ?_⟩
      obtain ⟨dst, -, rfl⟩ := List.mem_map.mp hp
      trivial
  | commitSynced =>
    refine .of_raft (.modest (.of_part ?_)) hkeep
    rfl
  | installBlob p args blob =>
    refine .of_raft (.modest (modest_saveSnapshotBlob s.raft _ _ hbelow)) (tasks_added herase fun t ht => ?_)
    rw [List.mem_singleton.mp ht]
    exact hbelow
  | installCommit p args blob => exact .of_raft (.modest (modest_installCommit s.raft blob hbelow)) hkeep
  | snapshotBlob index term data =>
    refine .of_raft (.modest (modest_saveSnapshotBlob s.raft _ _ hbelow)) (tasks_added herase fun t ht => ?_)
    rw [List.mem_singleton.mp ht]
    exact hbelow
  | snapshotCommit index term data =>
    have h : Modest M s.raft (s.raft.snapshotCommit index term data).1 := modest_snapshotCommit s.raft _ _ _
    refine .of_raft (.modest ?_) hkeep
    dsimp only
    split_ifs
    · exact h.same rfl
    · exact h
  | readOpen k =>
    refine obeys_openRead M ?_ ?_ k fresh now
    · rfl
    · exact herase
  | readBroadcast reader ctx term readIndex t =>
    have hadd : ∀ u : Task, u.Below M →
        s.Obeys M { node := { s with tasks := s.tasks.eraseIdx k }.addTasks [u] } := fun u hu => by
      refine .of_raft ?_ (tasks_added ?_ (by simpa using hu))
      · exact hsame
      · exact herase
    rw [Server.runTask]
    by_cases ht : t < s.raft.peers
    · rw [if_pos ht]
      split
      · exact hadd _ trivial
      · exact hadd _ trivial
      · next args hb =>
        refine ⟨hsame, (hadd (.readBroadcast reader ctx term readIndex (t+1)) trivial).tasks, fun p hp => ?_⟩
        dsimp only at hp
        split_ifs at hp
        · cases hp
        · rw [List.mem_singleton.mp hp]
          exact (readHeartbeat_commit hb).trans_le hc
    · rw [if_neg ht]
      exact hadd _ trivial
  | readWait k ctx term readIndex deadline =>
    have h : Ruled M s.raft (s.raft.readIndexPoll ctx term readIndex deadline now).1 :=
      .modest (.of_part (seatPart_readIndexPoll s.raft ctx term readIndex deadline now))
    rw [Server.runTask]
    dsimp only
    split
    · exact .of_raft h (tasks_added herase (by simp [Task.Below]))
    · refine .finishRead ?_ ?_ _ _
      · exact h
      · exact hkeep
  | readForwarded k token =>
    refine .of_raft ?_ (tasks_added ?_ (by simp [Task.Below]))
    · exact hsame
    · exact herase

theorem obeys_deliver {p : Packet} (hp : p.rpc.Below M) (now : Int) : s.Obeys M (s.deliver p now) := by
  have hkeep : ∀ t ∈ s.tasks, t ∈ s.tasks ∨ t.Below M := fun t ht => .inl ht
  rw [Server.deliver]
  split
  · exact .of_raft (.modest (modest_requestVote s.raft _ now)) hkeep
  · exact .of_raft (.modest (.refl _)) hkeep
  · next args hrpc =>
    rw [hrpc] at hp
    exact .of_raft (.modest (modest_appendEntries s.raft now hp)) hkeep
  · next args hrpc =>
    rw [hrpc] at hp
    exact .of_raft (.modest (modest_appendEntries s.raft now hp)) hkeep
  · next args hrpc =>
    rw [hrpc] at hp
    have h : Ruled M s.raft (s.raft.installSnapshot args now).1 := .modest (modest_installSnapshot s.raft args now)
    dsimp only
    split
    · exact .of_raft h hkeep
    · refine .of_raft h (tasks_added ?_ fun t ht => ?_)
      · exact fun _ ht => ht
      · rw [List.mem_singleton.mp ht]
        exact hp
  · dsimp only
    split_ifs
    · refine .of_raft ?_ (tasks_added ?_ (by simp [Task.Below]))
      · exact .modest (.refl _)
      · exact fun _ ht => ht
    · exact .of_raft (.modest (.refl _)) hkeep

theorem obeys_stay (M : Int) (s : Server σ) : s.Obeys M { node := s } :=
  .of_raft (.modest (.refl _)) fun _ ht => .inl ht

theorem obeys_endForward (M : Int) (s : Server σ) (token : Nat) (ok : Bool) (reply : ReadIndexReply) :
    s.Obeys M (s.endForward token ok reply) := by
  rw [Server.endForward]
  split
  · exact obeys_stay M s
  · refine .finishRead ?_ ?_ _ _
    · exact .modest (.refl _)
    · exact fun t ht => .inl (List.mem_of_mem_erase ht)

theorem mem_electionTask {b : Bool} {t : Task} (h : t ∈ if b = true then [Task.startRealElection] else []) :
    t = .startRealElection := by
  split_ifs at h
  · exact List.mem_singleton.mp h
  · cases h

theorem obeys_answer (M : Int) (s : Server σ) (p : Packet) (reply : RpcReply) (now : Int) :
    s.Obeys M (s.answer p reply now) := by
  have hkeep : ∀ t ∈ s.tasks, t ∈ s.tasks ∨ t.Below M := fun t ht => .inl ht
  unfold Server.answer
  by_cases hinc : p.inc ≠ s.inc
  · rw [if_pos hinc]
    exact obeys_stay M s
  rw [if_neg hinc]
  split
  · exact .of_raft (ruled_voteReply s.raft _ _ _ now) hkeep
  · refine .of_raft (.modest (modest_prevoteReply s.raft _ _ _ now)) (tasks_added ?_ fun t ht => ?_)
    · exact fun t ht => ht
    · rw [mem_electionTask ht]
      trivial
  · refine .of_raft (ruled_appendReply s.raft _ _ _ _ now) (tasks_added ?_ fun t ht => ?_)
    · exact fun t ht => ht
    · rw [mem_syncTask ht]
      trivial
  · exact .of_raft (.modest (modest_readHeartbeatReply s.raft _ _ _ now)) hkeep
  · exact .of_raft (.modest (modest_snapshotReply s.raft _ _ _ _ now)) hkeep
  · exact obeys_endForward M s _ _ _
  · exact obeys_stay M s

theorem obeys_fail (M : Int) (s : Server σ) (p : Packet) (now : Int) : s.Obeys M (s.fail p now) := by
  have hkeep : ∀ t ∈ s.tasks, t ∈ s.tasks ∨ t.Below M := fun t ht => .inl ht
  unfold Server.fail
  by_cases hinc : p.inc ≠ s.inc
  · rw [if_pos hinc]
    exact obeys_stay M s
  rw [if_neg hinc]
  split
  · exact .of_raft (ruled_appendReply s.raft _ _ _ _ now) hkeep
  · exact .of_raft (.modest (modest_snapshotReply s.raft _ _ _ _ now)) hkeep
  · exact obeys_endForward M s _ _ _
  · exact obeys_stay M s

theorem obeys_start (M : Int) (s : Server σ) (command : Command) : s.Obeys M (s.start command) := by
  refine .of_raft (ruled_start s.raft command) (tasks_added ?_ fun t ht => ?_)
  · exact fun t ht => ht
  · rw [mem_syncTask ht]
    trivial

theorem obeys_takeSnapshot [DecidableEq σ] (hc : s.raft.commitIndex ≤ M) (index : Int) (data : Bytes) :
    s.Obeys M { node := s.takeSnapshot svc index data } := by
  rw [Server.takeSnapshot]
  split_ifs
  · cases hcheck : s.raft.snapshotCheck index with
    | none => exact obeys_stay M s
    | some term =>
      rw [snapshotCheck] at hcheck
      split_ifs at hcheck with hno
      rw [not_or, not_lt] at hno
      refine .of_raft ?_ (tasks_added ?_ fun t ht => ?_)
      · exact .modest (.refl _)
      · exact fun _ ht => ht
      · rw [List.mem_singleton.mp ht]
        exact hno.1.trans hc
  · exact obeys_stay M s

/-- Nothing on its way tells of more than the highest commit index, and no node has committed or saved more. -/
structure Ceiled (n : Nat) (c : Cluster σ) : Prop where
  packets : ∀ p ∈ c.packets, p.rpc.Below c.maxCommit
  tasks : ∀ i < n, ∀ t ∈ (c.nodes i).tasks, t.Below c.maxCommit
  objects : ∀ i < n, (c.nodes i).raft.commitIndex ≤ c.maxCommit
  images : ∀ i < n, (c.raft n i).commitIndex ≤ c.maxCommit ∧ (c.raft n i).savedBlobIndex ≤ c.maxCommit

/-- A node that is up is its object, and a node that is down what its copy of the disk brings up. -/
theorem raft_alive (hk : (c.nodes i).raft.killed = false) : c.raft n i = (c.nodes i).raft := Server.image_alive hk

/-- A leader that serves reads has committed as much as any node has in its term, and of its own term it has
all that it does not serve yet. -/
structure Peaked (n : Nat) (G : Ghost) (c : Cluster σ) : Prop extends Ceiled n c where
  own : ∀ i < n, (c.nodes i).raft.killed = false → (c.nodes i).raft.state = .kLeader →
    ∀ e ∈ (c.nodes i).raft.logs.tail, (c.nodes i).raft.readSafeCommit < e.index →
      e.term = (c.nodes i).raft.currentTerm
  peak : c.maxCommit ≤ 0 ∨ ∃ (T : Int) (p : Nat), G.L.Chosen (majority n) T p ∧ c.maxCommit ≤ p+1 ∧
    ∀ i < n, (c.nodes i).raft.killed = false → (c.nodes i).raft.state = .kLeader →
      (c.nodes i).raft.currentTerm = T →
        c.maxCommit ≤ max (c.nodes i).raft.commitIndex (c.nodes i).raft.readSafeCommit

/-- A leader that a quorum has not left, and that serves reads, has committed all that anybody has. -/
theorem Peaked.fair (hc : Peaked n G c) (h : Sound n svc E G c) (hi : i < n)
    (hk : (c.nodes i).raft.killed = false) (hl : (c.nodes i).raft.state = .kLeader)
    (hsafe : (c.nodes i).raft.readSafeCommit ≤ (c.nodes i).raft.commitIndex) {Q : Set Nat}
    (hQ : (majority n).IsQuorum Q)
    (hle : ∀ q ∈ Q, G.L.term q ≤ (c.nodes i).raft.currentTerm) :
    c.maxCommit ≤ (c.nodes i).raft.commitIndex := by
  have hnode : NodeInv n G i (c.nodes i).raft.core := (h.live hi hk).node
  obtain ⟨k, hk', -⟩ := hnode.commit
  have hcommit : (c.nodes i).raft.commitIndex = k := hk'
  rcases hc.peak with hzero | ⟨T, p, hch, hM, hpeak⟩
  · omega
  -- a node of the quorum acknowledged what was chosen
  obtain ⟨-, -, A, hA, hack⟩ := id hch
  obtain ⟨q, hqA, hqQ⟩ := (majority n).meet hA hQ
  have hT : T ≤ (c.nodes i).raft.currentTerm :=
    (h.inv.wf.acked_term q T (Nat.lt_of_le_of_lt (Nat.zero_le p) (hack q hqA))).trans (hle q hqQ)
  rcases hT.eq_or_lt with heq | hlt
  · exact (hpeak i hi hk hl heq.symm).trans (max_le le_rfl hsafe)
  · by_contra hgt
    push Not at hgt
    have hlead : Leads n G i (c.nodes i).raft.core := hnode.leads hl
    have hlog : G.L.log i = G.L.hist (c.nodes i).raft.currentTerm := hlead.log
    have hag : (G.L.hist (c.nodes i).raft.currentTerm).take (p+1) = (G.L.hist T).take (p+1) :=
      h.inv.wf.chosen_agree hch hlead.opened hT
    obtain ⟨m, hm⟩ : ∃ m : Nat, c.maxCommit = m+1 := ⟨(c.maxCommit - 1).toNat, by omega⟩
    have hlen := length_of_take hag hch.lt
    obtain ⟨e, he⟩ : ∃ e, (G.L.hist T)[m]? = some e := by
      have hmp : m < (G.L.hist T).length := by
        have := hch.lt
        omega
      exact ⟨_, List.getElem?_eq_getElem hmp⟩
    have he' : (G.L.log i)[m]? = some e := by
      rw [hlog, getElem?_of_take hag (by omega)]
      exact he
    have hterm : e.term ≤ T := h.inv.wf.hist_le T m e he
    have hsh := hnode.shows
    have hindex : e.index = m+1 := hsh.aligned m e he'
    have happlied : (c.nodes i).raft.snapshotIndex ≤ (c.nodes i).raft.lastApplied ∧
        (c.nodes i).raft.lastApplied ≤ (c.nodes i).raft.commitIndex := hnode.applied
    have hb : (c.nodes i).raft.snapshotIndex = G.L.base i := hsh.index
    have hmem : e ∈ (c.nodes i).raft.logs.tail := by
      rw [show (c.nodes i).raft.logs = _ from hsh.logs, List.tail_cons]
      refine List.mem_of_getElem? (i := m - G.L.base i) ?_
      rwa [List.getElem?_drop, Nat.add_sub_cancel' (by omega)]
    have hown := hc.own i hi hk hl e hmem (by omega)
    omega

/-- What a node that is up holds is not beyond its last index. -/
theorem Sound.index_le (h : Sound n svc E G c) (hi : i < n) (hk : (c.nodes i).raft.killed = false) {e : LogEntry}
    (he : e ∈ (c.nodes i).raft.logs.tail) : e.index ≤ (c.nodes i).raft.lastLogIndexLocked := by
  have hsh := (h.live hi hk).node.shows
  have hlast : (c.nodes i).raft.lastLogIndexLocked = (G.L.log i).length := hsh.lastIndexOf_eq
  rw [show (c.nodes i).raft.logs = _ from hsh.logs, List.tail_cons] at he
  obtain ⟨m, hm⟩ := List.mem_iff_getElem?.mp (List.mem_of_mem_drop he)
  have hlt := (List.getElem?_eq_some_iff.mp hm).1
  have hidx := hsh.aligned m e hm
  omega

/-- A leader's log is that of its term. -/
theorem Sound.leader_length (h : Sound n svc E G c) (hi : i < n) (hk : (c.nodes i).raft.killed = false)
    (hl : (c.nodes i).raft.state = .kLeader) :
    (c.nodes i).raft.lastLogIndexLocked = (G.L.hist (c.nodes i).raft.currentTerm).length := by
  have hnode : NodeInv n G i (c.nodes i).raft.core := (h.live hi hk).node
  have hlog : G.L.log i = G.L.hist (c.nodes i).raft.currentTerm := (hnode.leads hl).log
  have hlast : (c.nodes i).raft.lastLogIndexLocked = (G.L.log i).length := hnode.shows.lastIndexOf_eq
  rw [hlast, hlog]

/-- Two leaders of one term are one. -/
theorem Sound.leader_unique (h : Sound n svc E G c) (hi : i < n) (hj : j < n)
    (hki : (c.nodes i).raft.killed = false) (hkj : (c.nodes j).raft.killed = false)
    (hli : (c.nodes i).raft.state = .kLeader) (hlj : (c.nodes j).raft.state = .kLeader)
    (hT : (c.nodes i).raft.currentTerm = (c.nodes j).raft.currentTerm) : i = j := by
  have hnode : NodeInv n G i (c.nodes i).raft.core := (h.live hi hki).node
  have hnode' : NodeInv n G j (c.nodes j).raft.core := (h.live hj hkj).node
  have howner : G.owner (c.nodes i).raft.currentTerm = i := (hnode.leads hli).owner
  have howner' : G.owner (c.nodes j).raft.currentTerm = j := (hnode'.leads hlj).owner
  rw [← howner, ← howner', hT]

/-- What a leader commits in its own term was chosen in it. -/
theorem Sound.chosen_own (h : Sound n svc E G c) (hi : i < n) (hk : (c.nodes i).raft.killed = false)
    (hpos : 0 < (c.nodes i).raft.commitIndex)
    (hown : (c.nodes i).raft.inLogs (c.nodes i).raft.commitIndex ∧
      ((c.nodes i).raft.logAt (c.nodes i).raft.commitIndex).term = (c.nodes i).raft.currentTerm) :
    ∃ p : Nat, G.L.Chosen (majority n) (c.nodes i).raft.currentTerm p ∧ (c.nodes i).raft.commitIndex ≤ p+1 := by
  have hnode : NodeInv n G i (c.nodes i).raft.core := (h.live hi hk).node
  obtain ⟨k, hk', hset⟩ := hnode.commit
  have hcommit : (c.nodes i).raft.commitIndex = k := hk'
  have hT : G.L.term i = (c.nodes i).raft.currentTerm := hnode.term
  rw [hcommit] at hown hpos
  obtain ⟨x, hx, hb, hlen⟩ := hnode.shows.mem_range.mp hown.1
  obtain rfl : k = x := Int.ofNat_inj.mp hx
  have hterm : termAt (G.L.log i) k = (c.nodes i).raft.currentTerm :=
    (hnode.shows.entryAt_term hb hlen).symm.trans hown.2
  rcases hset with rfl | ⟨T, p, hch, hkp, hle, htake⟩
  · exact absurd hpos (lt_irrefl _)
  · rw [hT] at hle
    obtain ⟨m, rfl⟩ : ∃ m, k = m+1 := ⟨k-1, by omega⟩
    obtain ⟨e, he⟩ : ∃ e, (G.L.hist T)[m]? = some e := by
      have hlt : m < (G.L.hist T).length := by
        have := hch.lt
        omega
      exact ⟨_, List.getElem?_eq_getElem hlt⟩
    rw [termAt_congr htake, termAt_succ he] at hterm
    have hge := h.inv.wf.hist_le T m e he
    rw [stamp_eq, hterm] at hge
    obtain rfl : T = (c.nodes i).raft.currentTerm := le_antisymm hle hge
    exact ⟨p, hch, by omega⟩

theorem Ceiled.stretch (hc : Ceiled n c) {b : Cluster σ} (hnodes : b.nodes = c.nodes) (hpackets : b.packets = c.packets)
    (hmax : b.maxCommit = c.maxCommit) {ef : Effect σ} (hob : (c.nodes i).Obeys c.maxCommit ef)
    (hsaved : ef.node.saved = (c.nodes i).saved) : Ceiled n (b.put i ef) := by
  have hM : c.maxCommit ≤ (b.put i ef).maxCommit := hmax ▸ le_max_left _ _
  have hother : ∀ j, j ≠ i → (b.put i ef).nodes j = c.nodes j := fun j hj => by
    rw [← hnodes]
    exact Function.update_of_ne hj _ _
  have hself : (b.put i ef).nodes i = ef.node := Function.update_self _ _ _
  refine ⟨fun p hp => ?_, fun j hj t ht => ?_, fun j hj => ?_, fun j hj => ?_⟩
  · rcases List.mem_append.mp hp with hp | hp
    · exact (hc.packets p (hpackets ▸ hp)).mono hM
    · exact (hob.packets p hp).mono hM
  · by_cases hji : j = i
    · subst hji
      rw [hself] at ht
      rcases hob.tasks t ht with ht | ht
      · exact (hc.tasks j hj t ht).mono hM
      · exact ht.mono hM
    · rw [hother j hji] at ht
      exact (hc.tasks j hj t ht).mono hM
  · by_cases hji : j = i
    · subst hji
      rw [hself]
      exact le_max_right _ _
    · rw [hother j hji]
      exact (hc.objects j hj).trans hM
  · by_cases hji : j = i
    · subst hji
      have hkilled := hob.raft.killed
      obtain ⟨hci, hbi⟩ := hc.images j hj
      cases hk : (c.nodes j).raft.killed with
      | true =>
        have himg : (b.put j ef).raft n j = c.raft n j := by
          simp [Cluster.raft, hself, Server.image, hkilled, hk, hsaved]
        rw [himg]
        exact ⟨hci.trans hM, hbi.trans hM⟩
      | false =>
        rw [raft_alive hk] at hbi
        rw [raft_alive (by rw [hself, hkilled, hk]), hself]
        exact ⟨le_max_right _ _, (hob.raft.blob_le hbi).trans hM⟩
    · obtain ⟨hci, hbi⟩ := hc.images j hj
      have himg : (b.put i ef).raft n j = c.raft n j := by
        rw [Cluster.raft, Cluster.raft, hother j hji]
      rw [himg]
      exact ⟨hci.trans hM, hbi.trans hM⟩

theorem Peaked.stretch (hc : Peaked n G c) (h : Sound n svc E G c) (hle : G.Le E G') (hi : i < n) {b : Cluster σ}
    (hnodes : b.nodes = c.nodes) (hpackets : b.packets = c.packets) (hmax : b.maxCommit = c.maxCommit)
    {ef : Effect σ} (hd : Sound n svc E G' (b.put i ef)) (hob : (c.nodes i).Obeys c.maxCommit ef)
    (hsaved : ef.node.saved = (c.nodes i).saved) : Peaked n G' (b.put i ef) := by
  have hcap := hc.toCeiled.stretch hnodes hpackets hmax hob hsaved
  have hother : ∀ j, j ≠ i → (b.put i ef).nodes j = c.nodes j := fun j hj => by
    rw [← hnodes]
    exact Function.update_of_ne hj _ _
  have hself : (b.put i ef).nodes i = ef.node := Function.update_self _ _ _
  have hkilled := hob.raft.killed
  have hM : (b.put i ef).maxCommit = max c.maxCommit ef.node.raft.commitIndex := by
    rw [← hmax]
    rfl
  refine ⟨hcap, fun j hj hk hl => ?_, ?_⟩
  · by_cases hji : j = i
    · subst hji
      have hindex := fun e he => hd.index_le hj hk (e := e) he
      rw [hself] at hk hl hindex ⊢
      exact own_next hob.raft hl (hc.own j hj (hkilled ▸ hk)) hindex
    · rw [hother j hji] at hk hl ⊢
      exact hc.own j hj hk hl
  rcases le_or_gt ef.node.raft.commitIndex c.maxCommit with hsame | hgt
  · -- the highest commit index is that of before
    rw [max_eq_left hsame] at hM
    rcases hc.peak with hzero | ⟨T, p, hch, hp, hpeak⟩
    · exact .inl (hM ▸ hzero)
    refine .inr ⟨T, p, hch.ext hle.ext, hM ▸ hp, fun j hj hk hl hT => ?_⟩
    rw [hM]
    by_cases hji : j = i
    · subst hji
      have hlen := hd.leader_length hj hk hl
      have hlt : p < (G'.L.hist ((b.put j ef).nodes j).raft.currentTerm).length := by
        rw [hT]
        exact (hch.ext hle.ext).lt
      rw [hself] at hk hl hT hlen hlt ⊢
      rcases hob.raft.office hl with hgo | hsafe
      · have hold := hpeak j hj (hkilled ▸ hk) hgo.leader (hgo.term.symm.trans hT)
        rw [hgo.safe]
        exact hold.trans (max_le_max_right _ hgo.commit)
      · refine le_max_of_le_right ?_
        omega
    · rw [hother j hji] at hk hl hT ⊢
      exact hpeak j hj hk hl hT
  · -- the leader of the term in which the highest commit index is reached is alone in it
    have hcom : CommitsOwn (c.nodes i).raft ef.node.raft :=
      (hob.raft.commit_le (hc.objects i hi)).resolve_left (not_le.mpr hgt)
    have hk : ((b.put i ef).nodes i).raft.killed = false := by
      rw [hself, hkilled]
      exact hcom.alive
    have hl : ((b.put i ef).nodes i).raft.state = .kLeader := by
      rw [hself]
      exact hcom.stays
    have hpos : 0 < ((b.put i ef).nodes i).raft.commitIndex := by
      obtain ⟨k, hk', -⟩ := (h.live hi hcom.alive).node.commit
      have hnonneg : (c.nodes i).raft.commitIndex = k := hk'
      have hobj := hc.objects i hi
      rw [hself]
      omega
    rw [max_eq_right hgt.le] at hM
    obtain ⟨p, hch, hp⟩ := hd.chosen_own hi hk hpos (by rw [hself]; exact hcom.own)
    refine .inr ⟨_, p, hch, ?_, fun j hj hkj hlj hT => ?_⟩
    · rw [hM]
      rwa [hself] at hp
    · obtain rfl := hd.leader_unique hj hi hkj hk hlj hl hT
      rw [hM, hself]
      exact le_max_left _ _

/-- A node that goes down, or comes up, is where its disk was. -/
theorem Peaked.disk (hc : Peaked n G c) (hle : G.Le E G') {s' : Server σ}
    (htasks : ∀ t ∈ s'.tasks, t ∈ (c.nodes i).tasks) (hi : i < n) (hcommit : s'.raft.commitIndex ≤ c.maxCommit)
    (himg : (s'.image n i).commitIndex ≤ c.maxCommit ∧ (s'.image n i).savedBlobIndex ≤ c.maxCommit)
    (hoff : s'.raft.killed = false → s'.raft.state ≠ .kLeader) : Peaked n G' (c.put i { node := s' }) := by
  have hM : (c.put i { node := s' }).maxCommit = c.maxCommit := max_eq_left hcommit
  have hother : ∀ j, j ≠ i → (c.put i { node := s' }).nodes j = c.nodes j := fun j hj =>
    Function.update_of_ne hj _ _
  have hself : (c.put i { node := s' }).nodes i = s' := Function.update_self _ _ _
  have hpackets : (c.put i { node := s' }).packets = c.packets := List.append_nil _
  have hled : ∀ j, ((c.put i { node := s' }).nodes j).raft.killed = false →
      ((c.put i { node := s' }).nodes j).raft.state = .kLeader → j ≠ i := by
    rintro j hk hl rfl
    rw [hself] at hk hl
    exact hoff hk hl
  refine ⟨⟨fun p hp => ?_, fun j hj t ht => ?_, fun j hj => ?_, fun j hj => ?_⟩, fun j hj hk hl => ?_, ?_⟩
  · rw [hM]
    exact hc.packets p (hpackets ▸ hp)
  · rw [hM]
    by_cases hji : j = i
    · subst hji
      rw [hself] at ht
      exact hc.tasks j hj t (htasks t ht)
    · exact hc.tasks j hj t (hother j hji ▸ ht)
  · rw [hM]
    by_cases hji : j = i
    · subst hji
      rwa [hself]
    · rw [hother j hji]
      exact hc.objects j hj
  · rw [hM, Cluster.raft]
    by_cases hji : j = i
    · subst hji
      rwa [hself]
    · rw [hother j hji]
      exact hc.images j hj
  · have hji := hled j hk hl
    rw [hother j hji] at hk hl ⊢
    exact hc.own j hj hk hl
  · rw [hM]
    rcases hc.peak with hzero | ⟨T, p, hch, hp, hpeak⟩
    · exact .inl hzero
    refine .inr ⟨T, p, hch.ext hle.ext, hp, fun j hj hk hl => ?_⟩
    have hji := hled j hk hl
    rw [hother j hji] at hk hl ⊢
    exact hpeak j hj hk hl

theorem adoptBlob_commitIndex {r : Raft} (h : r.commitIndex = r.snapshotIndex) (b : SnapshotBlob) :
    (r.adoptBlob b).commitIndex = (r.adoptBlob b).snapshotIndex := by
  unfold Raft.adoptBlob
  dsimp only
  split_ifs with hlt hx hx
  · exact max_eq_right (h.trans_le hlt.le)
  · exact max_eq_right (h.trans_le hlt.le)
  · exact h
  · exact h

/-- A node comes up with no more committed than its snapshot covers. -/
theorem make_commitIndex (peers me : Nat) (d : Disk) (now : Int) :
    (Raft.make peers me d now).commitIndex = (Raft.make peers me d now).snapshotIndex := by
  unfold Raft.make Raft.readPersist
  cases d.persister.raftState with
  | none => rfl
  | some st =>
    dsimp only
    have hst : ((Raft.blank peers me d now).restoreState st).commitIndex =
        ((Raft.blank peers me d now).restoreState st).snapshotIndex := rfl
    cases ((Raft.blank peers me d now).restoreState st).persister.snapshot with
    | none => rfl
    | some b => exact adoptBlob_commitIndex hst b

/-- What a crash leaves saved is what the node had saved. -/
theorem Sound.kill_image (h : Sound n svc E G c) (hi : i < n) (hk : (c.nodes i).raft.killed = false)
    (hd : Sound n svc E G' (c.put i { node := (c.nodes i).kill })) :
    ((c.nodes i).kill.image n i).commitIndex ≤ (c.nodes i).raft.savedBlobIndex ∧
      ((c.nodes i).kill.image n i).savedBlobIndex = (c.nodes i).raft.savedBlobIndex := by
  have hnode : (c.put i { node := (c.nodes i).kill }).nodes i = (c.nodes i).kill := Function.update_self _ _ _
  have hold := (h.live hi hk).ok.toHeld
  have hnew := (hd.ok i hi).toHeld
  rw [Cluster.frames, hnode] at hnew
  have himg : (c.nodes i).kill.image n i = Raft.make n i (c.nodes i).kill.saved 0 := by
    rw [Server.image, Server.kill, hk]
    rfl
  have hp : ((c.nodes i).kill.image n i).persister = (c.nodes i).raft.persister := by
    rw [himg, make_persister, Server.kill, hk]
    rfl
  have hsaved : ((c.nodes i).kill.image n i).savedBlobIndex = (c.nodes i).raft.savedBlobIndex := by
    cases hb : (c.nodes i).raft.persister.snapshot with
    | none => exact (hnew.noBlob (by rw [← hb, ← hp]; rfl)).trans (hold.noBlob hb).symm
    | some b => exact (hnew.blob b (by rw [← hb, ← hp]; rfl)).1.symm.trans (hold.blob b hb).1
  refine ⟨?_, hsaved⟩
  have hcommit : ((c.nodes i).kill.image n i).commitIndex = ((c.nodes i).kill.image n i).snapshotIndex := by
    rw [himg]
    exact make_commitIndex n i _ 0
  rw [hcommit, ← hsaved]
  exact hnew.blobIndex

theorem Peaked.mono (hc : Peaked n G c) (hle : G.Le E G') : Peaked n G' c := by
  refine ⟨hc.toCeiled, hc.own, hc.peak.imp_right ?_⟩
  rintro ⟨T, p, hch, hp⟩
  exact ⟨T, p, hch.ext hle.ext, hp⟩

theorem Peaked.called (hc : Peaked n G c) (e : Event) : Peaked n G (c.called e) := by
  cases e with
  | read i now => exact ⟨⟨hc.packets, hc.tasks, hc.objects, hc.images⟩, hc.own, hc.peak⟩
  | _ => exact hc

theorem peaked_init (n : Nat) (svc : Service σ) : Peaked n Ghost.start (Cluster.init n svc) := by
  have hframe : ∀ i, (Raft.make n i {} 0).frame = booted n i {} (firstState n) :=
    fun i => frame_make_none rfl rfl [] 0
  have hstate : ∀ i, ((Cluster.init n svc).nodes i).raft.state ≠ .kLeader := fun i => by
    rw [show ((Cluster.init n svc).nodes i).raft = Raft.make n i {} 0 from rfl, (make_members _ _ _ _).2.2.2]
    decide
  have hraft : ∀ i, (Cluster.init n svc).raft n i = Raft.make n i {} 0 := fun i =>
    raft_alive (fresh_make i {} 0).alive
  have hci : ∀ i, (Raft.make n i {} 0).commitIndex = 0 := fun i => congrArg (fun f : Frame => f.commitIndex) (hframe i)
  have hbi : ∀ i, (Raft.make n i {} 0).savedBlobIndex = 0 := fun i =>
    congrArg (fun f : Frame => f.savedBlobIndex) (hframe i)
  refine ⟨⟨by simp [Cluster.init], by simp [Cluster.init], fun i _ => (hci i).le, fun i _ => ?_⟩,
    fun i _ _ hl => absurd hl (hstate i), .inl le_rfl⟩
  rw [hraft, hci, hbi]
  exact ⟨le_rfl, le_rfl⟩

variable [DecidableEq σ]

/-- Every turn but a crash or a restart. -/
theorem Ceiled.obeys (hc : Ceiled n c) (h : Sound n svc E G c) {e : Event} (hstatic : e.isStatic = true)
    (he : e.isStretch = true) (hi : i < n) {ef : Effect σ} (ht : Cluster.Turn n svc c e i ef) :
    (c.nodes i).Obeys c.maxCommit ef := by
  have hlive : (c.nodes i).raft.killed = false → (c.nodes i).raft.snapshotIndex ≤ (c.nodes i).raft.lastApplied ∧
      (c.nodes i).raft.lastApplied ≤ (c.nodes i).raft.commitIndex := fun hk => (h.live hi hk).node.applied
  cases ht with
  | electionTimeout i now => exact obeys_electionTimeout _ _ now
  | leaderTick i now =>
    exact .of_raft (.modest (modest_leaderTick _ now)) fun t ht => .inl ht
  | runTask i k now t ht =>
    have hmem := List.mem_of_getElem? ht
    exact obeys_runTask (hc.objects i hi) (hc.tasks i hi t hmem) k _ now
  | noTask i k now => exact obeys_stay _ _
  | deliver k now p hp => exact obeys_deliver (hc.packets p (List.mem_of_getElem? hp)) now
  | answer k now a ha => exact obeys_answer _ _ _ _ now
  | fail k now p hp => exact obeys_fail _ _ _ now
  | replicate i s now hs =>
    refine obeys_replicate (hc.objects i hi) (fun hk => ?_) s now
    exact ((hlive hk).1.trans (hlive hk).2).trans (hc.objects i hi)
  | start i command => exact obeys_start _ _ command
  | proposeConf i server target => cases hstatic
  | applyLoop i now =>
    exact .of_raft (.modest (.of_part (seatPart_applyLoop _ now))) fun t ht => .inl ht
  | consume i =>
    obtain ⟨hraft, htasks, -⟩ := consume_raft svc (c.nodes i)
    refine .of_raft ?_ fun t ht => .inl (htasks ▸ ht)
    rw [hraft]
    exact .modest (.refl _)
  | takeSnapshot i index data => exact obeys_takeSnapshot (hc.objects i hi) index data
  | kill i => cases he
  | restart i now => cases he
  | read i now => exact obeys_openRead _ rfl (fun t ht => ht) _ _ now
  | setLimits i m b =>
    refine .of_raft (.modest (.of_part ?_)) fun t ht => .inl ht
    rfl

/-- Every event of a run with a static membership. -/
theorem Peaked.step (hc : Peaked n G c) (h : Sound n svc E G c) {e : Event} (hstatic : e.isStatic = true)
    (hle : G.Le E G') (hd : Sound n svc E G' (c.step n svc e)) : Peaked n G' (c.step n svc e) := by
  rcases Cluster.step_cases n svc c e with heq | ⟨i, hi, ef, ht, heq⟩
  · rw [heq]
    exact (hc.called e).mono hle
  cases hs : e.isStretch with
  | true =>
    have hkeep := (keeps_step h hstatic hs hi).saved
    rw [heq] at hd hkeep ⊢
    have hsaved : ef.node.saved = (c.nodes i).saved := by
      rw [show ((c.called e).put i ef).nodes i = ef.node from Function.update_self _ _ _] at hkeep
      exact hkeep
    exact hc.stretch h hle hi (c.called_nodes e) (c.called_packets e) (c.called_maxCommit e) hd
      (hc.toCeiled.obeys h hstatic hs hi ht) hsaved
  | false =>
    have hstay : c.step n svc e = c.put i { node := c.nodes i } → Peaked n G' (c.step n svc e) := fun hput => by
      rw [hput] at hd ⊢
      exact hc.stretch h hle hi rfl rfl rfl hd (obeys_stay _ _) rfl
    cases ht with
    | kill i =>
      cases hk : (c.nodes i).raft.killed with
      | true =>
        refine hstay (heq.trans ?_)
        rw [Server.kill, if_pos hk]
        rfl
      | false =>
        rw [heq] at hd ⊢
        obtain ⟨hci, hbi⟩ := h.kill_image hi hk hd
        have hold := (hc.images i hi).2
        rw [raft_alive hk] at hold
        have hkill : (c.nodes i).kill.tasks = (c.nodes i).tasks ∧
            (c.nodes i).kill.raft = { (c.nodes i).raft with killed := true } := by
          rw [Server.kill, hk]
          exact ⟨rfl, rfl⟩
        refine hc.disk hle (fun t ht => hkill.1 ▸ ht) hi ?_ ⟨hci.trans hold, hbi.trans_le hold⟩ ?_
        · rw [hkill.2]
          exact hc.objects i hi
        · rw [hkill.2]
          exact fun hno => by cases hno
    | restart i now =>
      cases hk : (c.nodes i).raft.killed with
      | false =>
        refine hstay (heq.trans ?_)
        rw [Server.restart, if_pos (by simp [hk])]
        rfl
      | true =>
        have hr : ((c.nodes i).restart svc n i now).raft = Raft.make n i (c.nodes i).saved now ∧
            ((c.nodes i).restart svc n i now).tasks = [] := by
          rw [Server.restart, if_neg (by simp [hk])]
          exact ⟨rfl, rfl⟩
        have himg : (Raft.make n i (c.nodes i).saved now).frame = c.frames n i := by
          rw [Cluster.frames, Server.image, if_pos hk]
          exact frame_make_now i _ now 0
        have hci : (Raft.make n i (c.nodes i).saved now).commitIndex = (c.raft n i).commitIndex :=
          congrArg (fun f : Frame => f.commitIndex) himg
        have hbi : (Raft.make n i (c.nodes i).saved now).savedBlobIndex = (c.raft n i).savedBlobIndex :=
          congrArg (fun f : Frame => f.savedBlobIndex) himg
        have halive := (fresh_make (n := n) i (c.nodes i).saved now).alive
        have himages := hc.images i hi
        rw [heq]
        refine hc.disk hle (fun t ht => ?_) hi ?_ ?_ fun _ => ?_
        · rw [hr.2] at ht
          cases ht
        · rw [hr.1, hci]
          exact himages.1
        · rw [Server.image_alive (by rw [hr.1, halive]), hr.1, hci, hbi]
          exact himages
        · rw [hr.1, (make_members _ _ _ _).2.2.2]
          decide
    | _ => cases hs

end
end ChonKV
