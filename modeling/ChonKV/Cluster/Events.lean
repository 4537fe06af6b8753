import ChonKV.Cluster.Reachable

/-!
Every event keeps the invariant of a cluster.
-/

set_option autoImplicit false

namespace ChonKV

open Ballot Ballot.Ledger
open Function (update)

section
variable {σ : Type} {n : Nat} {svc : Service σ} {E : Record} {G G' : Ghost} {c : Cluster σ} {i : Nat}

theorem ServerOK.stretch {s s' : Server σ} {P : Prop} (h : ServerOK n svc E G s) (hle : G.Le E G')
    (hw : Went s s'.raft P) (hch : s'.applyCh = s.applyCh) (hst : s'.states = s.states)
    (ht : ∀ t ∈ s'.tasks, t ∈ s.tasks ∨ TaskOK n svc E G' s'.raft t) : ServerOK n svc E G' s' :=
  h.next hle hch hst hw.grows ht

theorem Sound.electionTimeout (h : Sound n svc E G c) (hi : i < n) (now : Int) :
    ∃ G', G.Le E G' ∧ Sound n svc E G' (c.put i ((c.nodes i).electionTimeout now)) := by
  have hraft : ((c.nodes i).electionTimeout now).node.raft = ((c.nodes i).raft.electionTimeout now).1 := by
    unfold Server.electionTimeout Server.finishStart
    split <;> rfl
  refine h.stretch hi (P := fun _ => True) (fun hk => ⟨?_, ?_⟩) (fun hat => ?_) fun G' hle hw => ?_
  · rw [hraft, Raft.electionTimeout, if_pos (.inl hk)]
    exact hk
  · unfold Server.electionTimeout Server.finishStart
    split <;> rfl
  · rw [hraft]
    exact hat.electionTimeout now
  · rw [hraft] at hw
    unfold Server.electionTimeout Server.finishStart
    have hnode := h.nodes i hi
    split
    · exact { node := hnode.stretch hle hw rfl rfl fun t ht => .inl ht }
    · refine { node := hnode.stretch hle hw rfl rfl fun t ht => ?_ }
      rcases List.mem_append.mp ht with ht | ht
      · exact .inl ht
      · rw [List.mem_singleton.mp ht]
        exact .inr trivial
    · refine { node := hnode.stretch hle hw rfl rfl fun t ht => .inl ht, packets := fun p hp => ?_ }
      obtain ⟨s, -, rfl⟩ := List.mem_map.mp hp
      trivial

theorem Sound.leaderTick (h : Sound n svc E G c) (hi : i < n) (now : Int) :
    ∃ G', G.Le E G' ∧ Sound n svc E G' (c.put i ((c.nodes i).leaderTick now)) := by
  refine h.stretch hi (fun hk => ⟨?_, rfl⟩) (fun hat => hat.leaderTick now) fun G' hle hw =>
    { node := (h.nodes i hi).stretch hle hw rfl rfl fun t ht => .inl ht }
  show ((c.nodes i).raft.leaderTick now).killed = true
  rw [Raft.leaderTick, if_pos (.inl hk)]
  exact hk

/-- A request goes out, or is resent, to `dst`. -/
theorem Sound.replicate (h : Sound n svc E G c) (hi : i < n) (dst : Nat) (now : Int) :
    ∃ G', G.Le E G' ∧ Sound n svc E G' (c.put i ((c.nodes i).replicate dst now)) := by
  have hraft : ((c.nodes i).replicate dst now).node.raft = ((c.nodes i).raft.replicate dst now).1 := by
    unfold Server.replicate
    dsimp only
    split <;> rfl
  have hsaved : ((c.nodes i).replicate dst now).node.saved = (c.nodes i).saved := by
    unfold Server.replicate
    dsimp only
    split <;> rfl
  have hdead : (c.nodes i).raft.killed = true →
      (c.nodes i).raft.replicate dst now = ((c.nodes i).raft, .none) := fun hk => by
    rw [Raft.replicate, if_pos (.inl hk)]
  refine h.stretch hi (P := fun G' => SendOK n svc E G' ((c.nodes i).raft.replicate dst now).2)
    (fun hk => ⟨?_, hsaved⟩) (fun hat => ?_) fun G' hle hw => ?_
  · rw [hraft, hdead hk]
    exact hk
  · rw [hraft]
    exact hat.replicate dst now
  · rw [hraft] at hw
    have hsend : SendOK n svc E G' ((c.nodes i).raft.replicate dst now).2 := by
      rcases hw with ⟨hk, -⟩ | ⟨-, -, hs⟩
      · rw [hdead hk]
        trivial
      · exact hs
    have hnode := h.nodes i hi
    unfold Server.replicate
    dsimp only
    split
    · exact { node := hnode.stretch hle hw rfl rfl fun t ht => .inl ht }
    · rename_i args hargs
      rw [hargs] at hsend
      refine { node := hnode.stretch hle hw rfl rfl fun t ht => .inl ht, packets := fun p hp => ?_ }
      rw [List.mem_singleton.mp hp]
      exact hsend
    · rename_i chunks hchunks
      rw [hchunks] at hsend
      refine { node := hnode.stretch hle hw rfl rfl fun t ht => .inl ht, packets := fun p hp => ?_ }
      obtain ⟨chunk, hchunk, rfl⟩ := List.mem_map.mp hp
      exact hsend chunk hchunk

theorem mem_syncTask {b : Bool} {t : Task} (h : t ∈ Server.syncTask b) : t = .commitSynced := by
  unfold Server.syncTask at h
  split at h
  · exact List.mem_singleton.mp h
  · cases h

theorem Sound.start (h : Sound n svc E G c) (hi : i < n) (command : Command) :
    ∃ G', G.Le E G' ∧ Sound n svc E G' (c.put i ((c.nodes i).start command)) := by
  have hdead : (c.nodes i).raft.killed = true → (c.nodes i).raft.start command =
      ((c.nodes i).raft, { term := (c.nodes i).raft.currentTerm }, false) := fun hk => by
    unfold Raft.start
    dsimp only
    rw [if_pos (.inl hk)]
  refine h.stretch hi (P := fun G' => Issued G G' ((c.nodes i).raft.start command).2.1)
    (fun hk => ⟨?_, rfl⟩) (fun hat => hat.start command) fun G' hle hw => ?_
  · show ((c.nodes i).raft.start command).1.killed = true
    rw [hdead hk]
    exact hk
  · refine { node := (h.nodes i hi).stretch hle hw rfl rfl fun t ht => ?_
             started := .inr ⟨((c.nodes i).raft.start command).2.1, rfl, ?_⟩ }
    · rcases List.mem_append.mp ht with ht | ht
      · exact .inl ht
      · rw [mem_syncTask ht]
        exact .inr trivial
    · rcases hw with ⟨hk, -⟩ | ⟨-, -, hs⟩
      · rw [hdead hk]
        intro hl
        cases hl
      · exact hs

theorem Went.live {s : Server σ} {r' : Raft} {P : Prop} (h : Went s r' P) (hk : r'.killed = false) : P := by
  rcases h with ⟨-, hk'⟩ | ⟨-, -, hp⟩
  · rw [hk] at hk'
    cases hk'
  · exact hp

/-- What a stretch leaves alone that starts the threads `ts`, or goes on with them. -/
structure Carries (s : Server σ) (e : Effect σ) (ts : List Task) : Prop where
  tasks : ∀ t ∈ e.node.tasks, t ∈ s.tasks ∨ t ∈ ts
  saved : e.node.saved = s.saved
  applyCh : e.node.applyCh = s.applyCh
  states : e.node.states = s.states
  dispatched : e.dispatched = []
  installed : e.installed = []
  started : e.started = []

theorem mem_addTasks {s : Server σ} {ts : List Task} {t : Task} (h : t ∈ (s.addTasks ts).tasks) :
    t ∈ s.tasks ∨ t ∈ ts := List.mem_append.mp h

theorem Sound.carry (h : Sound n svc E G c) (hi : i < n) {e : Effect σ} {ts : List Task}
    {P : Ghost → Prop} (hc : Carries (c.nodes i) e ts)
    (dead : (c.nodes i).raft.killed = true → e.node.raft.killed = true)
    (live : At n svc E G (c.cores n) i (c.nodes i).raft.frame →
      Acts n svc E G (c.cores n) i (c.nodes i).raft.frame e.node.raft.frame P)
    (hts : ∀ G', G.Le E G' → Went (c.nodes i) e.node.raft (P G') → ∀ t ∈ ts, TaskOK n svc E G' e.node.raft t)
    (packets : ∀ G', G.Le E G' → Went (c.nodes i) e.node.raft (P G') →
      ∀ p ∈ e.packets, PacketOK n svc E G' p)
    (answers : ∀ G', G.Le E G' → Went (c.nodes i) e.node.raft (P G') →
      e.node.raft.killed = false → ∀ a ∈ e.answers, AnswerOK n svc E G' a) :
    ∃ G', G.Le E G' ∧ Sound n svc E G' (c.put i e) := by
  refine h.stretch hi (fun hk => ⟨dead hk, hc.saved⟩) live fun G' hle hw => ?_
  refine
    { node := (h.nodes i hi).stretch hle hw hc.applyCh hc.states fun t ht => ?_
      packets := packets G' hle hw
      answers := answers G' hle hw
      dispatched := by simp [hc.dispatched]
      installed := by simp [hc.installed]
      started := .inl hc.started }
  exact (hc.tasks t ht).imp_right (hts G' hle hw t)

/-- A stretch that changes nothing that safety depends on. -/
theorem Sound.quiet (h : Sound n svc E G c) (hi : i < n) {e : Effect σ} {ts : List Task}
    (hc : Carries (c.nodes i) e ts) (hf : e.node.raft.frame = (c.nodes i).raft.frame)
    (hts : ∀ t ∈ ts, TaskOK n svc E G e.node.raft t)
    (packets : ∀ p ∈ e.packets, PacketOK n svc E G p)
    (answers : ∀ a ∈ e.answers, AnswerOK n svc E G a) :
    ∃ G', G.Le E G' ∧ Sound n svc E G' (c.put i e) := by
  have hkilled : e.node.raft.killed = (c.nodes i).raft.killed := congrArg (fun f : Frame => f.killed) hf
  refine h.carry hi hc (fun hk => hkilled.trans hk) (fun hat => Acts.quiet hat hf (P := fun _ => True) trivial)
    (fun G' hle _ t ht => ?_) (fun G' hle _ p hp => (packets p hp).mono hle)
    fun G' hle _ _ a ha => (answers a ha).mono hle
  exact (hts t ht).mono hle fun hk => ⟨hk, rfl, le_rfl, le_rfl, le_rfl⟩

/-- A stretch that sends nothing. -/
theorem Sound.work (h : Sound n svc E G c) (hi : i < n) {s : Server σ} {ts : List Task} {P : Ghost → Prop}
    (hc : Carries (c.nodes i) { node := s } ts)
    (dead : (c.nodes i).raft.killed = true → s.raft.killed = true)
    (live : At n svc E G (c.cores n) i (c.nodes i).raft.frame →
      Acts n svc E G (c.cores n) i (c.nodes i).raft.frame s.raft.frame P)
    (hts : ∀ G', G.Le E G' → Went (c.nodes i) s.raft (P G') → ∀ t ∈ ts, TaskOK n svc E G' s.raft t) :
    ∃ G', G.Le E G' ∧ Sound n svc E G' (c.put i { node := s }) :=
  h.carry hi hc dead live hts (fun _ _ _ => List.forall_mem_nil _) fun _ _ _ _ => List.forall_mem_nil _

/-- A stretch that changes nothing and sends nothing. -/
theorem Sound.idle (h : Sound n svc E G c) (hi : i < n) {s : Server σ} (hc : Carries (c.nodes i) { node := s } [])
    (hf : s.raft.frame = (c.nodes i).raft.frame) :
    ∃ G', G.Le E G' ∧ Sound n svc E G' (c.put i { node := s }) :=
  h.quiet hi hc hf (List.forall_mem_nil _) (List.forall_mem_nil _) (List.forall_mem_nil _)

theorem Carries.refl (s : Server σ) (ts : List Task) : Carries s { node := s } ts :=
  ⟨fun _ ht => .inl ht, rfl, rfl, rfl, rfl, rfl, rfl⟩

/-- A reader that gets its result answers the packet that it was forwarded in. -/
theorem answerOK_finishRead {s : Server σ} {k : Reader} {result : Int} (h : ReaderOK n svc E G k)
    {a : Answer} (ha : a ∈ (s.finishRead k result).answers) : AnswerOK n svc E G a := by
  cases k with
  | client call => cases ha
  | server p term =>
    rw [List.mem_singleton.mp ha]
    exact .plain h (by simp) (by simp) (by simp)

theorem finishRead_node (s : Server σ) (k : Reader) (result : Int) : (s.finishRead k result).node = s := by
  cases k <;> rfl

theorem finishRead_packets (s : Server σ) (k : Reader) (result : Int) :
    (s.finishRead k result).packets = [] := by
  cases k <;> rfl

theorem carries_finishRead {s s' : Server σ} (h : Carries s { node := s' } []) (k : Reader) (result : Int) :
    Carries s (s'.finishRead k result) [] := by
  cases k <;> exact ⟨h.tasks, h.saved, h.applyCh, h.states, rfl, rfl, rfl⟩

theorem Sound.finishRead (h : Sound n svc E G c) (hi : i < n) {s' : Server σ}
    (hc : Carries (c.nodes i) { node := s' } []) (hf : s'.raft.frame = (c.nodes i).raft.frame) {k : Reader}
    (hk : ReaderOK n svc E G k) (result : Int) :
    ∃ G', G.Le E G' ∧ Sound n svc E G' (c.put i (s'.finishRead k result)) := by
  refine h.quiet hi (carries_finishRead hc k result) ?_ (by simp) ?_ fun a ha => answerOK_finishRead hk ha
  · rw [finishRead_node]
    exact hf
  · rw [finishRead_packets]
    simp

/-- `ReadIndex` opens or joins a round, or forwards. -/
theorem Sound.openRead (h : Sound n svc E G c) (hi : i < n) {s' : Server σ}
    (hc : Carries (c.nodes i) { node := s' } []) (hf : s'.raft.frame = (c.nodes i).raft.frame) {k : Reader}
    (hk : ReaderOK n svc E G k) (fresh : Nat) (now : Int) :
    ∃ G', G.Le E G' ∧ Sound n svc E G' (c.put i (s'.openRead k fresh now)) := by
  have hopen : (s'.raft.readIndexOpen now).1.frame = (c.nodes i).raft.frame :=
    (frame_readIndexOpen s'.raft now).trans hf
  have hnode : Carries (c.nodes i) { node := { s' with raft := (s'.raft.readIndexOpen now).1 } } [] :=
    ⟨hc.tasks, hc.saved, hc.applyCh, hc.states, rfl, rfl, rfl⟩
  have hadd : ∀ ts ps, Carries (c.nodes i)
      { node := { s' with raft := (s'.raft.readIndexOpen now).1 }.addTasks ts, packets := ps } ts :=
    fun ts ps => ⟨fun t ht => (mem_addTasks ht).imp_left fun ht => (hc.tasks t ht).resolve_right (by simp),
      hc.saved, hc.applyCh, hc.states, rfl, rfl, rfl⟩
  unfold Server.openRead
  dsimp only
  split
  · refine h.quiet hi (hadd _ _) hopen ?_ ?_ (by simp)
    · intro t ht
      rw [List.mem_singleton.mp ht]
      exact hk
    · intro p hp
      rw [List.mem_singleton.mp hp]
      trivial
  · exact h.finishRead hi hnode hopen hk _
  · refine h.quiet hi (hadd _ _) hopen ?_ (by simp) (by simp)
    intro t ht
    rw [List.mem_singleton.mp ht]
    split_ifs <;> exact hk

/-- `s'` is `s` with a thread that waited gone, which has the lock now. -/
structure Took (s s' : Server σ) : Prop where
  raft : s'.raft = s.raft
  carries : Carries s { node := s' } []

theorem took_eraseIdx (s : Server σ) (k : Nat) : Took s { s with tasks := s.tasks.eraseIdx k } where
  raft := rfl
  carries := ⟨fun _ ht => .inl (List.mem_of_mem_eraseIdx ht), rfl, rfl, rfl, rfl, rfl, rfl⟩

theorem Took.adds {s s' : Server σ} (h : Took s s') (r : Raft) (ts : List Task) (ps : List Packet)
    (as : List Answer) :
    Carries s { node := { s' with raft := r }.addTasks ts, packets := ps, answers := as } ts where
  tasks _ ht := (mem_addTasks ht).imp_left fun ht => (h.carries.tasks _ ht).resolve_right (by simp)
  saved := h.carries.saved
  applyCh := h.carries.applyCh
  states := h.carries.states
  dispatched := rfl
  installed := rfl
  started := rfl

theorem Took.goes {s s' : Server σ} (h : Took s s') (r : Raft) (ps : List Packet) (as : List Answer) :
    Carries s { node := { s' with raft := r }, packets := ps, answers := as } [] where
  tasks := h.carries.tasks
  saved := h.carries.saved
  applyCh := h.carries.applyCh
  states := h.carries.states
  dispatched := rfl
  installed := rfl
  started := rfl

section Tasks

variable {s : Server σ} {k : Reader}

theorem Sound.startRealElection (h : Sound n svc E G c) (hi : i < n) (ht : Took (c.nodes i) s)
    (fresh : Nat) (now : Int) (led : (s.raft.startRealElection now).1.state = .kLeader →
      E.led i (s.raft.startRealElection now).1.currentTerm) :
    ∃ G', G.Le E G' ∧ Sound n svc E G' (c.put i (s.runTask fresh now .startRealElection)) := by
  rw [ht.raft] at led
  unfold Server.runTask
  rw [ht.raft]
  dsimp only
  refine h.work hi (ht.adds _ _ [] []) (fun hk => ?_) (fun hat => hat.startRealElection now led)
    fun G' _ _ t hmem => ?_
  · show ((c.nodes i).raft.startRealElection now).1.killed = true
    unfold Raft.startRealElection Raft.standForTerm
    simp [hk]
  · split_ifs at hmem
    · rw [List.mem_singleton.mp hmem]
      trivial
    · cases hmem

theorem Sound.sendRequestVotes (h : Sound n svc E G c) (hi : i < n) (ht : Took (c.nodes i) s)
    (fresh : Nat) (now : Int) :
    ∃ G', G.Le E G' ∧ Sound n svc E G' (c.put i (s.runTask fresh now .sendRequestVotes)) := by
  unfold Server.runTask
  dsimp only
  cases hs : s.raft.sendRequestVoteRPCs with
  | none => exact h.idle hi ht.carries (congrArg Raft.frame ht.raft)
  | some o =>
    obtain ⟨args, targets⟩ := o
    have hlive : (c.nodes i).raft.killed = false := by
      rw [ht.raft] at hs
      unfold Raft.sendRequestVoteRPCs at hs
      split at hs
      · cases hs
      · rename_i hno
        push Not at hno
        simpa using hno.1
    refine h.carry hi (P := fun G' => VoteOK G' args ∧ args.candidateId = i ∧
        ∀ s ∈ targets, s ≠ i ∧ s < n) (ht.goes s.raft _ _) (fun hk => ?_) (fun hat => ?_) (by simp)
      (fun G' hle hw p hp => ?_) fun _ _ _ _ => List.forall_mem_nil _
    · rw [hlive] at hk
      cases hk
    · rw [ht.raft] at hs ⊢
      exact hat.sendRequestVotes hs
    · obtain ⟨dst, hdst, rfl⟩ := List.mem_map.mp hp
      have hk : s.raft.killed = false := by
        rw [ht.raft]
        exact hlive
      have hme : (s.raft.me : Nat) = i := by
        rw [ht.raft]
        exact (h.live hi hlive).ok.me
      obtain ⟨hvote, hcand, htargets⟩ := hw.live hk
      refine ⟨hvote, ?_, ?_⟩
      · rw [hcand]
        exact congrArg Nat.cast hme.symm
      · show s.raft.me ≠ dst
        rw [hme]
        exact (htargets dst hdst).1.symm

theorem Sound.commitSynced (h : Sound n svc E G c) (hi : i < n) (ht : Took (c.nodes i) s)
    (fresh : Nat) (now : Int) :
    ∃ G', G.Le E G' ∧ Sound n svc E G' (c.put i (s.runTask fresh now .commitSynced)) := by
  have hf : s.raft.commitSynced.frame = (c.nodes i).raft.frame := (congrArg Raft.frame ht.raft : _)
  exact h.idle hi (ht.goes s.raft.commitSynced [] []) hf

theorem Sound.installBlob (h : Sound n svc E G c) (hi : i < n) (ht : Took (c.nodes i) s) {p : Packet}
    {args : InstallSnapshotArgs} {blob : Bytes}
    (hold : TaskOK n svc E G (c.nodes i).raft (.installBlob p args blob)) (fresh : Nat) (now : Int) :
    ∃ G', G.Le E G' ∧ Sound n svc E G' (c.put i (s.runTask fresh now (.installBlob p args blob))) := by
  obtain ⟨hrpc, hp, hok⟩ := hold
  unfold Server.runTask
  rw [ht.raft]
  refine h.work hi (P := fun _ => True) (ht.adds _ _ [] []) (fun hk => ?_) (fun hat => ?_)
    fun G' hle hw t hmem => ?_
  · exact (killed_saveSnapshotBlob _ _ _ _).trans hk
  · obtain ⟨-, hT, hs⟩ := hok hat.ok.alive
    exact hat.saveSnapshotBlob (hs.mono (Ghost.Le.refl E G) hT)
  · rw [List.mem_singleton.mp hmem]
    refine ⟨hrpc, hp.mono hle, fun hk => ?_⟩
    obtain ⟨hk', hg⟩ := hw.grows hk
    obtain ⟨hme, hT, hs⟩ := hok hk'
    exact ⟨hme.trans hg.me.symm, hT.trans hg.term, hs.mono hle le_rfl, le_saveSnapshotBlob _ _ _ _⟩

theorem Sound.installCommit (h : Sound n svc E G c) (hi : i < n) (ht : Took (c.nodes i) s) {p : Packet}
    {args : InstallSnapshotArgs} {blob : Bytes}
    (hold : TaskOK n svc E G (c.nodes i).raft (.installCommit p args blob)) (fresh : Nat) (now : Int) :
    ∃ G', G.Le E G' ∧ Sound n svc E G' (c.put i (s.runTask fresh now (.installCommit p args blob))) := by
  obtain ⟨hrpc, hp, hok⟩ := hold
  unfold Server.runTask
  rw [ht.raft]
  refine h.carry hi (P := fun G' => Vouched n G' i args ((c.nodes i).raft.installCommit args blob).2)
    (ht.goes _ _ _) (fun hk => ?_) (fun hat => ?_) (by simp) (by simp) fun G' hle hw hk a ha => ?_
  · exact (killed_installCommit _ _ _).trans hk
  · obtain ⟨-, hT, hs, hb⟩ := hok hat.ok.alive
    unfold PacketOK at hp
    rw [hrpc] at hp
    exact hat.installCommit hp hT hs hb
  · rw [List.mem_singleton.mp ha]
    have hk' := (hw.grows hk).1
    have hdst : p.dst = i := (hok hk').1.trans (h.live hi hk').ok.me
    exact .vouched (hp.mono hle) hrpc (hdst ▸ hw.live hk)

theorem Sound.snapshotBlob (h : Sound n svc E G c) (hi : i < n) (ht : Took (c.nodes i) s)
    {index term : Int} {data : Bytes}
    (hold : TaskOK n svc E G (c.nodes i).raft (.snapshotBlob index term data)) (fresh : Nat) (now : Int) :
    ∃ G', G.Le E G' ∧ Sound n svc E G' (c.put i (s.runTask fresh now (.snapshotBlob index term data))) := by
  unfold Server.runTask
  rw [ht.raft]
  refine h.work hi (P := fun _ => True) (ht.adds _ _ [] []) (fun hk => ?_) (fun hat => ?_)
    fun G' hle hw t hmem => ?_
  · exact (killed_saveSnapshotBlob _ _ _ _).trans hk
  · exact hat.saveSnapshotBlob (hold hat.ok.alive).1
  · rw [List.mem_singleton.mp hmem]
    intro hk
    obtain ⟨hk', hg⟩ := hw.grows hk
    obtain ⟨hs, ha⟩ := hold hk'
    exact ⟨hs.mono hle hg.term, ha.trans hg.applied, le_saveSnapshotBlob _ _ _ _⟩

theorem Sound.snapshotCommit (h : Sound n svc E G c) (hi : i < n) (ht : Took (c.nodes i) s)
    {index term : Int} {data : Bytes}
    (hold : TaskOK n svc E G (c.nodes i).raft (.snapshotCommit index term data)) (fresh : Nat) (now : Int) :
    ∃ G', G.Le E G' ∧ Sound n svc E G' (c.put i (s.runTask fresh now (.snapshotCommit index term data))) := by
  have hkilled := killed_snapshotCommit (c.nodes i).raft index term data
  unfold Server.runTask
  rw [ht.raft]
  dsimp only
  refine h.work hi (P := fun _ => True) (ht.goes _ [] []) (fun hk => ?_) (fun hat => ?_) (by simp)
  · split_ifs <;> exact hkilled.trans hk
  · obtain ⟨hs, ha, hb⟩ := hold hat.ok.alive
    have hact := hat.snapshotCommit hs ha hb
    obtain ⟨G', -, hat', -⟩ := id hact
    rw [hat'.ok.truncateStore index, ite_self]
    exact hact

theorem Took.frame {s s' : Server σ} (h : Took s s') : s'.raft.frame = s.raft.frame := congrArg Raft.frame h.raft

/-- A thread that reads goes on with `t`. -/
theorem Sound.readOn (h : Sound n svc E G c) (hi : i < n) (ht : Took (c.nodes i) s) {t : Task}
    (htask : TaskOK n svc E G s.raft t) (ps : List Packet) (hps : ∀ p ∈ ps, PacketOK n svc E G p) :
    ∃ G', G.Le E G' ∧ Sound n svc E G' (c.put i { node := s.addTasks [t], packets := ps }) := by
  refine h.quiet hi (ht.adds s.raft [t] ps []) ht.frame (fun t' ht' => ?_) hps (List.forall_mem_nil _)
  rw [List.mem_singleton.mp ht']
  exact htask

theorem Sound.readBroadcast (h : Sound n svc E G c) (hi : i < n) (ht : Took (c.nodes i) s)
    (hk : ReaderOK n svc E G k) (ctx : Nat) (term readIndex : Int) (t fresh : Nat) (now : Int) :
    ∃ G', G.Le E G' ∧
      Sound n svc E G' (c.put i (s.runTask fresh now (.readBroadcast k ctx term readIndex t))) := by
  unfold Server.runTask
  dsimp only
  by_cases hpeer : t < s.raft.peers
  · rw [if_pos hpeer]
    cases hb : s.raft.readHeartbeat ctx t with
    | stop => exact h.readOn hi ht (t := .readWait k ctx term readIndex _) hk [] (by simp)
    | skip => exact h.readOn hi ht (t := .readBroadcast k ctx term readIndex _) hk [] (by simp)
    | send args =>
      refine h.readOn hi ht (t := .readBroadcast k ctx term readIndex _) hk _ fun p hp => ?_
      split_ifs at hp with hkilled
      · cases hp
      · rw [List.mem_singleton.mp hp]
        rw [ht.raft] at hb hkilled
        exact (h.live hi (by simpa using hkilled)).readHeartbeat hb
  · rw [if_neg hpeer]
    exact h.readOn hi ht (t := .readWait k ctx term readIndex _) hk [] (by simp)

theorem Sound.readWait (h : Sound n svc E G c) (hi : i < n) (ht : Took (c.nodes i) s)
    (hk : ReaderOK n svc E G k) (ctx : Nat) (term readIndex deadline : Int) (fresh : Nat) (now : Int) :
    ∃ G', G.Le E G' ∧
      Sound n svc E G' (c.put i (s.runTask fresh now (.readWait k ctx term readIndex deadline))) := by
  have hf := (frame_readIndexPoll s.raft ctx term readIndex deadline now).trans ht.frame
  unfold Server.runTask
  dsimp only
  split
  · refine h.quiet hi (ht.adds _ _ [] []) hf (fun t ht' => ?_) (List.forall_mem_nil _) (List.forall_mem_nil _)
    rw [List.mem_singleton.mp ht']
    exact hk
  · exact h.finishRead hi (ht.goes _ _ _) hf hk _

/-- One stretch of a thread that released the lock. -/
theorem Sound.runTask (h : Sound n svc E G c) (hi : i < n) (ht : Took (c.nodes i) s) {t : Task}
    (hold : TaskOK n svc E G (c.nodes i).raft t) (fresh : Nat) (now : Int)
    (led : (s.runTask fresh now t).node.raft.state = .kLeader →
      E.led i (s.runTask fresh now t).node.raft.currentTerm) :
    ∃ G', G.Le E G' ∧ Sound n svc E G' (c.put i (s.runTask fresh now t)) := by
  cases t with
  | startRealElection => exact h.startRealElection hi ht fresh now led
  | sendRequestVotes => exact h.sendRequestVotes hi ht fresh now
  | commitSynced => exact h.commitSynced hi ht fresh now
  | installBlob p args blob => exact h.installBlob hi ht hold fresh now
  | installCommit p args blob => exact h.installCommit hi ht hold fresh now
  | snapshotBlob index term data => exact h.snapshotBlob hi ht hold fresh now
  | snapshotCommit index term data => exact h.snapshotCommit hi ht hold fresh now
  | readOpen k => exact h.openRead hi ht.carries ht.frame hold fresh now
  | readBroadcast k ctx term readIndex t => exact h.readBroadcast hi ht hold ctx term readIndex t fresh now
  | readWait k ctx term readIndex deadline => exact h.readWait hi ht hold ctx term readIndex deadline fresh now
  | readForwarded k token => exact h.readOn hi ht (t := .readForwarded k token) hold [] (by simp)

end Tasks

theorem took_refl (s : Server σ) : Took s s := ⟨rfl, Carries.refl s []⟩

theorem killed_requestVote {r : Raft} (hk : r.killed = true) (args : RequestVoteArgs) (now : Int) :
    (r.requestVote args now).1 = r ∧ (r.requestVote args now).2.voteGranted = false := by
  rw [Raft.requestVote]
  simp [hk]

theorem killed_appendEntries {r : Raft} (hk : r.killed = true) (args : AppendEntriesArgs) (now : Int) :
    (r.appendEntries args now).1 = r ∧ (r.appendEntries args now).2.success = false ∧
      (r.appendEntries args now).2.nextIndex = 0 := by
  rw [Raft.appendEntries]
  simp [hk]

theorem Sound.deliverVote (h : Sound n svc E G c) {p : Packet} (hp : PacketOK n svc E G p) (hi : p.dst < n)
    {args : RequestVoteArgs} (hrpc : p.rpc = .vote args) (now : Int)
    (relapsed : ((c.nodes p.dst).raft.requestVote args now).2.voteGranted = true → E.led p.dst args.term →
      E.relapsed args.term) :
    ∃ G', G.Le E G' ∧ Sound n svc E G' (c.put p.dst
      { node := { c.nodes p.dst with raft := ((c.nodes p.dst).raft.requestVote args now).1 }
        answers := [⟨p, .vote ((c.nodes p.dst).raft.requestVote args now).2⟩] }) := by
  have hok := hp
  unfold PacketOK at hok
  rw [hrpc] at hok
  obtain ⟨hvote, hsrc, hne⟩ := hok
  have hne' : args.candidateId ≠ (p.dst : Int) := by
    rw [hsrc]
    exact fun heq => hne (Int.ofNat_inj.mp heq)
  refine h.carry hi (P := fun G' => Granted G' p.dst args ((c.nodes p.dst).raft.requestVote args now).2)
    ((took_refl _).goes _ _ _) (fun hk => ?_) (fun hat => hat.requestVote hvote hne' now relapsed) (by simp)
    (by simp) fun G' hle hw _ a ha => ?_
  · exact (congrArg Raft.killed (killed_requestVote hk args now).1).trans hk
  · rw [List.mem_singleton.mp ha]
    refine ⟨hp.mono hle, fun args' reply' hrpc' hreply => ?_, fun _ _ hrpc' => ?_, fun _ _ hrpc' => ?_⟩
    · cases hrpc.symm.trans hrpc'
      cases hreply
      rcases hw with ⟨hk, -⟩ | ⟨-, -, hg⟩
      · exact .of_not (killed_requestVote hk args now).2
      · exact hg
    · cases hrpc.symm.trans hrpc'
    · cases hrpc.symm.trans hrpc'

theorem Sound.deliverAppend (h : Sound n svc E G c) {p : Packet} (hp : PacketOK n svc E G p) (hi : p.dst < n)
    {args : AppendEntriesArgs} (hok : AppendOK n G args)
    (hrpc : p.rpc = .append args ∨ p.rpc = .readBeat args) (now : Int) :
    ∃ G', G.Le E G' ∧ Sound n svc E G' (c.put p.dst
      { node := { c.nodes p.dst with raft := ((c.nodes p.dst).raft.appendEntries args now).1 }
        answers := [⟨p, .append ((c.nodes p.dst).raft.appendEntries args now).2⟩] }) := by
  refine h.carry hi (P := fun G' => Accepted n G' p.dst args ((c.nodes p.dst).raft.appendEntries args now).2)
    ((took_refl _).goes _ _ _) (fun hk => ?_) (fun hat => hat.appendEntries hok now) (by simp)
    (by simp) fun G' hle hw _ a ha => ?_
  · exact (congrArg Raft.killed (killed_appendEntries hk args now).1).trans hk
  · rw [List.mem_singleton.mp ha]
    refine ⟨hp.mono hle, fun _ _ _ hreply => (by cases hreply), fun args' reply' hrpc' hreply => ?_,
      fun _ _ _ hreply => (by cases hreply)⟩
    obtain rfl : args = args' := by
      rcases hrpc with hrpc | hrpc
      · cases hrpc.symm.trans hrpc'
        rfl
      · cases hrpc.symm.trans hrpc'
    cases hreply
    rcases hw with ⟨hk, -⟩ | ⟨-, -, hg⟩
    · obtain ⟨-, hno, hnext⟩ := killed_appendEntries hk args now
      obtain ⟨k, m, hprev, -⟩ := hok.slice
      refine ⟨fun _ => ?_, fun hyes => ?_⟩
      · omega
      · rw [hno] at hyes
        cases hyes
    · exact hg

theorem Sound.deliverInstall (h : Sound n svc E G c) {p : Packet} (hp : PacketOK n svc E G p)
    (hi : p.dst < n) {args : InstallSnapshotArgs} (hrpc : p.rpc = .install args) (now : Int)
    (assembled : ∀ buf, ((c.nodes p.dst).raft.installSnapshot args now).2.2 = some buf → E.assembled buf) :
    ∃ G', G.Le E G' ∧ Sound n svc E G' (c.put p.dst ((c.nodes p.dst).deliver p now)) := by
  have hok := hp
  unfold PacketOK at hok
  rw [hrpc] at hok
  have ht := took_refl (c.nodes p.dst)
  have hkilled := killed_installSnapshot (c.nodes p.dst).raft args now
  have hlive := fun hat : At n svc E G (c.cores n) p.dst (c.nodes p.dst).raft.frame =>
    hat.installSnapshot hok now assembled
  unfold Server.deliver
  rw [hrpc]
  dsimp only
  cases hbuf : ((c.nodes p.dst).raft.installSnapshot args now).2.2 with
  | none =>
    refine h.carry hi (ht.goes _ _ _) (fun hk => hkilled.trans hk) hlive (by simp) (by simp)
      fun G' hle hw hk a ha => ?_
    rw [List.mem_singleton.mp ha]
    exact .vouched (hp.mono hle) hrpc (hw.live hk).1
  | some buf =>
    refine h.work hi (ht.adds _ _ [] []) (fun hk => hkilled.trans hk) hlive fun G' hle hw t hmem => ?_
    rw [List.mem_singleton.mp hmem]
    refine ⟨hrpc, hp.mono hle, fun hk => ?_⟩
    obtain ⟨hT, hs⟩ := (hw.live hk).2 buf hbuf
    obtain ⟨hk', hg⟩ := hw.grows hk
    exact ⟨((h.live hi hk').ok.me.symm).trans hg.me.symm, hT, hs⟩

/-- The handler of a request. -/
theorem Sound.deliver (h : Sound n svc E G c) {p : Packet} (hp : PacketOK n svc E G p) (hi : p.dst < n)
    (now : Int)
    (relapsed : ∀ args, p.rpc = .vote args →
      ((c.nodes p.dst).raft.requestVote args now).2.voteGranted = true → E.led p.dst args.term →
        E.relapsed args.term)
    (assembled : ∀ args buf, p.rpc = .install args →
      ((c.nodes p.dst).raft.installSnapshot args now).2.2 = some buf → E.assembled buf) :
    ∃ G', G.Le E G' ∧ Sound n svc E G' (c.put p.dst ((c.nodes p.dst).deliver p now)) := by
  have ht := took_refl (c.nodes p.dst)
  have hok := hp
  unfold PacketOK at hok
  cases hrpc : p.rpc with
  | vote args =>
    unfold Server.deliver
    rw [hrpc]
    exact h.deliverVote hp hi hrpc now (relapsed args hrpc)
  | preVote args =>
    unfold Server.deliver
    rw [hrpc]
    refine h.quiet hi (ht.goes _ _ _) rfl (by simp) (by simp) fun a ha => ?_
    rw [List.mem_singleton.mp ha]
    exact .plain hp (by simp) (by simp) (by simp)
  | append args =>
    rw [hrpc] at hok
    unfold Server.deliver
    rw [hrpc]
    exact h.deliverAppend hp hi hok (.inl hrpc) now
  | readBeat args =>
    rw [hrpc] at hok
    unfold Server.deliver
    rw [hrpc]
    exact h.deliverAppend hp hi hok (.inr hrpc) now
  | install args => exact h.deliverInstall hp hi hrpc now fun buf => assembled args buf hrpc
  | readIndex args token =>
    unfold Server.deliver
    rw [hrpc]
    dsimp only
    split_ifs
    · exact h.readOn hi ht (t := .readOpen (.server p _)) hp [] (by simp)
    · refine h.quiet hi (ht.goes _ _ _) rfl (by simp) (by simp) fun a ha => ?_
      rw [List.mem_singleton.mp ha]
      exact .plain hp (by simp) (by simp) (by simp)

theorem awaiting_mem {s : Server σ} {token : Nat} {k : Reader} (h : s.awaiting token = some k) :
    .readForwarded k token ∈ s.tasks := by
  obtain ⟨t, ht, hk⟩ := List.exists_of_findSome?_eq_some h
  cases t with
  | readForwarded k' token' =>
    dsimp only at hk
    split_ifs at hk with heq
    cases hk
    rwa [heq] at ht
  | _ => cases hk

theorem Sound.endForward (h : Sound n svc E G c) (hi : i < n) (token : Nat) (ok : Bool)
    (reply : ReadIndexReply) :
    ∃ G', G.Le E G' ∧ Sound n svc E G' (c.put i ((c.nodes i).endForward token ok reply)) := by
  unfold Server.endForward
  cases hk : (c.nodes i).awaiting token with
  | none => exact h.idle hi (Carries.refl _ []) rfl
  | some k =>
    have hc : Carries (c.nodes i) { node := { c.nodes i with
        tasks := (c.nodes i).tasks.erase (.readForwarded k token) } } [] :=
      ⟨fun _ ht => .inl (List.mem_of_mem_erase ht), rfl, rfl, rfl, rfl, rfl, rfl⟩
    exact h.finishRead hi hc rfl ((h.nodes i hi).tasks _ (awaiting_mem hk)) _

/-- The callback of an `AppendEntries`, with or without an answer. -/
theorem Sound.appendReply (h : Sound n svc E G c) (hi : i < n) {args : AppendEntriesArgs} {dst : Nat}
    {ok : Bool} {reply : AppendEntriesReply} (hok : AppendOK n G args)
    (hacc : ok = true → Accepted n G dst args reply) (now : Int) (ts : List Task) (hts : ∀ t ∈ ts, t = .commitSynced) :
    ∃ G', G.Le E G' ∧ Sound n svc E G' (c.put i { node :=
      { c.nodes i with raft := ((c.nodes i).raft.appendReply args dst ok reply now).1 }.addTasks ts }) := by
  refine h.work hi (P := fun _ => True) ((took_refl _).adds _ _ [] []) (fun hk => ?_)
    (fun hat => hat.appendReply hok hacc now) fun G' _ _ t ht => ?_
  · have hdead : ((c.nodes i).raft.appendReply args dst ok reply now).1 = (c.nodes i).raft := by
      rw [Raft.appendReply, if_pos hk]
    exact (congrArg Raft.killed hdead).trans hk
  · rw [hts t ht]
    trivial

theorem Sound.snapshotReply (h : Sound n svc E G c) (hi : i < n) {args : InstallSnapshotArgs} (dst : Nat)
    (ok : Bool) (reply : InstallSnapshotReply) (hacc : ok = true → Vouched n G dst args reply) (now : Int) :
    ∃ G', G.Le E G' ∧ Sound n svc E G' (c.put i { node :=
      { c.nodes i with raft := (c.nodes i).raft.snapshotReply args dst ok reply now } }) := by
  refine h.work hi (P := fun _ => True) ((took_refl _).goes _ [] []) (fun hk => ?_)
    (fun hat => hat.snapshotReply dst ok reply now hacc) (by simp)
  have hdead : (c.nodes i).raft.snapshotReply args dst ok reply now = (c.nodes i).raft := by
    rw [Raft.snapshotReply, if_pos hk]
  exact (congrArg Raft.killed hdead).trans hk

theorem Sound.voteReply (h : Sound n svc E G c) {p : Packet} {args : RequestVoteArgs}
    {reply : RequestVoteReply} (ha : AnswerOK n svc E G ⟨p, .vote reply⟩) (hrpc : p.rpc = .vote args)
    (hi : p.src < n) (now : Int)
    (led : ((c.nodes p.src).raft.voteReply args p.dst reply now).state = .kLeader →
      E.led p.src ((c.nodes p.src).raft.voteReply args p.dst reply now).currentTerm) :
    ∃ G', G.Le E G' ∧ Sound n svc E G' (c.put p.src
      { node := { c.nodes p.src with raft := (c.nodes p.src).raft.voteReply args p.dst reply now } }) := by
  have hok := ha.packet
  unfold PacketOK at hok
  rw [hrpc] at hok
  obtain ⟨-, hsrc, -⟩ := hok
  have hvote : reply.voteGranted = true → G.vote p.dst args.term = some p.src := by
    intro hg
    obtain ⟨cand, hc, hv⟩ := ha.vote args reply hrpc rfl hg
    rwa [Int.ofNat_inj.mp (hsrc.symm.trans hc)]
  refine h.work hi (P := fun _ => True) ((took_refl _).goes _ [] []) (fun hk => ?_)
    (fun hat => hat.voteReply args p.dst reply now hvote led) (by simp)
  have hdead : (c.nodes p.src).raft.voteReply args p.dst reply now = (c.nodes p.src).raft := by
    rw [Raft.voteReply, if_pos hk]
  exact (congrArg Raft.killed hdead).trans hk

theorem Sound.prevoteReply (h : Sound n svc E G c) (hi : i < n) (args : RequestPreVoteArgs) (dst : Nat)
    (reply : RequestPreVoteReply) (now : Int) :
    ∃ G', G.Le E G' ∧ Sound n svc E G' (c.put i
      { node := ({ c.nodes i with
          raft := ((c.nodes i).raft.prevoteReply args dst reply now).1 } : Server σ).addTasks
            (if ((c.nodes i).raft.prevoteReply args dst reply now).2 then [.startRealElection] else []) }) := by
  refine h.work hi (P := fun _ => True) ((took_refl _).adds _ _ [] []) (fun hk => ?_)
    (fun hat => hat.prevoteReply args dst reply now) fun G' _ _ t ht => ?_
  · have hdead : ((c.nodes i).raft.prevoteReply args dst reply now).1 = (c.nodes i).raft := by
      rw [Raft.prevoteReply, if_pos hk]
    exact (congrArg Raft.killed hdead).trans hk
  · split_ifs at ht
    · rw [List.mem_singleton.mp ht]
      trivial
    · cases ht

theorem Sound.readHeartbeatReply (h : Sound n svc E G c) (hi : i < n) (args : AppendEntriesArgs) (dst : Nat)
    (reply : AppendEntriesReply) (now : Int) :
    ∃ G', G.Le E G' ∧ Sound n svc E G' (c.put i { node :=
      { c.nodes i with raft := (c.nodes i).raft.readHeartbeatReply args dst reply now } }) := by
  refine h.work hi (P := fun _ => True) ((took_refl _).goes _ [] []) (fun hk => ?_)
    (fun hat => hat.readHeartbeatReply args dst reply now) (by simp)
  have hdead : (c.nodes i).raft.readHeartbeatReply args dst reply now = (c.nodes i).raft := by
    rw [Raft.readHeartbeatReply, if_pos hk]
  exact (congrArg Raft.killed hdead).trans hk

/-- The callback of an answer. -/
theorem Sound.answer (h : Sound n svc E G c) {p : Packet} {reply : RpcReply}
    (ha : AnswerOK n svc E G ⟨p, reply⟩) (hi : p.src < n) (now : Int)
    (led : ((c.nodes p.src).answer p reply now).node.raft.state = .kLeader →
      E.led p.src ((c.nodes p.src).answer p reply now).node.raft.currentTerm) :
    ∃ G', G.Le E G' ∧ Sound n svc E G' (c.put p.src ((c.nodes p.src).answer p reply now)) := by
  have hok := ha.packet
  unfold PacketOK at hok
  unfold Server.answer at led ⊢
  by_cases hinc : p.inc ≠ (c.nodes p.src).inc
  · rw [if_pos hinc]
    exact h.idle hi (Carries.refl _ []) rfl
  rw [if_neg hinc] at led ⊢
  cases hrpc : p.rpc with
  | vote args =>
    rw [hrpc] at led
    cases reply with
    | vote reply => exact h.voteReply ha hrpc hi now led
    | _ => exact h.idle hi (Carries.refl _ []) rfl
  | preVote args =>
    cases reply with
    | preVote reply => exact h.prevoteReply hi args p.dst reply now
    | _ => exact h.idle hi (Carries.refl _ []) rfl
  | append args =>
    rw [hrpc] at hok
    cases reply with
    | append reply =>
      have hacc : true = true → Accepted n G p.dst args reply := fun _ => ha.append args reply hrpc rfl
      exact h.appendReply hi hok hacc now _ fun t => mem_syncTask
    | _ => exact h.idle hi (Carries.refl _ []) rfl
  | readBeat args =>
    cases reply with
    | append reply => exact h.readHeartbeatReply hi args p.dst reply now
    | _ => exact h.idle hi (Carries.refl _ []) rfl
  | install args =>
    cases reply with
    | install reply =>
      exact h.snapshotReply hi p.dst true reply (fun _ => ha.install args reply hrpc rfl) now
    | _ => exact h.idle hi (Carries.refl _ []) rfl
  | readIndex args token =>
    cases reply with
    | readIndex reply => exact h.endForward hi token true reply
    | _ => exact h.idle hi (Carries.refl _ []) rfl

/-- The callback of a request that got no answer. -/
theorem Sound.fail (h : Sound n svc E G c) {p : Packet} (hp : PacketOK n svc E G p) (hi : p.src < n)
    (now : Int) : ∃ G', G.Le E G' ∧ Sound n svc E G' (c.put p.src ((c.nodes p.src).fail p now)) := by
  have hok := hp
  unfold PacketOK at hok
  unfold Server.fail
  by_cases hinc : p.inc ≠ (c.nodes p.src).inc
  · rw [if_pos hinc]
    exact h.idle hi (Carries.refl _ []) rfl
  rw [if_neg hinc]
  cases hrpc : p.rpc with
  | append args =>
    rw [hrpc] at hok
    have hacc : false = true → Accepted n G p.dst args {} := fun hno => absurd hno Bool.false_ne_true
    have hgo := h.appendReply hi hok hacc now [] (by simp)
    rwa [Server.addTasks, List.append_nil] at hgo
  | install args =>
    exact h.snapshotReply hi p.dst false {} (fun hno => absurd hno Bool.false_ne_true) now
  | readIndex args token => exact h.endForward hi token false {}
  | _ => exact h.idle hi (Carries.refl _ []) rfl

/-- One turn of the applier. -/
theorem Sound.applyLoop (h : Sound n svc E G c) (hi : i < n) (now : Int) :
    ∃ G', G.Le E G' ∧ Sound n svc E G' (c.put i ((c.nodes i).applyLoop now)) := by
  cases hk : (c.nodes i).raft.killed with
  | true =>
    have hdead : (c.nodes i).raft.applyLoop now = ((c.nodes i).raft, []) := by
      rw [Raft.applyLoop, if_pos (.inl hk)]
    unfold Server.applyLoop
    rw [hdead]
    exact h.idle hi ⟨fun _ ht => .inl ht, rfl, List.append_nil _, rfl, rfl, rfl, rfl⟩ rfl
  | false =>
    obtain ⟨⟨G', hle, hat, hahead⟩, happlies⟩ := (h.live hi hk).applyLoop now
    have halive : ((c.nodes i).applyLoop now).node.raft.killed = false := hat.ok.alive
    have hnode := h.nodes i hi
    refine ⟨G', hle, h.put hle ?_ ?_⟩
    · rw [Server.image_alive halive]
      exact hat
    · refine ⟨⟨fun t ht => (hnode.tasks t ht).mono hle fun _ => ⟨hk, hahead⟩,
        fun _ => (hnode.feed hk).push hle happlies hahead⟩, by exact fun _ hp => absurd hp List.not_mem_nil,
        by exact fun _ _ ha => absurd ha List.not_mem_nil, fun d hd => ?_, fun m hm => ?_, .inl rfl⟩
      · obtain ⟨m, hm, rfl⟩ := List.mem_map.mp hd
        obtain ⟨hmem, hvalid⟩ := List.mem_filter.mp hm
        exact (happlies.dispatched m hmem hvalid).mono hle
      · obtain ⟨hmem, hvalid⟩ := List.mem_filter.mp hm
        exact (happlies.installed m hmem hvalid).mono hle

theorem consume_raft (svc : Service σ) (s : Server σ) : (s.consume svc).raft = s.raft ∧
    (s.consume svc).tasks = s.tasks ∧ (s.consume svc).saved = s.saved := by
  unfold Server.consume
  split <;> exact ⟨rfl, rfl, rfl⟩

/-- A stretch of the upper layer. -/
theorem Sound.upper (h : Sound n svc E G c) (hi : i < n) {s' : Server σ}
    (hraft : s'.raft = (c.nodes i).raft) (hsaved : s'.saved = (c.nodes i).saved)
    (hok : ServerOK n svc E G s') : ∃ G', G.Le E G' ∧ Sound n svc E G' (c.put i { node := s' }) := by
  have himg : (s'.image n i).frame = c.frames n i := by
    rw [Cluster.frames, Server.image, Server.image, hraft, hsaved]
  refine ⟨G, Ghost.Le.refl E G, h.put (Ghost.Le.refl E G) ?_ { node := hok }⟩
  rw [himg, show (c.frames n i).toCore = c.cores n i from rfl, Function.update_eq_self]
  exact h.at hi

theorem Sound.consume (h : Sound n svc E G c) (hi : i < n) :
    ∃ G', G.Le E G' ∧ Sound n svc E G' (c.put i { node := (c.nodes i).consume svc }) := by
  obtain ⟨hraft, htasks, hsaved⟩ := consume_raft svc (c.nodes i)
  have hnode := h.nodes i hi
  refine h.upper hi hraft hsaved ⟨fun t ht => ?_, fun hk => ?_⟩
  · rw [hraft]
    exact hnode.tasks t (htasks ▸ ht)
  · exact (hnode.feed (hraft ▸ hk)).consume h.inv.toDraft

theorem Sound.takeSnapshot [DecidableEq σ] (h : Sound n svc E G c) (hi : i < n) {index : Int} {data : Bytes}
    (htaken : E.taken data) :
    ∃ G', G.Le E G' ∧ Sound n svc E G' (c.put i { node := (c.nodes i).takeSnapshot svc index data }) := by
  have hnode := h.nodes i hi
  unfold Server.takeSnapshot
  split_ifs with hmem
  · cases hcheck : (c.nodes i).raft.snapshotCheck index with
    | none => exact h.upper hi rfl rfl hnode
    | some term =>
      refine h.upper hi rfl rfl ⟨fun t ht => ?_, fun hk =>
        (hnode.feed hk).mono (Ghost.Le.refl E G) rfl rfl (Grows.refl _)⟩
      obtain hold | hnew := mem_addTasks ht
      · exact hnode.tasks t hold
      · rw [List.mem_singleton.mp hnew]
        exact fun hk => (hnode.feed hk).taken (h.live hi hk) hmem hcheck htaken
  · exact h.upper hi rfl rfl hnode

/-- The node goes down, and stands for what its disk would bring up. -/
theorem Sound.kill (h : Sound n svc E G c) (hi : i < n) :
    ∃ G', G.Le E G' ∧ Sound n svc E G' (c.put i { node := (c.nodes i).kill }) := by
  have hnode := h.nodes i hi
  unfold Server.kill
  cases hk : (c.nodes i).raft.killed with
  | true => exact h.upper hi rfl rfl hnode
  | false =>
    obtain ⟨G', hle, hat⟩ := (h.live hi hk).crash (c.nodes i).kill.saved.segFile 0
    rw [Server.kill, hk] at hat
    refine ⟨G', hle, h.put hle hat { node := ⟨fun t ht => ?_, fun hno => by cases hno⟩ }⟩
    exact (hnode.tasks t ht).mono hle fun hno => by cases hno

/-- A node comes up from its disk. -/
theorem Sound.restart (h : Sound n svc E G c) (hi : i < n) (now : Int) :
    ∃ G', G.Le E G' ∧ Sound n svc E G' (c.put i { node := (c.nodes i).restart svc n i now }) := by
  have hnode := h.nodes i hi
  unfold Server.restart
  cases hk : (c.nodes i).raft.killed with
  | false => exact h.upper hi rfl rfl hnode
  | true =>
    have hfresh := fresh_make (n := n) i (c.nodes i).saved now
    have himg : (Raft.make n i (c.nodes i).saved now).frame = c.frames n i := by
      rw [Cluster.frames, Server.image, if_pos hk]
      exact frame_make_now i _ now 0
    have hat : At n svc E G (c.cores n) i (Raft.make n i (c.nodes i).saved now).frame := by
      rw [himg]
      exact h.at hi
    have halive : (Raft.make n i (c.nodes i).saved now).killed = false := hfresh.alive
    have hput : ∀ s' : Server σ, s'.raft = Raft.make n i (c.nodes i).saved now →
        At n svc E G (update (c.cores n) i (s'.image n i).frame.toCore) i (s'.image n i).frame := by
      intro s' hs'
      rw [Server.image_alive (hs' ▸ halive), hs', himg, show (c.frames n i).toCore = c.cores n i from rfl,
        Function.update_eq_self]
      exact h.at hi
    exact ⟨G, Ghost.Le.refl E G, h.put (Ghost.Le.refl E G) (hput _ rfl)
      { node := ⟨fun t ht => absurd ht List.not_mem_nil, fun _ => .restarted hat hfresh _ _⟩ }⟩

theorem Sound.setLimits (h : Sound n svc E G c) (hi : i < n) (m : Int) (b : Nat) :
    ∃ G', G.Le E G' ∧ Sound n svc E G' (c.put i { node := { c.nodes i with
      raft := { (c.nodes i).raft with maxUncommittedEntries := m, maxRaftStateBytes := b } } }) :=
  h.idle hi ((took_refl _).goes _ [] []) rfl

/-- A client calls `ReadIndex`. -/
theorem Sound.read (h : Sound n svc E G c) (hi : i < n) (call fresh : Nat) (now : Int) :
    ∃ G', G.Le E G' ∧ Sound n svc E G' (c.put i ((c.nodes i).openRead (.client call) fresh now)) :=
  h.openRead hi (took_refl _).carries rfl (k := .client call) trivial fresh now

end
end ChonKV
