import ChonKV.Cluster.Voting

/-!
What the stretches of `raft.cpp` that append, replicate and commit entries do to a node, its
messages and the abstract state.
-/

set_option autoImplicit false

namespace ChonKV

open Ballot Ballot.Ledger
open Function (update)

section
variable {σ : Type} {n : Nat} {svc : Service σ} {E : Record} {G : Ghost} {K : Nat → Core} {i : Nat}
variable {r : Raft}

/-- What the answer to a request says of the node that gave it. -/
def Accepted (n : Nat) (G : Ghost) (q : Nat) (args : AppendEntriesArgs) (reply : AppendEntriesReply) :
    Prop :=
  (reply.success = false → reply.nextIndex ≤ args.prevLogIndex + 1) ∧
    (reply.success = true → ∃ m : Nat, args.prevLogIndex + args.entries.length = m ∧
      Acks (majority n) G.L q args.term m)

theorem Accepted.mono {G' : Ghost} {q : Nat} {args : AppendEntriesArgs} {reply : AppendEntriesReply}
    (h : Accepted n G q args reply) (hle : G.Le E G') : Accepted n G' q args reply := by
  refine ⟨h.1, fun hs => ?_⟩
  obtain ⟨m, hm, ha⟩ := h.2 hs
  exact ⟨m, hm, ha.ext hle.ext⟩

/-- What the answer to a chunk says of the node that gave it. -/
def Vouched (n : Nat) (G : Ghost) (q : Nat) (args : InstallSnapshotArgs) (reply : InstallSnapshotReply) :
    Prop :=
  reply.okInstall = true → ∃ m : Nat, args.lastIncludedIndex = m ∧
    Acks (majority n) G.L q args.term m

theorem Vouched.mono {G' : Ghost} {q : Nat} {args : InstallSnapshotArgs} {reply : InstallSnapshotReply}
    (h : Vouched n G q args reply) (hle : G.Le E G') : Vouched n G' q args reply := by
  intro hs
  obtain ⟨m, hm, ha⟩ := h hs
  exact ⟨m, hm, ha.ext hle.ext⟩

theorem At.advanceCommit (h : At n svc E G K i r.frame) :
    Acts n svc E G K i r.frame r.advanceCommitIndexLocked.1.frame fun _ => True := by
  unfold Raft.advanceCommitIndexLocked
  split
  · exact Acts.refl h trivial
  rename_i hs
  dsimp only
  split
  · exact Acts.refl h trivial
  rename_i hlen
  push Not at hlen
  split
  · rename_i hc
    obtain ⟨hlt, h0, hin, hterm⟩ := hc
    have hs' : (K i).state = .kLeader := by
      rw [h.core]
      exact not_not.mp hs
    have hmaj := h.ok.toHeld.majority_of_matched (not_lt.mpr hlen.2) rfl
    generalize hn : (r.matchedLocked.insertionSort (· ≤ ·)).getD
      ((r.matchedLocked.insertionSort (· ≤ ·)).length - r.quorumSizeLocked) 0 = c at *
    obtain ⟨d, rfl⟩ : ∃ d : Nat, c = d := ⟨c.toNat, by omega⟩
    have hshow := h.node.shows
    have hle : (d : Int) ≤ lastIndexOf r.logs := by
      obtain ⟨k, hk, -, hkl⟩ := (hshow.mem_range (x := (d : Int))).mp hin
      rw [show lastIndexOf r.logs = _ from hshow.lastIndexOf_eq]
      omega
    have hm := h.inv.commit h.lt hs' (c := d) (by rw [h.core]; exact hmaj)
      (by rw [h.core]; exact hlt) (by rw [h.core]; exact hle) (by rw [h.core]; exact hterm)
    rw [h.core] at hm
    exact Acts.of_hard h hm rfl
  · exact Acts.refl h trivial

/-- An index that `Start` gave out: it was free, and it is taken now. -/
def Issued (G G' : Ghost) (result : StartResult) : Prop :=
  result.isLeader = true → ∃ m : Nat, result.index = m + 1 ∧
    (G.L.hist result.term).length ≤ m ∧ m < (G'.L.hist result.term).length

theorem Held.append_store (h : Held n svc E G i r.frame) (e : LogEntry) :
    r.logStore.append e = r.logStore := by
  have hstore : r.logStore = .memory := h.store
  simp [hstore]

theorem Held.keeps (h : Held n svc E G i r.frame) : r.logStore.keepsLogExternally = false := by
  have hstore : r.logStore = .memory := h.store
  simp [hstore]

/-- A leader appends an entry and persists it. -/
theorem At.pushEntry (h : At n svc E G K i r.frame) (hs : r.state = .kLeader) {e : LogEntry}
    (ht : e.term = r.currentTerm) (hx : e.index = r.lastLogIndexLocked + 1)
    (hty : e.type ≠ .kConfChange) :
    Acts n svc E G K i r.frame (Raft.frame (Raft.persistLog
      { r with logs := r.logs ++ [e], logStore := r.logStore.append e })) fun G' =>
        G'.L.hist r.currentTerm = G.L.hist r.currentTerm ++ [e] := by
  have hok := h.ok.toHeld
  have hm := h.inv.append h.lt (by rw [h.core]; exact hs) (e := e) (by rw [h.core]; exact ht)
    (by rw [h.core]; exact hx) hty
  rw [h.core] at hm
  rw [hok.append_store, Raft.persistLog]
  simp only [hok.keeps]
  exact Acts.of_persist (r := { r with logs := r.logs ++ [e] }) h hm ⟨⟨rfl, le_rfl, le_rfl, le_rfl⟩, fun hp => ⟨hp, rfl⟩⟩
    fun G' hle => (hok.mono hle).raise le_rfl

theorem At.start (h : At n svc E G K i r.frame) (command : Command) :
    Acts n svc E G K i r.frame (r.start command).1.frame fun G' =>
      Issued G G' (r.start command).2.1 := by
  unfold Raft.start
  dsimp only
  split
  · exact Acts.refl h fun hl => by simp at hl
  rename_i hgo
  split
  · exact Acts.refl h fun hl => by simp at hl
  split
  · exact Acts.refl h fun hl => by simp at hl
  push Not at hgo
  have leads := h.node.leads hgo.2.1
  have hlast : r.lastLogIndexLocked = (G.L.hist r.currentTerm).length := by
    rw [← show G.L.log i = G.L.hist r.currentTerm from leads.log]
    exact h.node.shows.lastIndexOf_eq
  have hpush := h.pushEntry hgo.2.1 (e := { term := r.currentTerm, index := r.lastLogIndexLocked + 1
                                            command := command }) rfl rfl (by simp)
  refine hpush.trans fun G₁ hle hat hp => hat.advanceCommit.imp fun G' hle' _ _ => ?_
  have hterm : (Raft.persistLog { r with
      logs := r.logs ++ [{ term := r.currentTerm, index := r.lastLogIndexLocked + 1
                           command := command }]
      logStore := r.logStore.append { term := r.currentTerm, index := r.lastLogIndexLocked + 1
                                      command := command } }).currentTerm = r.currentTerm := by
    unfold Raft.persistLog
    split
    · rfl
    · exact congrArg Core.currentTerm (Raft.core_persistLocked _)
  refine ⟨_, congrArg (· + 1) hlast, ?_, ?_⟩
  · exact (congrArg (fun T => (G.L.hist T).length) hterm).le
  · refine lt_of_lt_of_le ?_ (hle'.ext.hist_length _)
    rw [congrArg G₁.L.hist hterm, hp]
    simp

theorem mergeEntry_memory {si : Int} (es : List LogEntry) :
    ∀ ms : MergeState, ms.logStore = .memory → (es.foldl (mergeEntry si) ms).logStore = .memory := by
  induction es with
  | nil => exact fun ms h => h
  | cons e es ih =>
    intro ms h
    refine ih _ ?_
    unfold mergeEntry
    split_ifs <;> simp [h]

theorem backOff_le (r : Raft) (t : Int) : ∀ (k : Nat) (f : Int), r.backOff t k f ≤ f := by
  intro k
  induction k with
  | zero => exact fun f => le_rfl
  | succ k ih =>
    intro f
    unfold Raft.backOff
    split
    · exact (ih (f-1)).trans (by omega)
    · exact le_rfl

/-- The commit index after a request was accepted. -/
def mergedCommit (commitIndex : Int) (args : AppendEntriesArgs) : Int :=
  if commitIndex < args.leaderCommit ∧
      commitIndex < min args.leaderCommit (args.prevLogIndex + args.entries.length) then
    min args.leaderCommit (args.prevLogIndex + args.entries.length) else commitIndex

theorem frame_followCommit (r : Raft) (args : AppendEntriesArgs) : (r.followCommit args).frame =
    { r.frame with commitIndex := mergedCommit r.commitIndex args } := by
  unfold Raft.followCommit mergedCommit
  dsimp only
  split <;> rfl

/-- The log with the entries of a request merged in. -/
def Raft.mergedLogs (r : Raft) (args : AppendEntriesArgs) : List LogEntry :=
  (args.entries.foldl (mergeEntry r.snapshotIndex) { logs := r.logs, logStore := r.logStore }).logs

theorem Held.mergeLocked (h : Held n svc E G i r.frame) (args : AppendEntriesArgs) :
    r.mergeLocked args = Raft.persistLocked { r with logs := r.mergedLogs args } ∨
      (r.mergeLocked args = r ∧ r.mergedLogs args = r.logs) := by
  have hstore : (args.entries.foldl (mergeEntry r.snapshotIndex)
      { logs := r.logs, logStore := r.logStore }).logStore = r.logStore := by
    rw [show r.logStore = .memory from h.store]
    exact mergeEntry_memory _ _ rfl
  unfold Raft.mergeLocked
  simp only [hstore, h.keeps]
  by_cases hch : (args.entries.foldl (mergeEntry r.snapshotIndex)
      { logs := r.logs, logStore := r.logStore }).changed = true
  · left
    simp [hch, Raft.mergedLogs]
  · right
    have hsame := mergeEntry_unchanged args.entries
      { logs := r.logs, logStore := r.logStore } (by simpa using hch)
    simp only at hsame
    simp [hch, Raft.mergedLogs, hsame]

/-- `AppendEntries` from the consistency check on. -/
theorem At.appendEntriesLocked (h : At n svc E G K i r.frame) {args : AppendEntriesArgs}
    (hok : AppendOK n G args) (hs : r.state = .kFollower) (hT : r.currentTerm = args.term)
    (reply : AppendEntriesReply) (hno : reply.success = false) :
    Acts n svc E G K i r.frame (r.appendEntriesLocked args reply).1.frame fun G' =>
      Accepted n G' i args (r.appendEntriesLocked args reply).2 := by
  have hheld := h.ok.toHeld
  unfold Raft.appendEntriesLocked
  split
  · rename_i hlt
    exact Acts.refl h ⟨fun _ => by dsimp only; omega, fun hs => by simp [hno] at hs⟩
  rename_i hprev
  split
  · rename_i hc
    refine Acts.refl h ⟨fun _ => ?_, fun hs => by simp [hno] at hs⟩
    have hb := backOff_le r (r.logAt args.prevLogIndex).term
      (args.prevLogIndex - r.snapshotIndex).toNat args.prevLogIndex
    dsimp only
    omega
  rename_i hmatch
  have hm := h.inv.merge h.lt (by rw [h.core]; exact hs) (by rw [h.core]; exact hT) hok
    (by rw [h.core]; exact not_lt.mp hprev)
    (by rw [h.core]; intro hle; exact not_not.mp fun hne => hmatch ⟨hle, hne⟩)
    (w := { logs := r.logs, logStore := r.logStore }) (by rw [h.core]; rfl)
    (v := mergedCommit r.commitIndex args)
    (by
      rw [h.core, mergedCommit]
      split
      · rename_i hc
        exact .inr ⟨hc.2.le, rfl⟩
      · exact .inl rfl)
  rw [h.core] at hm
  replace hm := hm.imp (Q := fun G' => Accepted n G' i args { reply with success := true })
    fun G' _ hack => ⟨fun hf => by simp at hf, fun _ => hack⟩
  rw [frame_followCommit]
  rcases hheld.mergeLocked args with hmerge | ⟨hmerge, hlogs⟩
  · have hsync : r.persistAsync = false := hheld.sync
    have hpersist := Acts.of_persist h (r := { r with
        logs := r.mergedLogs args, commitIndex := mergedCommit r.commitIndex args }) hm
      ⟨⟨rfl, le_rfl, le_rfl, le_rfl⟩, fun hp => ⟨hp, rfl⟩⟩ fun G' hle => (hheld.mono hle).raise le_rfl
    have hci : (Raft.persistLocked { r with logs := r.mergedLogs args }).commitIndex = r.commitIndex :=
      congrArg Core.commitIndex (Raft.core_persistLocked _)
    rw [Raft.frame_persistLocked (by exact hsync)] at hpersist
    rw [hmerge, hci, Raft.frame_persistLocked (by exact hsync)]
    exact hpersist
  · rw [hmerge]
    rw [show (args.entries.foldl (mergeEntry r.frame.snapshotIndex)
      { logs := r.logs, logStore := r.logStore }).logs = r.frame.logs from hlogs] at hm
    exact Acts.of_hard h hm rfl

/-- The handler of `AppendEntries`. -/
theorem At.appendEntries (h : At n svc E G K i r.frame) {args : AppendEntriesArgs}
    (hok : AppendOK n G args) (now : Int) :
    Acts n svc E G K i r.frame (r.appendEntries args now).1.frame fun G' =>
      Accepted n G' i args (r.appendEntries args now).2 := by
  obtain ⟨k, -, hk, -⟩ := hok.slice
  unfold Raft.appendEntries
  dsimp only
  split
  · exact Acts.refl h ⟨fun _ => by dsimp only; omega, fun hs => by simp at hs⟩
  rename_i hgo
  push Not at hgo
  split
  · rename_i hc
    have hstep := At.convertToFollower (r := r.heardLeader args now) h (T := args.term) hgo.2
      fun hf => hc.resolve_right fun hne => hne hf
    refine hstep.trans fun G₁ hle hat _ => ?_
    have hcore := Raft.core_persistLocked { r.heardLeader args now with
      state := .kFollower, currentTerm := args.term, votedFor := -1, numPrevotes := 0
      pendingStepdown := false, leaseExpire := 0 }
    exact hat.appendEntriesLocked (hok.mono hle) (congrArg Core.state hcore)
      (congrArg Core.currentTerm hcore) _ rfl
  · rename_i hc
    push Not at hc
    exact At.appendEntriesLocked (r := r.heardLeader args now) h hok hc.2
      (le_antisymm hgo.2 hc.1) _ rfl

theorem getD_set_cases {l : List Int} {s q : Nat} {x d : Int} :
    (q = s ∧ (l.set s x).getD q d = x) ∨ (l.set s x).getD q d = l.getD q d := by
  rw [List.getD_eq_getElem?_getD, List.getD_eq_getElem?_getD, List.getElem?_set]
  split
  · rename_i heq
    split
    · exact .inl ⟨heq.symm, rfl⟩
    · subst heq
      exact .inr (by rw [List.getElem?_eq_none (by omega)])
  · exact .inr rfl

/-- A leader does not believe anyone to be ahead of it. -/
theorem At.match_le (h : At n svc E G K i r.frame) (hs : r.state = .kLeader) (s : Nat) :
    0 ≤ r.matchIndex.getD s 0 ∧ r.matchIndex.getD s 0 ≤ r.lastLogIndexLocked := by
  have leads := h.node.leads hs
  obtain ⟨m, hm, hack⟩ := leads.matched s
  have hm' : r.matchIndex.getD s 0 = m := hm
  have hlast : r.lastLogIndexLocked = (G.L.log i).length := h.node.shows.lastIndexOf_eq
  rw [hm', hlast, leads.log]
  refine ⟨Int.natCast_nonneg m, ?_⟩
  exact_mod_cast hack.le_hist h.inv.wf leads.opened

/-- The next position of `s` changes. -/
theorem At.setNext (h : At n svc E G K i r.frame) (hs : r.state = .kLeader) (s : Nat) {x : Int}
    (hx : x ≤ r.lastLogIndexLocked + 1) :
    Acts n svc E G K i r.frame { r.frame with nextIndex := r.nextIndex.set s x } fun _ => True := by
  have leads := h.node.leads hs
  have hlast : r.lastLogIndexLocked = (G.L.log i).length := h.node.shows.lastIndexOf_eq
  have hm := h.inv.lead h.lt (by rw [h.core]; exact hs) (u := r.nextIndex.set s x)
    (v := r.matchIndex) (by rw [h.core]; exact leads.matched) fun q => by
      rw [h.core]
      rcases getD_set_cases (l := r.nextIndex) (s := s) (q := q) (x := x) (d := 0) with ⟨-, hq⟩ | hq
      · rw [hq]
        exact hx
      · rw [hq]
        have hnx := leads.next q
        rw [← leads.log, ← hlast] at hnx
        exact hnx
  rw [h.core] at hm
  exact Acts.of_hard h hm rfl

/-- The term that a leader sends for the entry before those it sends. -/
theorem At.prevTerm (h : At n svc E G K i r.frame) {k : Nat} (hk : (k : Int) ≤ r.lastLogIndexLocked) :
    ∃ m : Nat, k ≤ m ∧ m ≤ (G.L.log i).length ∧
      (if r.inLogs k then (r.logAt k).term else r.snapshotTerm) = termAt (G.L.log i) m := by
  have hshow := h.node.shows
  have hlast : r.lastLogIndexLocked = (G.L.log i).length := hshow.lastIndexOf_eq
  have hsi : r.snapshotIndex = G.L.base i := hshow.index
  split
  · rename_i hin
    obtain ⟨m, hm, hb, hle⟩ := (hshow.mem_range (x := (k : Int))).mp hin
    have hmk : m = k := by omega
    subst hmk
    exact ⟨m, le_rfl, hle, hshow.entryAt_term hb hle⟩
  · rename_i hin
    have hb : k < G.L.base i := by
      by_contra hge
      exact hin ((hshow.mem_range (x := (k : Int))).mpr ⟨k, rfl, by omega, by omega⟩)
    exact ⟨G.L.base i, hb.le, hshow.le, hshow.term⟩

/-- A request that a leader builds from its own log. -/
theorem At.appendOK (h : At n svc E G K i r.frame) (hs : r.state = .kLeader) {args : AppendEntriesArgs}
    {k : Nat} (ht : args.term = r.currentTerm) (hc : args.leaderCommit = r.commitIndex)
    (hk : args.prevLogIndex = k) (hkl : (k : Int) ≤ r.lastLogIndexLocked)
    (hp : args.prevLogTerm = if r.inLogs k then (r.logAt k).term else r.snapshotTerm)
    (hes : ∀ (j : Nat) (e : LogEntry), args.entries[j]? = some e → (G.L.log i)[k+j]? = some e) :
    AppendOK n G args := by
  have leads := h.node.leads hs
  have hlog : G.L.log i = G.L.hist args.term := by
    rw [ht]
    exact leads.log
  obtain ⟨m, hkm, hm, hterm⟩ := h.prevTerm hkl
  obtain ⟨c, hcc, hset⟩ := h.node.commit
  rw [h.node.term, show r.frame.currentTerm = args.term from ht.symm] at hset
  rw [hlog] at hm hterm hes hset
  exact ⟨ht ▸ leads.opened, ⟨k, m, hk, hkm, hm, hp.trans hterm, hes⟩, c, hc.trans hcc, hset⟩

/-- The entries of a batch that starts after the snapshot lie one after the other in the log. -/
theorem batchEntries_get (r : Raft) (first : Int) : ∀ (k : Nat) (x : Int) (bytes j : Nat) (e : LogEntry),
    r.snapshotIndex < x → (r.batchEntries first k x bytes).1[j]? = some e →
      j < k ∧ e = r.logAt (x+j) := by
  intro k
  induction k with
  | zero =>
    intro x bytes j e _ he
    simp [Raft.batchEntries] at he
  | succ k ih =>
    intro x bytes j e hx he
    unfold Raft.batchEntries at he
    rw [if_neg (by omega)] at he
    dsimp only at he
    split at he
    · simp at he
    · cases j with
      | zero =>
        simp only [List.getElem?_cons_zero, Option.some.injEq] at he
        exact ⟨Nat.zero_lt_succ k, by rw [← he]; simp⟩
      | succ j =>
        simp only [List.getElem?_cons_succ] at he
        obtain ⟨hj, heq⟩ := ih (x+1) _ j e (by omega) he
        refine ⟨Nat.succ_lt_succ hj, heq.trans ?_⟩
        congr 1
        push_cast
        omega

/-- A chunk of a snapshot: where it ends, the snapshot ends, and its checksum is that of the whole. -/
structure InstallOK (n : Nat) (svc : Service σ) (E : Record) (G : Ghost) (args : InstallSnapshotArgs) :
    Prop where
  members : args.members = List.replicate n 2
  source : ∃ data, SnapOK n svc E G args.lastIncludedIndex args.lastIncludedTerm data args.term ∧
    args.crc = crc32 data ∧
    (args.done = true → args.offset.toNat + args.data.length = data.length)

theorem InstallOK.mono {G' : Ghost} {args : InstallSnapshotArgs} (h : InstallOK n svc E G args)
    (hle : G.Le E G') : InstallOK n svc E G' args := by
  obtain ⟨hm, data, hs, hcrc, hdone⟩ := h
  exact ⟨hm, data, hs.mono hle le_rfl, hcrc, hdone⟩

/-- What a leader sends. -/
def SendOK (n : Nat) (svc : Service σ) (E : Record) (G : Ghost) : Raft.Send → Prop
  | .none => True
  | .append args => AppendOK n G args
  | .snapshot chunks => ∀ c ∈ chunks, InstallOK n svc E G c

theorem snapshotChunks_ends (base : InstallSnapshotArgs) : ∀ (k off : Nat) (rest : Bytes)
    (c : InstallSnapshotArgs), c ∈ Raft.snapshotChunks base k off rest →
      (∃ (o sz : Int) (d : Bool) (data : Bytes), c = { base with
        offset := o, chunkSize := sz, done := d, data := data }) ∧
      (c.done = true → c.offset.toNat + c.data.length = off + rest.length) := by
  intro k
  induction k with
  | zero =>
    intro off rest c hc
    simp [Raft.snapshotChunks] at hc
  | succ k ih =>
    intro off rest c hc
    unfold Raft.snapshotChunks at hc
    dsimp only at hc
    have hfirst : ∀ c, c = { base with
        offset := (off : Int)
        chunkSize := ((rest.take kSnapshotChunkSize).length : Int)
        done := decide (rest.length ≤ kSnapshotChunkSize)
        data := rest.take kSnapshotChunkSize } →
        (∃ (o sz : Int) (d : Bool) (data : Bytes), c = { base with
          offset := o, chunkSize := sz, done := d, data := data }) ∧
        (c.done = true → c.offset.toNat + c.data.length = off + rest.length) := by
      rintro c rfl
      refine ⟨⟨_, _, _, _, rfl⟩, fun hd => ?_⟩
      rw [decide_eq_true_eq] at hd
      simp only [List.length_take]
      omega
    split at hc
    · exact hfirst c (List.mem_singleton.mp hc)
    · rename_i hlong
      rcases List.mem_cons.mp hc with hc | hc
      · exact hfirst c hc
      · obtain ⟨hform, hend⟩ := ih _ _ c hc
        refine ⟨hform, fun hd => (hend hd).trans ?_⟩
        rw [List.length_drop]
        omega

/-- A leader opens a snapshot transfer. -/
theorem At.sendSnapshot (h : At n svc E G K i r.frame) (s : Nat) (now : Int)
    (hpos : 0 < r.snapshotIndex) :
    Acts n svc E G K i r.frame (r.sendSnapshot s now).1.frame fun G' =>
      SendOK n svc E G' (r.sendSnapshot s now).2 := by
  have hheld := h.ok.toHeld
  have hmem : r.isMember.map MemberRole.toInt = List.replicate n 2 := by
    rw [show r.isMember = List.replicate n .kVoter from hheld.members, List.map_replicate]
    rfl
  unfold Raft.sendSnapshot
  dsimp only
  have hsend : ∀ (r' : Raft) (G' : Ghost) (epoch : Int) (m : Nat),
      r'.snapCrc = crc32 r.snapshotData → r'.isMember = r.isMember → G.Le E G' →
      ∀ c ∈ Raft.snapshotChunks
        { term := r.currentTerm, leaderId := r.me, lastIncludedIndex := r.snapshotIndex
          lastIncludedTerm := r.snapshotTerm, crc := r'.snapCrc, epoch := epoch
          members := r'.isMember.map MemberRole.toInt } m 0 r.snapshotData, InstallOK n svc E G' c := by
    intro r' G' epoch m hcrc hmem' hle c hc
    obtain ⟨⟨o, sz, d, data, rfl⟩, hend⟩ := snapshotChunks_ends _ _ _ _ c hc
    refine ⟨by rw [hmem']; exact hmem, r.snapshotData, (hheld.data hpos).mono hle le_rfl, hcrc, ?_⟩
    intro hd
    have he := hend hd
    rwa [Nat.zero_add] at he
  split
  · refine Acts.of_moves h (Moves.refl h.inv h.core ?_) ⟨⟨rfl, le_rfl, le_rfl, le_rfl⟩, fun hp => ⟨hp, rfl⟩⟩ fun G' hle => ?_
    · exact hsend { r with snapCrc := crc32 r.snapshotData } G _ _ rfl rfl (Ghost.Le.refl E G)
    · have hh := h.ok.mono hle
      exact ⟨⟨hh.alive, hh.me, hh.peers, hh.members, hh.store, hh.sync, hh.disk, hh.blob, hh.noBlob,
        hh.blobIndex, hh.data, fun _ => rfl, hh.pending⟩, hh.saved.term, hh.saved.vote, hh.saved.members,
        hh.saved.logs⟩
  · rename_i hidx
    refine Acts.quiet h rfl ?_
    exact hsend r G _ _ (hheld.crc (not_not.mp hidx)) rfl (Ghost.Le.refl E G)

/-- A leader sends entries or a heartbeat. -/
theorem At.sendAppend (h : At n svc E G K i r.frame) (hs : r.state = .kLeader) (s : Nat) {next : Int}
    (h1 : 1 ≤ next) (hnext : next ≤ r.lastLogIndexLocked + 1) (may removed : Bool)
    (hmay : may = true → r.snapshotIndex < next) (cap now : Int) :
    Acts n svc E G K i r.frame (r.sendAppend s next may removed cap now).1.frame fun G' =>
      SendOK n svc E G' (r.sendAppend s next may removed cap now).2 := by
  obtain ⟨k, hk⟩ : ∃ k : Nat, next - 1 = k := ⟨(next-1).toNat, by omega⟩
  have hshow := h.node.shows
  have hlast : r.lastLogIndexLocked = (G.L.log i).length := hshow.lastIndexOf_eq
  have hsi : r.snapshotIndex = G.L.base i := hshow.index
  unfold Raft.sendAppend
  dsimp only
  rw [hk]
  split
  · rename_i hm
    generalize hlim : (if kMaxEntriesPerRpc < (if removed = true ∧ 0 ≤ cap ∧ cap < r.lastLogIndexLocked
      then cap else r.lastLogIndexLocked) - next + 1 then next + kMaxEntriesPerRpc - 1
      else if removed = true ∧ 0 ≤ cap ∧ cap < r.lastLogIndexLocked then cap
        else r.lastLogIndexLocked) = last
    have hle : last ≤ r.lastLogIndexLocked := by
      rw [← hlim]
      split_ifs <;> omega
    generalize hb : r.batchEntries next (last - next + 1).toNat next 0 = batch
    have hget : ∀ (j : Nat) (e : LogEntry), batch.1[j]? = some e → (G.L.log i)[k+j]? = some e := by
      intro j e he
      rw [← hb] at he
      obtain ⟨hj, heq⟩ := batchEntries_get r next _ next 0 j e (hmay hm) he
      have hlt : k + j < (G.L.log i).length := by omega
      have hge : (G.L.log i)[k+j]? = some (G.L.log i)[k+j] := List.getElem?_eq_getElem hlt
      have hent := hshow.entryAt_eq (p := k+j) (by have := hmay hm; omega) hge
      rw [hge, heq, Raft.logAt, show next + (j : Int) = ((k+j : Nat) : Int) + 1 by omega]
      exact congrArg some hent.symm
    have hlen : next + batch.1.length ≤ r.lastLogIndexLocked + 1 := by
      by_cases h0 : batch.1.length = 0
      · omega
      · have hp := hget (batch.1.length - 1) _ (List.getElem?_eq_getElem (by omega))
        have hl := (List.getElem?_eq_some_iff.mp hp).1
        omega
    have hstep := h.setNext hs s hlen
    refine hstep.imp fun G' hle' _ => ?_
    exact (h.appendOK hs rfl rfl rfl (by omega) (by rfl) hget).mono hle'
  · refine Acts.quiet h rfl ?_
    exact h.appendOK hs rfl rfl rfl (by omega) (by rfl) fun j e he => by simp at he

/-- Entries for a removed node start after the snapshot. -/
theorem sendFrom_removed {s : Nat} {p : Raft.Progress} (hr : p.removed = true)
    (hm : p.maySendLog = true) : r.snapshotIndex < r.sendFrom s p := by
  unfold Raft.sendFrom
  dsimp only
  generalize (if (if p.timedOut then r.matchIndex.getD s 0 + 1 else r.nextIndex.getD s 0) ≤ 0 then 1
    else if p.timedOut then r.matchIndex.getD s 0 + 1 else r.nextIndex.getD s 0) = next
  by_cases hle : next ≤ r.snapshotIndex
  · rw [if_pos ⟨hr, hle, hm⟩]
    omega
  · rw [if_neg fun hc => hle hc.2.1]
    omega

theorem At.sendTo (h : At n svc E G K i r.frame) (hs : r.state = .kLeader) (s : Nat)
    (p : Raft.Progress) (now : Int) :
    Acts n svc E G K i r.frame (r.sendTo s p now).1.frame fun G' =>
      SendOK n svc E G' (r.sendTo s p now).2 := by
  have hshow := h.node.shows
  have hlast : r.lastLogIndexLocked = (G.L.log i).length := hshow.lastIndexOf_eq
  have hsi : r.snapshotIndex = G.L.base i := hshow.index
  have hbase := hshow.le
  have hfrom : 1 ≤ r.sendFrom s p ∧ r.sendFrom s p ≤ r.lastLogIndexLocked + 1 := by
    have hmatch := h.match_le hs s
    have hnx := (h.node.leads hs).next s
    rw [← (h.node.leads hs).log, ← hlast] at hnx
    have hnx' : r.nextIndex.getD s 0 ≤ r.lastLogIndexLocked + 1 := hnx
    unfold Raft.sendFrom
    dsimp only
    split_ifs <;> omega
  have hmay : (p.maySendLog && !(decide (r.sendFrom s p ≤ r.snapshotIndex) && !p.removed)) = true →
      r.snapshotIndex < r.sendFrom s p := by
    intro hm
    by_contra hle
    simp only [Bool.and_eq_true, Bool.not_eq_true', Bool.and_eq_false_iff, decide_eq_false_iff_not,
      Bool.not_eq_false'] at hm
    exact hle (sendFrom_removed (hm.2.resolve_left (not_not.mpr (not_lt.mp hle))) hm.1)
  unfold Raft.sendTo
  dsimp only
  split
  · rename_i hlag
    refine At.sendSnapshot (r := { r with
      lastHeartbeatSeq := r.lastHeartbeatSeq.set s r.heartbeatSeq }) h s now ?_
    have hle := hlag.1
    simp only [Bool.and_eq_true, decide_eq_true_eq] at hle
    exact lt_of_lt_of_le (by omega) (hfrom.1.trans hle.1)
  · exact At.sendAppend (r := { r with
      lastHeartbeatSeq := r.lastHeartbeatSeq.set s r.heartbeatSeq }) h hs s hfrom.1 hfrom.2 _ _ hmay
      _ now

theorem At.freezeRemoved (h : At n svc E G K i r.frame) (hs : r.state = .kLeader) (s : Nat)
    (p : Raft.Progress) :
    Acts n svc E G K i r.frame (r.freezeRemoved s p).1.frame (fun _ => True) ∧
      (r.freezeRemoved s p).1.state = .kLeader := by
  unfold Raft.freezeRemoved
  dsimp only
  split
  · exact ⟨Acts.refl h trivial, hs⟩
  split
  · have hshow := h.node.shows
    have hlast : r.lastLogIndexLocked = (G.L.log i).length := hshow.lastIndexOf_eq
    have hsi : r.snapshotIndex = G.L.base i := hshow.index
    have hbase := hshow.le
    exact ⟨h.setNext hs s (x := r.snapshotIndex + 1) (by omega), hs⟩
  · exact ⟨Acts.refl h trivial, hs⟩

/-- One turn of `ReplicateLoop`. -/
theorem At.replicate (h : At n svc E G K i r.frame) (s : Nat) (now : Int) :
    Acts n svc E G K i r.frame (r.replicate s now).1.frame fun G' =>
      SendOK n svc E G' (r.replicate s now).2 := by
  unfold Raft.replicate
  split
  · exact Acts.refl h trivial
  rename_i hgo
  push Not at hgo
  split
  · split
    · refine (h.convertToFollower le_rfl fun hf => ?_).imp fun _ _ _ => trivial
      simp [hgo.2] at hf
    · exact Acts.quiet h rfl trivial
  obtain ⟨hfr, hlead⟩ := h.freezeRemoved hgo.2 s (r.progress s now)
  dsimp only
  split
  · exact hfr.imp fun _ _ _ => trivial
  · exact hfr.trans fun G₁ _ hat _ => hat.sendTo hlead s _ now

theorem frame_recordReadAck (r : Raft) (ctx s : Nat) : (r.recordReadAckLocked ctx s).frame = r.frame := by
  unfold Raft.recordReadAckLocked
  split
  · rfl
  dsimp only
  split <;> rfl

theorem frame_noteAck (r : Raft) (s ctx : Nat) (now : Int) : (r.noteAck s ctx now).frame = r.frame := by
  unfold Raft.noteAck
  dsimp only
  split
  · exact frame_recordReadAck _ _ _
  · rfl

/-- The success branch of the callback of `AppendEntries`. -/
theorem At.appendAccepted (h : At n svc E G K i r.frame) (hs : r.state = .kLeader)
    {args : AppendEntriesArgs} {s : Nat} (hT : args.term = r.currentTerm)
    (hack : ∃ m : Nat, args.prevLogIndex + args.entries.length = m ∧
      Acks (majority n) G.L s args.term m) (now : Int) :
    Acts n svc E G K i r.frame (r.appendAccepted args s now).1.frame fun _ => True := by
  have leads := h.node.leads hs
  obtain ⟨m, hm, ha⟩ := hack
  rw [hT] at ha
  unfold Raft.appendAccepted
  dsimp only
  rw [hm]
  generalize hr₁ : (if r.matchIndex.getD s 0 < (m : Int) then
    { r with matchIndex := r.matchIndex.set s m } else r) = r₁
  have hstep : Acts n svc E G K i r.frame r₁.frame fun _ => True := by
    rw [← hr₁]
    split
    · have hlead := h.inv.lead h.lt (by rw [h.core]; exact hs) (u := r.nextIndex)
        (v := r.matchIndex.set s m) (fun q => by
          rw [h.core]
          rcases getD_set_cases (l := r.matchIndex) (s := s) (q := q) (x := m) (d := 0)
            with ⟨rfl, hq⟩ | hq
          · exact ⟨m, hq, ha⟩
          · rw [hq]
            exact leads.matched q) fun q => by
        rw [h.core]
        have hnx := leads.next q
        rw [← leads.log, ← h.node.shows.lastIndexOf_eq] at hnx
        exact hnx
      rw [h.core] at hlead
      exact Acts.of_hard h hlead rfl
    · exact Acts.refl h trivial
  refine hstep.trans fun G₁ _ hat _ => ?_
  split
  · exact At.advanceCommit (r := { r₁ with leaseExpire := now + kLeaderLeaseMs }) hat
  · exact hat.advanceCommit

theorem At.appendRejected (h : At n svc E G K i r.frame) (hs : r.state = .kLeader) (s : Nat)
    {hint : Int} (hh : hint ≤ r.lastLogIndexLocked + 1) :
    Acts n svc E G K i r.frame (r.appendRejected s hint).frame fun _ => True := by
  have hlast : r.lastLogIndexLocked = (G.L.log i).length := h.node.shows.lastIndexOf_eq
  have hmatch := h.match_le hs s
  have hnx := (h.node.leads hs).next s
  rw [← (h.node.leads hs).log, ← hlast] at hnx
  have hnx' : r.nextIndex.getD s 0 ≤ r.lastLogIndexLocked + 1 := hnx
  unfold Raft.appendRejected
  refine h.setNext hs s ?_
  split <;> omega

/-- The callback of `AppendEntries`, with an answer or without. -/
theorem At.appendReply (h : At n svc E G K i r.frame) {args : AppendEntriesArgs} {s : Nat} {ok : Bool}
    {reply : AppendEntriesReply} (hok : AppendOK n G args)
    (hacc : ok = true → Accepted n G s args reply) (now : Int) :
    Acts n svc E G K i r.frame (r.appendReply args s ok reply now).1.frame fun _ => True := by
  unfold Raft.appendReply
  split
  · exact Acts.refl h trivial
  dsimp only
  split
  · exact Acts.quiet h rfl trivial
  rename_i hk
  split
  · rename_i hlt
    exact At.stepDownTo (r := r.noteReached s ok) h hlt
  split
  · exact Acts.quiet h rfl trivial
  rename_i hgo
  push Not at hgo
  have hT : args.term = r.currentTerm := hgo.1
  have hs : r.state = .kLeader := hgo.2
  obtain ⟨hrej, hsucc⟩ := hacc (by simpa using hk)
  generalize hr₁ : (r.noteReached s ok).noteAck s reply.readCtx now = r₁
  have hframe : r₁.frame = r.frame := by
    rw [← hr₁, frame_noteAck]
    rfl
  have hs₁ : r₁.state = .kLeader := (congrArg (fun f : Frame => f.state) hframe).trans hs
  have hT₁ : r₁.currentTerm = r.currentTerm := congrArg (fun f : Frame => f.currentTerm) hframe
  have h₁ : At n svc E G K i r₁.frame := by rwa [hframe]
  rw [← hframe]
  split
  · rename_i hsuc
    exact h₁.appendAccepted hs₁ (hT.trans hT₁.symm) (hsucc hsuc) now
  · rename_i hsuc
    refine h₁.appendRejected hs₁ s ?_
    obtain ⟨k, m, hk', hkm, hm, -⟩ := hok.slice
    have hlast : r₁.lastLogIndexLocked = (G.L.log i).length := h₁.node.shows.lastIndexOf_eq
    have hlog : G.L.log i = G.L.hist args.term := by
      rw [hT, ← hT₁]
      exact (h₁.node.leads hs₁).log
    rw [← hlog] at hm
    have hle := hrej (by simpa using hsuc)
    omega

/-- The heartbeat of a read round. -/
theorem At.readHeartbeat (h : At n svc E G K i r.frame) {ctx s : Nat} {args : AppendEntriesArgs}
    (ha : r.readHeartbeat ctx s = .send args) : AppendOK n G args := by
  have hlast : r.lastLogIndexLocked = (G.L.log i).length := h.node.shows.lastIndexOf_eq
  unfold Raft.readHeartbeat at ha
  split at ha
  · cases ha
  split at ha
  · cases ha
  rename_i hs
  split at ha
  · cases ha
  cases ha
  exact h.appendOK (not_not.mp hs) rfl rfl hlast (by omega) (by rw [← hlast])
    fun j e he => by simp at he

theorem At.readHeartbeatReply (h : At n svc E G K i r.frame) (args : AppendEntriesArgs) (s : Nat)
    (reply : AppendEntriesReply) (now : Int) :
    Acts n svc E G K i r.frame (r.readHeartbeatReply args s reply now).frame fun _ => True := by
  unfold Raft.readHeartbeatReply
  split
  · exact Acts.refl h trivial
  split
  · rename_i hlt
    exact h.stepDownTo hlt
  split
  · exact Acts.refl h trivial
  dsimp only
  split
  · exact Acts.quiet h rfl trivial
  · exact Acts.quiet h (frame_recordReadAck _ _ _) trivial

theorem frame_readIndexOpen (r : Raft) (now : Int) : (r.readIndexOpen now).1.frame = r.frame := by
  unfold Raft.readIndexOpen
  split
  · split <;> rfl
  split
  · rfl
  split
  · rfl
  split
  · rfl
  split <;> rfl

theorem frame_readIndexPoll (r : Raft) (ctx : Nat) (term readIndex deadline now : Int) :
    (r.readIndexPoll ctx term readIndex deadline now).1.frame = r.frame := by
  unfold Raft.readIndexPoll
  dsimp only
  split_ifs <;> rfl

end
end ChonKV
