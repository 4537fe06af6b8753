import ChonKV.Cluster.MatchIndex
import ChonKV.Durable.BlobOrder
import ChonKV.Durable.Changes

/-!
An entry is known by its index and its term wherever it stands in a run: in a log, in a state that was saved,
or on its way. A term may have had several leaders by then; each went on where the one before it had stopped.
-/

set_option autoImplicit false

namespace ChonKV

open Ballot Ballot.Ledger Raft
open Function (update)

namespace Raft

/-- A state that is saved on the way names the snapshot that `r'` has, and a node that is down stays down. -/
structure Saves (r r' : Raft) : Prop where
  dead : r.killed = true → r'.killed = true
  state : (r'.persister.raftState = r.persister.raftState ∧ r'.snapshotIndex = r.snapshotIndex) ∨
    ∃ st, r'.persister.raftState = some st ∧ st.snapshotIndex = r'.snapshotIndex

variable {r r' r'' : Raft} {k : ReadUse}

theorem Saves.refl (r : Raft) : Saves r r := ⟨id, .inl ⟨rfl, rfl⟩⟩

theorem Saves.trans (h : Saves r r') (h' : Saves r' r'') : Saves r r'' := by
  refine ⟨fun hk => h'.dead (h.dead hk), ?_⟩
  rcases h'.state with ⟨hst', hx'⟩ | hst'
  · rcases h.state with ⟨hst, hx⟩ | ⟨st, hst, hx⟩
    · exact .inl ⟨hst'.trans hst, hx'.trans hx⟩
    · exact .inr ⟨st, hst'.trans hst, hx.trans hx'.symm⟩
  · exact .inr hst'

theorem KeepsSnapshot.saves (h : KeepsSnapshot r r') (hk : r.killed = true → r'.killed = true) : Saves r r' := by
  refine ⟨hk, ?_⟩
  rcases h.state with hst | ⟨st, hst, hx⟩
  · exact .inl ⟨hst, h.index⟩
  · exact .inr ⟨st, hst, hx.trans h.index.symm⟩

theorem saves_persistLocked (r : Raft) : Saves r r.persistLocked :=
  (still_persistLocked r).saves fun hk => (killed_persistLocked r).trans hk

theorem Change.saves (h : Change k r r') : Saves r r' := by
  cases h with
  | same h =>
    have hk : r'.killed = r.killed := congrArg Scope.killed h
    have hp : r'.persister = r.persister := congrArg Scope.persister h
    exact ⟨fun hd => hk.trans hd, .inl ⟨by rw [hp], congrArg Scope.snapshotIndex h⟩⟩
  | persist => exact saves_persistLocked r
  | ack ctx s =>
    rw [recordReadAckLocked]
    dsimp only
    split_ifs <;> exact ⟨id, .inl ⟨rfl, rfl⟩⟩
  | openRead now =>
    have hk := congrArg (fun f : Frame => f.killed) (frame_readIndexOpen r now)
    exact (still_readIndexOpen r now).saves hk.trans
  | pollRead ctx term readIndex deadline now =>
    have hk := congrArg (fun f : Frame => f.killed) (frame_readIndexPoll r ctx term readIndex deadline now)
    exact (still_readIndexPoll r ctx term readIndex deadline now).saves hk.trans
  | kill => exact ⟨fun _ => rfl, .inl ⟨rfl, rfl⟩⟩
  | _ => exact ⟨id, .inl ⟨rfl, rfl⟩⟩

theorem Changes.saves (h : Changes k r r') : Saves r r' := by
  induction h with
  | refl => exact .refl r
  | tail _ hlast ih => exact ih.trans hlast.saves

theorem saves_convertToFollowerLocked (r : Raft) (term : Int) : Saves r (r.convertToFollowerLocked term) :=
  (still_convertToFollowerLocked r term).saves (killed_convertToFollower r term).trans

theorem saves_startRealElection (r : Raft) (now : Int) : Saves r (r.startRealElection now).1 := by
  have hstand : Saves r (r.standForTerm now).1 := (changes_standForTerm (k := .none) r now).saves
  rw [startRealElection]
  dsimp only
  split_ifs
  · exact hstand.trans (changes_becomeLeaderIfQuorumLocked (k := .none) _ now).saves
  · exact hstand
  · exact hstand

theorem saves_appendEntriesLocked (r : Raft) (args : AppendEntriesArgs) (reply : AppendEntriesReply) :
    Saves r (r.appendEntriesLocked args reply).1 := by
  refine (keeps_appendEntriesLocked r args reply).saves fun hk => ?_
  have hmerge : (r.mergeLocked args).killed = r.killed := by
    rw [mergeLocked]
    dsimp only
    split_ifs
    · exact killed_persistLocked _
    · rfl
  rw [appendEntriesLocked, followCommit]
  dsimp only
  split_ifs
  · exact hk
  · exact hk
  · exact hmerge.trans hk
  · exact hmerge.trans hk

theorem saves_appendEntries (r : Raft) (args : AppendEntriesArgs) (now : Int) :
    Saves r (r.appendEntries args now).1 := by
  have hheard : Saves r (r.heardLeader args now) := ⟨id, .inl ⟨rfl, rfl⟩⟩
  rw [appendEntries]
  dsimp only
  split_ifs
  · exact .refl r
  · exact (hheard.trans (saves_convertToFollowerLocked _ _)).trans (saves_appendEntriesLocked _ args _)
  · exact hheard.trans (saves_appendEntriesLocked _ args _)

theorem saves_installSnapshot (r : Raft) (args : InstallSnapshotArgs) (now : Int) :
    Saves r (r.installSnapshot args now).1 := by
  have hreceive : ∀ r reply, Saves r (installReceive r args reply now).1 := fun r reply =>
    (changes_installReceive (k := .none) r args reply now).saves
  rw [installSnapshot]
  dsimp only
  split_ifs
  · exact .refl r
  · exact (saves_convertToFollowerLocked r _).trans (hreceive _ _)
  · exact hreceive r _

theorem saves_saveSnapshotBlob (r : Raft) (index term : Int) (raw : Bytes) :
    Saves r (r.saveSnapshotBlob index term raw) := by
  rw [saveSnapshotBlob]
  split_ifs
  · exact .refl r
  · exact ⟨id, .inl ⟨rfl, rfl⟩⟩

/-- What was cut is in the state that is saved. -/
theorem saves_cut (hk : r.killed = true → r'.killed = true) (hasync : r'.persistAsync = false) :
    Saves r r'.persistLocked := by
  refine ⟨fun h => (killed_persistLocked r').trans (hk h), .inr ⟨r'.encodeRaftStateLocked, ?_⟩⟩
  rw [persistLocked, hasync]
  exact ⟨rfl, rfl⟩

theorem saves_snapshotCommit (hasync : r.persistAsync = false) (index term : Int) (data : Bytes) :
    Saves r (r.snapshotCommit index term data).1 := by
  rw [snapshotCommit_eq]
  split_ifs
  · exact .refl r
  · refine saves_cut ?_ ?_
    · exact id
    · exact hasync

theorem persistLocked_async (r : Raft) : r.persistLocked.persistAsync = r.persistAsync := by
  rw [persistLocked]
  split_ifs <;> rfl

theorem saves_installCommit (hasync : r.persistAsync = false) (args : InstallSnapshotArgs) (blob : Bytes) :
    Saves r (r.installCommit args blob).1 := by
  have hlogs : ∀ r' : Raft, (r.killed = true → r'.killed = true) → r'.persistAsync = false →
      ∀ old msg keep, Saves r ((r'.installLogs args old).installFinish msg keep) := by
    intro r' hk hasync' old msg keep
    have hfinish : Saves (r'.installLogs args old) ((r'.installLogs args old).installFinish msg keep) :=
      ⟨id, .inl ⟨rfl, rfl⟩⟩
    refine Saves.trans ?_ hfinish
    rw [installLogs]
    refine saves_cut ?_ ?_
    · exact hk
    · exact hasync'
  rw [installCommit]
  dsimp only
  split_ifs
  · exact .refl r
  · refine hlogs _ ?_ ?_ _ _ _
    · exact (killed_convertToFollower (r.installBegin args blob) _).trans
    · exact (persistLocked_async _).trans hasync
  · refine hlogs _ ?_ ?_ _ _ _
    · exact id
    · exact hasync

theorem saves_applyTurn (r : Raft) (idx : Int) : Saves r ((r.applyTurn idx).raft r) := by
  refine (sameLog_applyTurn r idx).toKeepsSnapshot.saves fun hk => ?_
  have hconf : ∀ (r : Raft) e, (r.applyConf idx e).killed = r.killed := by
    intro r e
    rw [applyConf]
    refine (killed_persistLocked _).trans ?_
    dsimp only
    split_ifs <;> rfl
  rw [applyTurn]
  dsimp only
  split_ifs
  · exact hk
  · exact hk
  · exact (hconf _ _).trans hk
  · exact hk
  · exact hk

theorem saves_applyBatch (r : Raft) (now : Int) (m : Nat) (idx : Int) :
    Saves r (r.applyBatch now m idx).1 := by
  induction m generalizing r idx with
  | zero => exact .refl r
  | succ m ih =>
    have hturn := saves_applyTurn r idx
    rw [applyBatch]
    cases ht : r.applyTurn idx with
    | stop => exact .refl r
    | skip r' =>
      rw [ht] at hturn
      exact hturn.trans (ih r' _)
    | dispatch r' msg =>
      rw [ht] at hturn
      exact hturn.trans (ih r' _)
    | conf r' msg =>
      rw [ht] at hturn
      exact (hturn.trans (changes_applyConfAfter (k := .none) r' now).saves).trans (ih _ _)

theorem saves_applyLoop (r : Raft) (now : Int) : Saves r (r.applyLoop now).1 := by
  rw [applyLoop]
  split_ifs
  · exact .refl r
  · split
    · exact ⟨id, .inl ⟨rfl, rfl⟩⟩
    · exact saves_applyBatch r now _ _
  · split
    · exact ⟨id, .inl ⟨rfl, rfl⟩⟩
    · exact .refl r

end Raft

/-- The entry is the one of its term at its index. -/
def Recorded (G : Ghost) (e : LogEntry) : Prop := ∃ p : Nat, e.index = p+1 ∧ (G.L.hist e.term)[p]? = some e

/-- Every entry of the state is recorded. -/
def RaftState.Known (G : Ghost) (st : RaftState) : Prop := ∀ e ∈ st.logs.tail, Recorded G e

def Persister.Known (G : Ghost) (p : Persister) : Prop := ∀ st, p.raftState = some st → st.Known G

section
variable {σ : Type} {n : Nat} {svc : Service σ} {E : Record} {G G' : Ghost} {c : Cluster σ} {i : Nat}

theorem Recorded.mono {e : LogEntry} (h : Recorded G e) (hle : G.Le E G') : Recorded G' e := by
  obtain ⟨p, hp, he⟩ := h
  exact ⟨p, hp, (hle.ext.hist_get (List.getElem?_eq_some_iff.mp he).1).trans he⟩

theorem Persister.Known.mono {p : Persister} (h : p.Known G) (hle : G.Le E G') : p.Known G' :=
  fun st hst e he => (h st hst e he).mono hle

/-- Index and term say which entry it is. -/
theorem Recorded.unique {e e' : LogEntry} (h : Recorded G e) (h' : Recorded G e') (hi : e.index = e'.index)
    (ht : e.term = e'.term) : e = e' := by
  obtain ⟨p, hp, he⟩ := h
  obtain ⟨q, hq, he'⟩ := h'
  obtain rfl : p = q := by omega
  rw [ht, he'] at he
  exact (Option.some.inj he).symm

/-- What a ballot wrote is recorded, whatever ballot it was copied from. -/
theorem Draft.recorded {K : Nat → Core} (h : Draft n E G K) {T : Int} {p : Nat} {e : LogEntry}
    (he : (G.L.hist T)[p]? = some e) : Recorded G e := by
  refine ⟨p, h.aligned T p e he, ?_⟩
  have htake := (h.wf.matching T p e he).2
  exact (getElem?_of_take htake (Nat.lt_succ_self p)).symm.trans he

/-- What a node that is up shows of its log is recorded. -/
theorem At.recorded {K : Nat → Core} {f : Frame} (h : At n svc E G K i f) {e : LogEntry} (he : e ∈ f.logs.tail) :
    Recorded G e := by
  have hshow := h.node.shows
  rw [show f.logs = _ from hshow.logs, List.tail_cons] at he
  obtain ⟨q, hq⟩ := List.mem_iff_getElem?.mp he
  rw [List.getElem?_drop] at hq
  obtain ⟨-, -, hsame⟩ := h.inv.wf.canon i (G.L.base i + q) e (Nat.le_add_right _ _) hq
  have hhist := hsame _ (Nat.le_add_right _ _) le_rfl
  exact h.inv.toDraft.recorded (T := e.term) (p := G.L.base i + q) (hhist.symm.trans hq)

theorem AppendOK.recorded {K : Nat → Core} (h : Draft n E G K) {args : AppendEntriesArgs} (hok : AppendOK n G args)
    {e : LogEntry} (he : e ∈ args.entries) : Recorded G e := by
  obtain ⟨k, m, -, -, -, -, hslice⟩ := hok.slice
  obtain ⟨j, hj⟩ := List.mem_iff_getElem?.mp he
  exact h.recorded (hslice j e hj)

/-- What a node that is up saves is what it has, or what was saved before. -/
theorem At.saved_known {K : Nat → Core} {r r' : Raft} (h : At n svc E G' K i r'.frame) (hle : G.Le E G')
    (hold : r.persister.Known G) (hs : Saves r r') : r'.persister.Known G' := by
  intro st hst
  rcases hs.state with ⟨hsame, -⟩ | ⟨st', hst', hx⟩
  · exact fun e he => (hold st (hsame.symm.trans hst) e he).mono hle
  · obtain rfl : st' = st := Option.some.inj (hst'.symm.trans hst)
    have hsaved := h.ok.saved
    rw [show r'.frame.persister.raftState = some st' from hst', Option.getD_some] at hsaved
    rcases hsaved.logs with ⟨-, -, hlogs⟩ | ⟨-, hlt, -⟩
    · intro e he
      exact h.recorded (hlogs ▸ he)
    · have hx' : st'.snapshotIndex = r'.frame.snapshotIndex := hx
      omega

/-- A stretch of a node: a copy of the disk that a crash kept stays as it is. -/
structure Server.Keeps (s s' : Server σ) : Prop where
  saved : s'.saved = s.saved
  dead : s.raft.killed = true → s'.raft.killed = true
  saves : s.raft.killed = false → Saves s.raft s'.raft

theorem Server.keeps_of_saves {s s' : Server σ} (hsaved : s'.saved = s.saved) (h : Saves s.raft s'.raft) :
    s.Keeps s' := ⟨hsaved, h.dead, fun _ => h⟩

theorem Server.Keeps.refl (s : Server σ) : s.Keeps s := keeps_of_saves rfl (.refl s.raft)

theorem keeps_finishRead {s s' : Server σ} (h : s.Keeps s') (k : Reader) (result : Int) :
    s.Keeps (s'.finishRead k result).node := by
  rw [finishRead_node]
  exact h

theorem keeps_electionTimeout (s : Server σ) (now : Int) : s.Keeps (s.electionTimeout now).node := by
  have h : Saves s.raft (s.raft.electionTimeout now).1 := (changes_electionTimeout (k := .none) _ now).saves
  rw [Server.electionTimeout, Server.finishStart]
  split <;> exact Server.keeps_of_saves rfl h

theorem keeps_openRead (s : Server σ) (k : Reader) (fresh : Nat) (now : Int) :
    s.Keeps (s.openRead k fresh now).node := by
  have h : Saves s.raft (s.raft.readIndexOpen now).1 := (Change.openRead s.raft now rfl).saves
  rw [Server.openRead]
  dsimp only
  split
  · exact Server.keeps_of_saves rfl h
  · refine keeps_finishRead ?_ k _
    exact Server.keeps_of_saves rfl h
  · exact Server.keeps_of_saves rfl h

theorem keeps_runTask (s : Server σ) (hasync : s.raft.killed = false → s.raft.persistAsync = false)
    (ts : List Task) (fresh : Nat) (now : Int) (t : Task) :
    s.Keeps ({ s with tasks := ts }.runTask fresh now t).node := by
  have hgo : ∀ {s' : Server σ}, s'.saved = s.saved → Saves s.raft s'.raft → s.Keeps s' :=
    fun hsv h => Server.keeps_of_saves hsv h
  have hstay : ∀ {s' : Server σ}, s'.saved = s.saved → s'.raft = s.raft → s.Keeps s' :=
    fun hsv h => hgo hsv (h ▸ .refl s.raft)
  cases t with
  | startRealElection => exact hgo rfl (saves_startRealElection s.raft now)
  | sendRequestVotes =>
    rw [Server.runTask]
    split <;> exact hstay rfl rfl
  | commitSynced => exact hgo rfl ⟨id, .inl ⟨rfl, rfl⟩⟩
  | installBlob p args blob => exact hgo rfl (saves_saveSnapshotBlob s.raft _ _ _)
  | installCommit p args blob =>
    refine ⟨rfl, fun hk => ?_, fun hk => ?_⟩
    · exact (killed_installCommit s.raft args blob).trans hk
    · exact saves_installCommit (hasync hk) args blob
  | snapshotBlob index term data => exact hgo rfl (saves_saveSnapshotBlob s.raft _ _ _)
  | snapshotCommit index term data =>
    have hcut : ∀ r : Raft, Saves r (r.truncateStore index) := fun r => ⟨id, .inl ⟨rfl, rfl⟩⟩
    have hkilled := killed_snapshotCommit s.raft index term data
    refine ⟨rfl, fun hk => ?_, fun hk => ?_⟩
    · dsimp only [Server.runTask]
      split_ifs <;> exact hkilled.trans hk
    · have hc := saves_snapshotCommit (hasync hk) index term data
      dsimp only [Server.runTask]
      split_ifs
      · exact hc.trans (hcut _)
      · exact hc
  | readOpen k =>
    have h := keeps_openRead { s with tasks := ts } k fresh now
    exact ⟨h.saved, h.dead, h.saves⟩
  | readBroadcast k ctx term readIndex t =>
    rw [Server.runTask]
    by_cases ht : t < s.raft.peers
    · rw [if_pos ht]
      split <;> exact hstay rfl rfl
    · rw [if_neg ht]
      exact hstay rfl rfl
  | readWait k ctx term readIndex deadline =>
    have hp : Saves s.raft (s.raft.readIndexPoll ctx term readIndex deadline now).1 :=
      (Change.pollRead s.raft ctx term readIndex deadline now rfl).saves
    rw [Server.runTask]
    dsimp only
    split
    · exact hgo rfl hp
    · refine keeps_finishRead ?_ k _
      exact hgo rfl hp
  | readForwarded k token => exact hstay rfl rfl

theorem keeps_deliver (s : Server σ) (p : Packet) (now : Int) : s.Keeps (s.deliver p now).node := by
  rw [Server.deliver]
  split
  · exact Server.keeps_of_saves rfl (changes_requestVote (k := .none) _ _ now).saves
  · exact .refl s
  · exact Server.keeps_of_saves rfl (saves_appendEntries s.raft _ now)
  · exact Server.keeps_of_saves rfl (saves_appendEntries s.raft _ now)
  · next args _ =>
    have h := saves_installSnapshot s.raft args now
    dsimp only
    split <;> exact Server.keeps_of_saves rfl h
  · dsimp only
    split_ifs <;> exact Server.keeps_of_saves rfl (.refl s.raft)

theorem keeps_endForward (s : Server σ) (token : Nat) (ok : Bool) (reply : ReadIndexReply) :
    s.Keeps (s.endForward token ok reply).node := by
  rw [Server.endForward]
  split
  · exact .refl s
  · refine keeps_finishRead ?_ _ _
    exact Server.keeps_of_saves rfl (.refl s.raft)

theorem keeps_answer (s : Server σ) (p : Packet) (reply : RpcReply) (now : Int) :
    s.Keeps (s.answer p reply now).node := by
  unfold Server.answer
  by_cases hinc : p.inc ≠ s.inc
  · rw [if_pos hinc]
    exact .refl s
  rw [if_neg hinc]
  split
  · exact Server.keeps_of_saves rfl (changes_voteReply (k := .none) _ _ _ _ now).saves
  · exact Server.keeps_of_saves rfl (changes_prevoteReply (k := .none) _ _ _ _ now).saves
  · exact Server.keeps_of_saves rfl (changes_appendReply _ _ _ _ _ now).saves
  · exact Server.keeps_of_saves rfl (changes_readHeartbeatReply _ _ _ _ now).saves
  · exact Server.keeps_of_saves rfl (changes_snapshotReply (k := .none) _ _ _ _ _ now).saves
  · exact keeps_endForward s _ _ _
  · exact .refl s

theorem keeps_fail (s : Server σ) (p : Packet) (now : Int) : s.Keeps (s.fail p now).node := by
  unfold Server.fail
  by_cases hinc : p.inc ≠ s.inc
  · rw [if_pos hinc]
    exact .refl s
  rw [if_neg hinc]
  split
  · exact Server.keeps_of_saves rfl (changes_appendReply _ _ _ _ _ now).saves
  · exact Server.keeps_of_saves rfl (changes_snapshotReply (k := .none) _ _ _ _ _ now).saves
  · exact keeps_endForward s _ _ _
  · exact .refl s

theorem keeps_replicate (s : Server σ) (dst : Nat) (now : Int) : s.Keeps (s.replicate dst now).node := by
  have h : Saves s.raft (s.raft.replicate dst now).1 := (changes_replicate (k := .none) _ dst now).saves
  rw [Server.replicate]
  dsimp only
  split <;> exact Server.keeps_of_saves rfl h

theorem keeps_takeSnapshot [DecidableEq σ] (s : Server σ) (index : Int) (data : Bytes) :
    s.Keeps (s.takeSnapshot svc index data) := by
  rw [Server.takeSnapshot]
  split_ifs
  · split <;> exact Server.keeps_of_saves rfl (.refl s.raft)
  · exact .refl s

/-- What every persister keeps, and every copy of a disk, is recorded. -/
structure Known (n : Nat) (G : Ghost) (c : Cluster σ) : Prop where
  saved : ∀ i < n, (c.nodes i).saved.persister.Known G
  live : ∀ i < n, (c.nodes i).raft.killed = false → (c.nodes i).raft.persister.Known G

theorem Known.keeps {d : Cluster σ} (h : Known n G c) (hle : G.Le E G') (hd : Sound n svc E G' d)
    (hk : ∀ i < n, (c.nodes i).Keeps (d.nodes i)) : Known n G' d where
  saved i hi := (hk i hi).saved ▸ (h.saved i hi).mono hle
  live i hi hup := by
    have hup' : (c.nodes i).raft.killed = false := by
      rw [← Bool.not_eq_true]
      intro hdown
      rw [(hk i hi).dead hdown] at hup
      cases hup
    exact (hd.live hi hup).saved_known hle (h.live i hi hup') ((hk i hi).saves hup')

/-- A node is left alone, or goes through `f`. -/
theorem on_nodes {P : Server σ → Prop} {i j : Nat} {f : Server σ → Effect σ} (hstay : P (c.nodes j))
    (hgo : j = i → P (f (c.nodes j)).node) : P ((c.on n i f).nodes j) := by
  rw [Cluster.on]
  split_ifs
  · dsimp only [Cluster.put]
    by_cases hj : j = i
    · subst hj
      rw [Function.update_self]
      exact hgo rfl
    · rw [Function.update_of_ne hj]
      exact hstay
  · exact hstay

theorem keeps_on (c : Cluster σ) {i : Nat} {f : Server σ → Effect σ} (hf : ∀ s, Server.Keeps s (f s).node)
    (j : Nat) : (c.nodes j).Keeps ((c.on n i f).nodes j) := on_nodes (.refl _) fun _ => hf _

variable [DecidableEq σ]

/-- Neither a crash nor a restart. -/
def Event.isStretch : Event → Bool
  | .kill _ | .restart _ _ => false
  | _ => true

theorem keeps_step (h : Sound n svc E G c) {e : Event} (hstatic : e.isStatic = true)
    (he : e.isStretch = true) {j : Nat} (hj : j < n) : (c.nodes j).Keeps ((c.step n svc e).nodes j) := by
  cases e with
  | electionTimeout i now => exact keeps_on c (fun s => keeps_electionTimeout s now) j
  | leaderTick i now =>
    refine keeps_on c (fun s => ?_) j
    exact Server.keeps_of_saves rfl (changes_leaderTick (k := .none) s.raft now).saves
  | runTask i k now =>
    refine on_nodes (.refl _) fun _ => ?_
    split
    · exact .refl _
    · exact keeps_runTask _ (fun hk => (h.live hj hk).ok.sync) _ _ now _
  | deliver k now =>
    dsimp only [Cluster.step]
    split
    · exact .refl _
    · exact keeps_on c (fun s => keeps_deliver s _ now) j
  | answer k now =>
    dsimp only [Cluster.step]
    split
    · exact .refl _
    · exact keeps_on c (fun s => keeps_answer s _ _ now) j
  | fail k now =>
    dsimp only [Cluster.step]
    split
    · exact .refl _
    · exact keeps_on c (fun s => keeps_fail s _ now) j
  | replicate i s now =>
    dsimp only [Cluster.step]
    split_ifs
    · exact .refl _
    · exact keeps_on c (fun t => keeps_replicate t s now) j
  | start i command =>
    refine keeps_on c (fun s => ?_) j
    exact Server.keeps_of_saves rfl (changes_start (k := .none) s.raft command).saves
  | proposeConf i server target => cases hstatic
  | applyLoop i now =>
    refine keeps_on c (fun s => ?_) j
    exact Server.keeps_of_saves rfl (saves_applyLoop s.raft now)
  | consume i =>
    refine keeps_on c (fun s => ?_) j
    obtain ⟨hraft, -, hsaved⟩ := consume_raft svc s
    exact Server.keeps_of_saves hsaved (hraft ▸ .refl s.raft)
  | takeSnapshot i index data => exact keeps_on c (fun s => keeps_takeSnapshot s index data) j
  | kill i => cases he
  | restart i now => cases he
  | read i now =>
    dsimp only [Cluster.step]
    exact keeps_on { c with calls := c.calls ++ [{ node := i, floor := c.maxCommit }] }
      (fun s => keeps_openRead s _ _ now) j
  | setLimits i m b =>
    refine keeps_on c (fun s => ?_) j
    exact Server.keeps_of_saves rfl ⟨id, .inl ⟨rfl, rfl⟩⟩

/-- A crash copies the disk, a restart reads the copy. -/
theorem Known.step (hc : Known n G c) (h : Sound n svc E G c) {e : Event} (hstatic : e.isStatic = true)
    (hcov : Covers n svc E c e) :
    ∃ G', G.Le E G' ∧ Sound n svc E G' (c.step n svc e) ∧ Known n G' (c.step n svc e) := by
  obtain ⟨G', hle, hd⟩ := h.step hstatic hcov
  refine ⟨G', hle, hd, ?_⟩
  -- a node that crashes or comes up brings no new state with it
  have hdisk : ∀ i (f : Server σ → Server σ), (∀ s : Server σ, s.saved.persister.Known G →
      (s.raft.killed = false → s.raft.persister.Known G) → (f s).saved.persister.Known G ∧
        ((f s).raft.killed = false → (f s).raft.persister.Known G)) →
      Known n G' (c.on n i fun s => { node := f s }) := by
    intro i f hf
    have hnode : ∀ j < n, ((c.on n i fun s => { node := f s }).nodes j).saved.persister.Known G ∧
        (((c.on n i fun s => { node := f s }).nodes j).raft.killed = false →
          ((c.on n i fun s => { node := f s }).nodes j).raft.persister.Known G) := fun j hj =>
      on_nodes (P := fun s => s.saved.persister.Known G ∧ (s.raft.killed = false → s.raft.persister.Known G))
        ⟨hc.saved j hj, hc.live j hj⟩ fun _ => hf _ (hc.saved j hj) (hc.live j hj)
    exact ⟨fun j hj => (hnode j hj).1.mono hle, fun j hj hk => ((hnode j hj).2 hk).mono hle⟩
  cases hs : e.isStretch with
  | true => exact hc.keeps hle hd fun j hj => keeps_step h hstatic hs hj
  | false =>
    cases e with
    | kill i =>
      refine hdisk i _ fun s hsaved hlive => ?_
      rw [Server.kill]
      split_ifs with hk
      · exact ⟨hsaved, fun hk' => absurd (hk.symm.trans hk') (by decide)⟩
      · exact ⟨hlive (by simpa using hk), fun hk' => by cases hk'⟩
    | restart i now =>
      refine hdisk i (fun s => s.restart svc n i now) fun s hsaved hlive => ?_
      rw [Server.restart]
      split_ifs
      · refine ⟨hsaved, fun _ => ?_⟩
        dsimp only
        rw [make_persister]
        exact hsaved
      · exact ⟨hsaved, hlive⟩
    | _ => cases hs

omit [DecidableEq σ] in
/-- The copy of a disk that a crashed node comes up from is in memory. -/
theorem Sound.saved_memory {E : Record} (h : Sound n svc E G c) {i : Nat} (hi : i < n)
    (hk : (c.nodes i).raft.killed = true) : (c.nodes i).saved.persister.fileBacked = false := by
  have hok := (h.ok i hi).disk
  rw [Cluster.frames, Server.image, if_pos hk] at hok
  rw [← make_persister n i (c.nodes i).saved 0]
  exact hok

omit [DecidableEq σ] in
theorem known_init (n : Nat) (svc : Service σ) : Known n Ghost.start (Cluster.init n svc) where
  saved i _ st hst := by cases hst
  live i _ _ st hst := by
    rw [show ((Cluster.init n svc).nodes i).raft = Raft.make n i {} 0 from rfl, make_persister] at hst
    cases hst

theorem Known.steps {es : List Event} (hc : Known n G c) (h : Sound n svc E G c)
    (hstatic : ∀ e ∈ es, e.isStatic = true) (hcov : CoversAll n svc E c es) :
    ∃ G', G.Le E G' ∧ Sound n svc E G' (es.foldl (Cluster.step n svc) c) ∧
      Known n G' (es.foldl (Cluster.step n svc) c) := by
  induction es generalizing G c with
  | nil => exact ⟨G, Ghost.Le.refl E G, h, hc⟩
  | cons e es ih =>
    obtain ⟨G₁, hle₁, h₁, hc₁⟩ := hc.step h (hstatic e List.mem_cons_self) hcov.1
    obtain ⟨G₂, hle₂, h₂, hc₂⟩ := ih hc₁ h₁ (fun e' he' => hstatic e' (List.mem_cons_of_mem e he')) hcov.2
    exact ⟨G₂, hle₁.trans hle₂, h₂, hc₂⟩

theorem known_run (svc : Service σ) {evs : List Event} (hstatic : ∀ e ∈ evs, e.isStatic = true) :
    ∃ G, Sound n svc .all G (.run n svc evs) ∧ Known n G (.run n svc evs) := by
  obtain ⟨G, -, h⟩ := (known_init n svc).steps (sound_init n svc .all) hstatic (coversAll_all _ evs)
  exact ⟨G, h⟩

/-- Two states of one run. -/
theorem known_take (svc : Service σ) {evs : List Event} (hstatic : ∀ e ∈ evs, e.isStatic = true) {a b : Nat}
    (hab : a ≤ b) : ∃ G G', G.Le .all G' ∧
      (Sound n svc .all G (.run n svc (evs.take a)) ∧ Known n G (.run n svc (evs.take a))) ∧
      Sound n svc .all G' (.run n svc (evs.take b)) ∧ Known n G' (.run n svc (evs.take b)) := by
  obtain ⟨G, h, hc⟩ := known_run (n := n) svc fun e he => hstatic e (List.mem_of_mem_take (i := a) he)
  have hrest : ∀ e ∈ (evs.take b).drop a, e.isStatic = true :=
    fun e he => hstatic e (List.mem_of_mem_take (List.mem_of_mem_drop he))
  obtain ⟨G', hle, h', hc'⟩ := hc.steps h hrest (coversAll_all _ _)
  rw [← Cluster.run_take svc evs hab] at h' hc'
  exact ⟨G, G', hle, ⟨h, hc⟩, h', hc'⟩

end

/-- The entry is in the log of a node that is up, in a state that a persister or the copy of a disk keeps, or on
its way. The first entry of a log, or of the log of a state, is a sentinel. -/
def Cluster.Bears {σ : Type} (c : Cluster σ) (n : Nat) (e : LogEntry) : Prop :=
  (∃ i < n, (c.nodes i).raft.killed = false ∧ (e ∈ (c.nodes i).raft.logs.tail ∨
    ∃ st, (c.nodes i).raft.persister.raftState = some st ∧ e ∈ st.logs.tail)) ∨
  (∃ i < n, ∃ st, (c.nodes i).saved.persister.raftState = some st ∧ e ∈ st.logs.tail) ∨
  ∃ p ∈ c.packets, ∃ args, (p.rpc = .append args ∨ p.rpc = .readBeat args) ∧ e ∈ args.entries

section
variable {σ : Type} {n : Nat} {svc : Service σ} {E : Record} {G : Ghost} {c : Cluster σ}

theorem Sound.recorded (h : Sound n svc E G c) (hc : Known n G c) {e : LogEntry} (he : c.Bears n e) :
    Recorded G e := by
  rcases he with ⟨i, hi, hk, hlog | ⟨st, hst, hlog⟩⟩ | ⟨i, hi, st, hst, hlog⟩ | ⟨p, hp, args, hrpc, hlog⟩
  · exact (h.live hi hk).recorded hlog
  · exact hc.live i hi hk st hst e hlog
  · exact hc.saved i hi st hst e hlog
  · have hok := h.packets p hp
    unfold PacketOK at hok
    rcases hrpc with hrpc | hrpc
    · rw [hrpc] at hok
      exact hok.recorded h.inv.toDraft hlog
    · rw [hrpc] at hok
      exact hok.recorded h.inv.toDraft hlog

variable [DecidableEq σ]

/-- Index and term name one entry in a whole run, and `Start` never gives out one place of a term twice. -/
theorem entry_identity (n : Nat) (svc : Service σ) {evs : List Event} (hstatic : ∀ e ∈ evs, e.isStatic = true) :
    (∀ a b e e', (Cluster.run n svc (evs.take a)).Bears n e → (Cluster.run n svc (evs.take b)).Bears n e' →
      e.index = e'.index → e.term = e'.term → e = e') ∧
    (Cluster.run n svc evs).started.Pairwise Apart := by
  refine ⟨fun a b e e' he he' hi ht => ?_, ?_⟩
  · rcases le_total a b with hab | hba
    · obtain ⟨G, G', hle, ⟨h, hc⟩, h', hc'⟩ := known_take (n := n) svc hstatic hab
      exact ((h.recorded hc he).mono hle).unique (h'.recorded hc' he') hi ht
    · obtain ⟨G', G, hle, ⟨h', hc'⟩, h, hc⟩ := known_take (n := n) svc hstatic hba
      exact (h.recorded hc he).unique ((h'.recorded hc' he').mono hle) hi ht
  · obtain ⟨G, h, -⟩ := known_run (n := n) svc hstatic
    exact h.apart

end

/-- Node 0 keeps at 2 what it logged as leader of term 1, while node 1 cut its log behind a snapshot below it: the
entry of term 1 that node 1 has at 2 is the same. -/
theorem entry_identity_spliced :
    ((Cluster.run 5 unitService splicedRun).nodes 0).raft.logAt 2 =
      ((Cluster.run 5 unitService splicedRun).nodes 1).raft.logAt 2 := by
  have hstatic : ∀ e ∈ splicedRun, e.isStatic = true := by decide
  refine (entry_identity 5 unitService hstatic).1 43 43 _ _ (.inl ⟨0, by decide, ?_, .inl ?_⟩)
    (.inl ⟨1, by decide, ?_, .inl ?_⟩) ?_ ?_
  all_goals decide +kernel

end ChonKV
