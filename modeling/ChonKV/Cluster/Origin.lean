import ChonKV.Cluster.CommitPeak
import ChonKV.Cluster.History
import ChonKV.Durable.SingleFlight

/-!
Where entries come from: no entry is anywhere in a run that was not the no-op of a new leader or what `Start` appended.
-/

set_option autoImplicit false

namespace ChonKV

open Ballot Ballot.Ledger Raft
open Function (update)

namespace Raft

def noopAt (term index : Int) : LogEntry := { term := term, index := index, type := .kNoOp }

/-- The node takes office between `r` and `r'`, and as it had entries that it did not know to be committed, it appends
the no-op `e` of its term behind them. -/
structure AppendsNoop (r r' : Raft) (e : LogEntry) : Prop where
  before : r.state ≠ .kLeader
  after : r'.state = .kLeader
  behind : r.commitIndex < r.lastLogIndexLocked
  logs : r'.logs = r.logs ++ [e]
  entry : e = noopAt r'.currentTerm (r.lastLogIndexLocked + 1)

/-- The log gains no entries but those in `P`. The first entry of a log is a sentinel. -/
def Gains (P : LogEntry → Prop) (r r' : Raft) : Prop := ∀ e ∈ r'.logs.tail, e ∈ r.logs.tail ∨ P e

variable {P : LogEntry → Prop} {r r' r'' : Raft}

theorem Gains.of_logs (h : r'.logs = r.logs) : Gains P r r' := fun _ he => .inl (h ▸ he)

theorem Gains.refl (r : Raft) : Gains P r r := .of_logs rfl

theorem Gains.trans (h : Gains P r r') (h' : Gains P r' r'') : Gains P r r'' := fun e he =>
  (h' e he).elim (h e) .inr

theorem Gains.persist (h : Gains P r r') : Gains P r r'.persistLocked := h.trans (.of_logs (logs_persistLocked r'))

theorem Still.gains (h : Still r r') : Gains P r r' := .of_logs h.logs

theorem Gains.push (h : Gains P r r') {e : LogEntry} (he : P e) :
    Gains P r { r' with logs := r'.logs ++ [e], logStore := r'.logStore.append e } := fun x hx =>
  (mem_tail_concat hx).elim (h x) fun heq => .inr (heq ▸ he)

/-- A new leader has the log of before, or its no-op behind that. -/
theorem appendNoop_cases (r : Raft) : r.appendNoop.currentTerm = r.currentTerm ∧
    (r.appendNoop.logs = r.logs ∨ r.commitIndex < r.lastLogIndexLocked ∧ r.appendNoop.logs =
      r.logs ++ [noopAt r.currentTerm (r.lastLogIndexLocked + 1)]) := by
  rw [appendNoop]
  dsimp only
  split_ifs with hbehind hext
  · exact ⟨rfl, .inr ⟨hbehind, rfl⟩⟩
  · refine ⟨?_, .inr ⟨hbehind, logs_persistLocked _⟩⟩
    dsimp only
    rw [persistLocked]
    split_ifs <;> rfl
  · exact ⟨rfl, .inl rfl⟩

theorem gains_becomeLeader (r : Raft) (now : Int)
    (hnoop : ∀ e, r.AppendsNoop (r.becomeLeaderIfQuorumLocked now) e → P e) :
    Gains P r (r.becomeLeaderIfQuorumLocked now) := by
  rw [becomeLeaderIfQuorumLocked] at hnoop ⊢
  split_ifs at hnoop ⊢ with hno
  · exact .refl r
  · push Not at hno
    obtain ⟨hterm, hlogs | ⟨hbehind, hlogs⟩⟩ := appendNoop_cases { r with lastQuorumCheck := now }
    · exact .of_logs hlogs
    · intro x hx
      refine (mem_tail_concat (hlogs ▸ hx)).imp_right fun heq => hnoop x ⟨by simp [hno.1], rfl, hbehind, ?_, ?_⟩
      · exact heq ▸ hlogs
      · rw [heq]
        exact congrArg (noopAt · (r.lastLogIndexLocked + 1)) hterm.symm

/-- Where a node stands for a term, it was no leader, and its log is that of before. -/
theorem AppendsNoop.of_stand {r r₁ r' : Raft} {e : LogEntry} (h : r₁.AppendsNoop r' e) (hs : Still r r₁)
    (hstate : r.state ≠ .kLeader) (hcommit : r₁.commitIndex = r.commitIndex) : r.AppendsNoop r' e where
  before := hstate
  after := h.after
  behind := by
    have hbehind := h.behind
    unfold lastLogIndexLocked at hbehind ⊢
    rwa [hcommit, hs.logs] at hbehind
  logs := hs.logs ▸ h.logs
  entry := by
    have hentry := h.entry
    unfold lastLogIndexLocked at hentry ⊢
    rwa [hs.logs] at hentry

theorem follower_of_stood {r : Raft} {now : Int} (h : (r.standForTerm now).2 = true) : r.state = .kFollower := by
  by_contra hstate
  rw [standForTerm] at h
  dsimp only at h
  rw [if_pos (.inr (.inl hstate))] at h
  cases h

theorem gains_startRealElection (r : Raft) (now : Int)
    (hnoop : ∀ e, r.AppendsNoop (r.startRealElection now).1 e → P e) : Gains P r (r.startRealElection now).1 := by
  have hstand : Still r (r.standForTerm now).1 := still_standForTerm r now
  rw [startRealElection] at hnoop ⊢
  dsimp only at hnoop ⊢
  split_ifs at hnoop ⊢ with hstood
  · refine hstand.gains.trans (gains_becomeLeader _ now fun e he => hnoop e (he.of_stand hstand ?_ ?_))
    · simp [follower_of_stood hstood]
    · exact (standForTerm_stood r now hstood).2.2.1
  · exact hstand.gains
  · exact hstand.gains

theorem gains_voteReply (r : Raft) (args : RequestVoteArgs) (i : Nat) (reply : RequestVoteReply) (now : Int)
    (hnoop : ∀ e, r.AppendsNoop (r.voteReply args i reply now) e → P e) : Gains P r (r.voteReply args i reply now) := by
  rw [voteReply] at hnoop ⊢
  split_ifs at hnoop ⊢
  · exact .refl r
  · exact (still_stepDownTo r _ now).gains
  · exact (Gains.of_logs rfl).trans (gains_becomeLeader _ now fun e he => hnoop e ⟨he.1, he.2, he.3, he.4, he.5⟩)
  · exact .refl r

theorem gains_appendEntries (r : Raft) {args : AppendEntriesArgs} (hargs : ∀ e ∈ args.entries, P e) (now : Int) :
    Gains P r (r.appendEntries args now).1 := by
  have hmerge : ∀ r : Raft, Gains P r (r.mergeLocked args) := fun r => by
    have hlogs : ∀ r' : Raft, r'.logs = (args.entries.foldl (mergeEntry r.snapshotIndex) ⟨r.logs, r.logStore, false⟩).logs →
        Gains P r r' := fun r' hr e he => (mem_tail_foldl_mergeEntry (hr ▸ he)).imp_right (hargs e)
    rw [mergeLocked]
    dsimp only
    split_ifs
    · exact Gains.persist (hlogs _ rfl)
    · exact hlogs _ rfl
  have hlocked : ∀ (r : Raft) (reply : AppendEntriesReply), Gains P r (r.appendEntriesLocked args reply).1 := fun r reply => by
    rw [appendEntriesLocked]
    split_ifs
    · exact .refl r
    · exact .refl r
    · exact (hmerge r).trans (still_followCommit _ args).gains
  have hheard : Gains P r (r.heardLeader args now) := .of_logs rfl
  rw [appendEntries]
  dsimp only
  split_ifs
  · exact .refl r
  · exact (hheard.trans (still_convertToFollowerLocked _ _).gains).trans (hlocked _ _)
  · exact hheard.trans (hlocked _ _)

theorem gains_snapshotCommit (r : Raft) (index term : Int) (data : Bytes) :
    Gains P r (r.snapshotCommit index term data).1 := by
  rw [snapshotCommit]
  split_ifs
  · exact .refl r
  · refine Gains.persist fun e he => .inl ?_
    exact mem_tail_cutLogs he

theorem gains_installCommit (r : Raft) (args : InstallSnapshotArgs) (blob : Bytes) :
    Gains P r (r.installCommit args blob).1 := by
  have hlogs : ∀ (r : Raft) (old : Int), Gains P r (r.installLogs args old) := fun r old => by
    refine Gains.persist fun e he => .inl ?_
    exact mem_tail_cutLogs he
  have hbegin : Gains P r (r.installBegin args blob) := .of_logs rfl
  rw [installCommit]
  dsimp only
  split_ifs
  · exact .refl r
  · exact (hbegin.trans (still_convertToFollowerLocked _ _).gains).trans (hlogs _ _)
  · exact hbegin.trans (hlogs _ _)

/-- What `Start` appends if it accepts the command. -/
def startEntry (r : Raft) (command : Command) : LogEntry :=
  { term := r.currentTerm, index := r.lastLogIndexLocked + 1, command := command }

theorem gains_start (r : Raft) (command : Command)
    (hentry : (r.start command).2.1.isLeader = true → P (r.startEntry command)) : Gains P r (r.start command).1 := by
  rw [start] at hentry ⊢
  dsimp only at hentry ⊢
  split_ifs at hentry ⊢
  · exact .refl r
  · exact .refl r
  · exact .refl r
  · have hpush : Gains P r { r with
        logs := r.logs ++ [r.startEntry command], logStore := r.logStore.append (r.startEntry command) } :=
      (Gains.refl r).push (hentry rfl)
    have hlog : Gains P r { r with
        logs := r.logs ++ [r.startEntry command], logStore := r.logStore.append (r.startEntry command) }.persistLog := by
      rw [persistLog]
      split_ifs
      · exact hpush
      · exact hpush.persist
    exact hlog.trans (still_advanceCommitIndexLocked _).gains

/-- What `Start` answers names the entry. -/
theorem start_result (r : Raft) (command : Command) (h : (r.start command).2.1.isLeader = true) :
    (r.startEntry command).index = (r.start command).2.1.index ∧
      (r.startEntry command).term = (r.start command).2.1.term := by
  rw [start] at h ⊢
  dsimp only at h ⊢
  split_ifs at h ⊢
  refine ⟨rfl, ?_⟩
  rw [persistLog]
  dsimp only
  split_ifs
  · rfl
  · rw [persistLocked]
    split_ifs <;> rfl

/-- The log reaches as far as its last index says. -/
def Reaches (r : Raft) : Prop := r.lastLogIndexLocked < r.snapshotIndex + r.logs.length

theorem logAt_mem_tail {i : Int} (hr : r.Reaches) (hsi : r.snapshotIndex < i) (hi : i ≤ r.lastLogIndexLocked) :
    r.logAt i ∈ r.logs.tail := by
  have hlt : (i - r.snapshotIndex).toNat - 1 < r.logs.tail.length := by
    unfold Reaches at hr
    rw [List.length_tail]
    omega
  have hpos : (i - r.snapshotIndex).toNat - 1 + 1 = (i - r.snapshotIndex).toNat := by omega
  have hget : r.logs.tail[(i - r.snapshotIndex).toNat - 1]? = some (r.logAt i) := by
    rw [List.getElem?_tail, hpos, logAt, entryAt, List.getD_eq_getElem?_getD]
    rw [List.length_tail] at hlt
    rw [List.getElem?_eq_getElem (by omega), Option.getD_some]
  exact List.mem_of_getElem? hget

/-- The entries that a node sends. -/
def Send.Holds (P : LogEntry → Prop) : Send → Prop
  | .append args => ∀ e ∈ args.entries, P e
  | _ => True

theorem holds_sendAppend (hr : r.Reaches) (s : Nat) (next : Int) (may removed : Bool) (cap now : Int) :
    (r.sendAppend s next may removed cap now).2.Holds (· ∈ r.logs.tail) := by
  rw [sendAppend]
  cases may with
  | false => exact fun e he => absurd he List.not_mem_nil
  | true =>
    intro e he
    obtain ⟨j, hle, hlt, hsi, rfl⟩ := mem_batchEntries he
    refine logAt_mem_tail hr hsi ?_
    dsimp only [kMaxEntriesPerRpc] at hlt
    split_ifs at hlt <;> omega

theorem holds_sendTo (hr : r.Reaches) (s : Nat) (p : Progress) (now : Int) :
    (r.sendTo s p now).2.Holds (· ∈ r.logs.tail) := by
  have hr' : Reaches { r with lastHeartbeatSeq := r.lastHeartbeatSeq.set s r.heartbeatSeq } := hr
  rw [sendTo]
  dsimp only
  split_ifs
  · trivial
  · exact holds_sendAppend hr' s _ _ _ _ now

theorem holds_replicate (hr : r.killed = false → r.Reaches) (s : Nat) (now : Int) :
    (r.replicate s now).2.Holds fun e => r.killed = false ∧ e ∈ r.logs.tail := by
  rw [replicate]
  dsimp only
  split_ifs with hoff
  · trivial
  · trivial
  · trivial
  · trivial
  · rw [not_or] at hoff
    have hk : r.killed = false := by simpa using hoff.1
    have hstill : Still r (r.freezeRemoved s (r.progress s now)).1 := still_freezeRemoved r s _
    have hr' : (r.freezeRemoved s (r.progress s now)).1.Reaches := by
      have h := hr hk
      unfold Reaches lastLogIndexLocked at h ⊢
      rwa [hstill.index, hstill.logs]
    have h := holds_sendTo hr' s (r.freezeRemoved s (r.progress s now)).2 now
    rw [hstill.logs] at h
    unfold Send.Holds at h ⊢
    split at h
    · exact fun e he => ⟨hk, h e he⟩
    · trivial

end Raft

/-- The entries that a request brings. -/
def Rpc.entries : Rpc → List LogEntry
  | .append args | .readBeat args => args.entries
  | _ => []

section
variable {σ : Type} {n : Nat} {svc : Service σ} {E : Record} {G G' : Ghost} {c : Cluster σ} {i : Nat}
  {P : LogEntry → Prop} {s s' : Server σ}

/-- A stretch of a node: its log gains what is in `P`, and it sends what it had. -/
structure Server.Yields (P : LogEntry → Prop) (s : Server σ) (ef : Effect σ) : Prop where
  logs : Gains P s.raft ef.node.raft
  packets : ∀ p ∈ ef.packets, ∀ e ∈ p.rpc.entries, s.raft.killed = false ∧ e ∈ s.raft.logs.tail

/-- A stretch that sends no entries. -/
theorem Server.Yields.of_raft {ef : Effect σ} (h : Gains P s.raft ef.node.raft)
    (hp : ∀ p ∈ ef.packets, p.rpc.entries = []) : s.Yields P ef where
  logs := h
  packets p hmem _ he := absurd (hp p hmem ▸ he) List.not_mem_nil

theorem Server.Yields.stay (s : Server σ) : s.Yields P { node := s } :=
  .of_raft (.refl s.raft) (List.forall_mem_nil _)

theorem yields_finishRead (h : Gains P s.raft s'.raft) (k : Reader) (result : Int) :
    s.Yields P (s'.finishRead k result) := by
  refine .of_raft ?_ ?_
  · rwa [finishRead_node]
  · simp [finishRead_packets]

theorem yields_electionTimeout (s : Server σ) (now : Int) : s.Yields P (s.electionTimeout now) := by
  have h : Gains P s.raft (s.raft.electionTimeout now).1 := (still_electionTimeout s.raft now).gains
  rw [Server.electionTimeout, Server.finishStart]
  split
  · exact .of_raft h (List.forall_mem_nil _)
  · exact .of_raft h (List.forall_mem_nil _)
  · refine .of_raft h fun p hp => ?_
    obtain ⟨dst, -, rfl⟩ := List.mem_map.mp hp
    rfl

theorem yields_openRead (h : s'.raft = s.raft) (k : Reader) (fresh : Nat) (now : Int) :
    s.Yields P (s'.openRead k fresh now) := by
  have hr : Gains P s.raft (s'.raft.readIndexOpen now).1 := by
    rw [h]
    exact (still_readIndexOpen s.raft now).gains
  rw [Server.openRead]
  dsimp only
  split
  · refine .of_raft hr fun p hp => ?_
    rw [List.mem_singleton.mp hp]
    rfl
  · refine yields_finishRead ?_ k _
    exact hr
  · exact .of_raft hr (List.forall_mem_nil _)

theorem yields_replicate (hr : s.raft.killed = false → s.raft.Reaches) (dst : Nat) (now : Int) :
    s.Yields P (s.replicate dst now) := by
  have h : Gains P s.raft (s.raft.replicate dst now).1 := (still_replicate s.raft dst now).gains
  have hsend := holds_replicate hr dst now
  rw [Server.replicate]
  dsimp only
  split
  · exact .of_raft h (List.forall_mem_nil _)
  · next args hargs =>
    rw [hargs] at hsend
    refine ⟨h, fun p hp => ?_⟩
    rw [List.mem_singleton.mp hp]
    exact hsend
  · refine .of_raft h fun p hp => ?_
    obtain ⟨chunk, -, rfl⟩ := List.mem_map.mp hp
    rfl

theorem readHeartbeat_entries {r : Raft} {ctx t : Nat} {args : AppendEntriesArgs}
    (h : r.readHeartbeat ctx t = .send args) : args.entries = [] := by
  rw [readHeartbeat] at h
  split_ifs at h
  all_goals cases h; rfl

theorem gains_truncateStore {r r' : Raft} (h : Gains P r r') (index : Int) : Gains P r (r'.truncateStore index) := h

/-- One stretch of a thread that released the lock. -/
theorem yields_runTask (ts : List Task) (fresh : Nat) (now : Int) (t : Task)
    (hnoop : ∀ e, s.raft.AppendsNoop ({ s with tasks := ts }.runTask fresh now t).node.raft e → P e) :
    s.Yields P ({ s with tasks := ts }.runTask fresh now t) := by
  have hgo : ∀ {s' : Server σ} {as : List Answer}, Gains P s.raft s'.raft →
      s.Yields P { node := s', answers := as } := fun h => .of_raft h (List.forall_mem_nil _)
  have hsame : ∀ {s' : Server σ} {as : List Answer}, s'.raft = s.raft → s.Yields P { node := s', answers := as } :=
    fun h => hgo (.of_logs (congrArg (fun r : Raft => r.logs) h))
  cases t with
  | startRealElection =>
    rw [Server.runTask] at hnoop ⊢
    exact hgo (gains_startRealElection s.raft now hnoop)
  | sendRequestVotes =>
    rw [Server.runTask]
    split
    · exact hsame rfl
    · refine .of_raft ?_ fun p hp => ?_
      · exact .refl s.raft
      · obtain ⟨dst, -, rfl⟩ := List.mem_map.mp hp
        rfl
  | commitSynced => exact hgo (.of_logs rfl)
  | installBlob p args blob | snapshotBlob index term data =>
    refine hgo (.of_logs ?_)
    dsimp only [saveSnapshotBlob, Server.addTasks]
    split_ifs <;> rfl
  | installCommit p args blob => exact hgo (gains_installCommit s.raft args blob)
  | snapshotCommit index term data =>
    have h := gains_snapshotCommit (P := P) s.raft index term data
    dsimp only [Server.runTask]
    split_ifs
    · exact hgo (gains_truncateStore h index)
    · exact hgo h
  | readOpen k =>
    refine yields_openRead ?_ k fresh now
    rfl
  | readBroadcast k ctx term readIndex t =>
    rw [Server.runTask]
    by_cases ht : t < s.raft.peers
    · rw [if_pos ht]
      split
      · exact hsame rfl
      · exact hsame rfl
      · next args hb =>
        refine .of_raft (.refl s.raft) fun p hp => ?_
        dsimp only at hp
        split_ifs at hp
        · cases hp
        · rw [List.mem_singleton.mp hp]
          exact readHeartbeat_entries hb
    · rw [if_neg ht]
      exact hsame rfl
  | readWait k ctx term readIndex deadline =>
    have h : Gains P s.raft (s.raft.readIndexPoll ctx term readIndex deadline now).1 :=
      (still_readIndexPoll s.raft ctx term readIndex deadline now).gains
    rw [Server.runTask]
    dsimp only
    split
    · exact hgo h
    · refine yields_finishRead ?_ k _
      exact h
  | readForwarded k token => exact hsame rfl

theorem yields_deliver {p : Packet} (hp : ∀ e ∈ p.rpc.entries, P e) (now : Int) : s.Yields P (s.deliver p now) := by
  have hgo : ∀ {s' : Server σ} {as : List Answer}, Gains P s.raft s'.raft →
      s.Yields P { node := s', answers := as } := fun h => .of_raft h (List.forall_mem_nil _)
  rw [Server.deliver]
  split
  · exact hgo (still_requestVote s.raft _ now).gains
  · exact hgo (.refl s.raft)
  · next args hrpc =>
    rw [hrpc] at hp
    exact hgo (gains_appendEntries s.raft hp now)
  · next args hrpc =>
    rw [hrpc] at hp
    exact hgo (gains_appendEntries s.raft hp now)
  · next args hrpc =>
    have h : Gains P s.raft (s.raft.installSnapshot args now).1 := by
      rw [installSnapshot]
      dsimp only
      split_ifs
      · exact .refl s.raft
      · exact ((still_convertToFollowerLocked s.raft _).trans (still_installReceive _ args _ now)).gains
      · exact (still_installReceive s.raft args _ now).gains
    dsimp only
    split <;> exact hgo h
  · dsimp only
    split_ifs <;> exact hgo (.refl s.raft)

theorem yields_endForward (s : Server σ) (token : Nat) (ok : Bool) (reply : ReadIndexReply) :
    s.Yields P (s.endForward token ok reply) := by
  rw [Server.endForward]
  split
  · exact .stay s
  · refine yields_finishRead ?_ _ _
    exact .refl s.raft

theorem yields_answer (s : Server σ) (p : Packet) (reply : RpcReply) (now : Int)
    (hnoop : ∀ e, s.raft.AppendsNoop (s.answer p reply now).node.raft e → P e) : s.Yields P (s.answer p reply now) := by
  have hgo : ∀ {s' : Server σ}, Gains P s.raft s'.raft → s.Yields P { node := s' } :=
    fun h => .of_raft h (List.forall_mem_nil _)
  unfold Server.answer at hnoop ⊢
  by_cases hinc : p.inc ≠ s.inc
  · rw [if_pos hinc]
    exact .stay s
  rw [if_neg hinc] at hnoop ⊢
  split at hnoop
  · exact hgo (gains_voteReply s.raft _ _ _ now hnoop)
  · exact hgo (still_prevoteReply s.raft _ _ _ now).gains
  · exact hgo (still_appendReply s.raft _ _ _ _ now).gains
  · exact hgo (still_readHeartbeatReply s.raft _ _ _ now).gains
  · exact hgo (still_snapshotReply s.raft _ _ _ _ now).gains
  · exact yields_endForward s _ _ _
  · exact .stay s

theorem yields_fail (s : Server σ) (p : Packet) (now : Int) : s.Yields P (s.fail p now) := by
  have hgo : ∀ {s' : Server σ}, Gains P s.raft s'.raft → s.Yields P { node := s' } :=
    fun h => .of_raft h (List.forall_mem_nil _)
  unfold Server.fail
  by_cases hinc : p.inc ≠ s.inc
  · rw [if_pos hinc]
    exact .stay s
  rw [if_neg hinc]
  split
  · exact hgo (still_appendReply s.raft _ _ _ _ now).gains
  · exact hgo (still_snapshotReply s.raft _ _ _ _ now).gains
  · exact yields_endForward s _ _ _
  · exact .stay s

variable [DecidableEq σ]

/-- A node takes office in an event, and `e` is its no-op. -/
def Cluster.Elects (n : Nat) (svc : Service σ) (c : Cluster σ) (ev : Event) (e : LogEntry) : Prop :=
  ∃ i < n, (c.nodes i).raft.AppendsNoop ((c.step n svc ev).nodes i).raft e

/-- What `Start` is about to append at node `i`, if that is the event and it will. -/
def Cluster.Starts (c : Cluster σ) (ev : Event) (e : LogEntry) : Prop :=
  ∃ i command, ev = .start i command ∧ ((c.nodes i).raft.start command).2.1.isLeader = true ∧
    e = (c.nodes i).raft.startEntry command

omit [DecidableEq σ] in
theorem Sound.reaches (h : Sound n svc E G c) (hi : i < n) (hk : (c.nodes i).raft.killed = false) :
    (c.nodes i).raft.Reaches := by
  have hsh := (h.live hi hk).node.shows
  have hlast : (c.nodes i).raft.lastLogIndexLocked = (G.L.log i).length := hsh.lastIndexOf_eq
  have hindex : (c.nodes i).raft.snapshotIndex = G.L.base i := hsh.index
  have hlogs := congrArg List.length hsh.logs
  have hbase := hsh.le
  rw [Reaches, hlast, hindex, show (c.nodes i).raft.logs.length = _ from hlogs, List.length_cons, List.length_drop]
  omega

/-- Every turn but a crash or a restart. -/
theorem yields_turn (h : Sound n svc E G c) {ev : Event} (hstatic : ev.isStatic = true) (hev : ev.isStretch = true)
    (hi : i < n) {ef : Effect σ} (ht : Cluster.Turn n svc c ev i ef)
    (hnoop : ∀ e, (c.nodes i).raft.AppendsNoop ef.node.raft e → P e) (hpackets : ∀ p ∈ c.packets, ∀ e ∈ p.rpc.entries, P e) (hstart : ∀ e, c.Starts ev e → P e) :
    (c.nodes i).Yields P ef := by
  have hgo : ∀ {s' : Server σ} {ds : List LogEntry} {is : List ApplyMsg} {st : List StartResult},
      Gains P (c.nodes i).raft s'.raft →
      (c.nodes i).Yields P { node := s', dispatched := ds, installed := is, started := st } :=
    fun hg => .of_raft hg (List.forall_mem_nil _)
  cases ht with
  | electionTimeout i now => exact yields_electionTimeout _ now
  | leaderTick i now => exact hgo (still_leaderTick _ now).gains
  | runTask i k now t ht => exact yields_runTask _ _ now t hnoop
  | noTask i k now => exact .stay _
  | deliver k now p hp => exact yields_deliver (hpackets p (List.mem_of_getElem? hp)) now
  | answer k now a ha => exact yields_answer _ _ _ now hnoop
  | fail k now p hp => exact yields_fail _ _ now
  | replicate i s now hs => exact yields_replicate (h.reaches hi) s now
  | start i command => exact hgo (gains_start _ command fun hl => hstart _ ⟨i, command, rfl, hl, rfl⟩)
  | proposeConf i server target => cases hstatic
  | applyLoop i now =>
    have hpart := seatPart_applyLoop (c.nodes i).raft now
    simp only [seatPart, Prod.mk.injEq] at hpart
    exact hgo (.of_logs hpart.2.2.2.2.2.2)
  | consume i =>
    obtain ⟨hraft, -, -⟩ := consume_raft svc (c.nodes i)
    exact hgo (.of_logs (congrArg (fun r : Raft => r.logs) hraft))
  | takeSnapshot i index data =>
    refine hgo ?_
    rw [Server.takeSnapshot]
    split_ifs
    · split <;> exact .refl _
    · exact .refl _
  | kill i => cases hev
  | restart i now => cases hev
  | read i now => exact yields_openRead rfl _ _ now
  | setLimits i m b => exact hgo (.of_logs rfl)

omit [DecidableEq σ] in
/-- A node comes up with what its disk has. -/
theorem mem_make_tail {d : Disk} {now : Int} (hd : d.persister.fileBacked = false) {e : LogEntry}
    (he : e ∈ (Raft.make n i d now).logs.tail) :
    ∃ st, d.persister.raftState = some st ∧ e ∈ st.logs.tail := by
  unfold Raft.make Raft.readPersist at he
  cases hst : d.persister.raftState with
  | none =>
    rw [hst] at he
    cases he
  | some st =>
    rw [hst] at he
    have hlogs : ((blank n i d now).restoreState st).logs = st.logs := by
      simp [restoreState, blank, hd, LogStorage.keepsLogExternally]
    refine ⟨st, rfl, ?_⟩
    rw [← hlogs]
    dsimp only at he
    split at he
    · simp only [restoreRest, adoptBlob] at he
      split_ifs at he
      · exact mem_tail_cutLogs he
      · exact mem_tail_cutLogs he
      · exact he
      · exact he
    · exact he

omit [DecidableEq σ] in
/-- What a node that is up saves is what it has, or what was saved before. -/
theorem At.saved_tail {K : Nat → Core} {r r' : Raft} (h : At n svc E G K i r'.frame) (hs : Saves r r')
    {st : RaftState} (hst : r'.persister.raftState = some st) :
    r.persister.raftState = some st ∨ st.logs = r'.logs := by
  rcases hs.state with ⟨hsame, -⟩ | ⟨st', hst', hx⟩
  · exact .inl (hsame.symm.trans hst)
  · obtain rfl : st' = st := Option.some.inj (hst'.symm.trans hst)
    have hsaved := h.ok.saved
    rw [show r'.frame.persister.raftState = some st' from hst', Option.getD_some] at hsaved
    rcases hsaved.logs with ⟨-, -, hlogs⟩ | ⟨-, hlt, -⟩
    · exact .inr hlogs
    · have hx' : st'.snapshotIndex = r'.frame.snapshotIndex := hx
      omega

omit [DecidableEq σ] in
theorem mem_entries {rpc : Rpc} {e : LogEntry} :
    e ∈ rpc.entries ↔ ∃ args, (rpc = .append args ∨ rpc = .readBeat args) ∧ e ∈ args.entries := by
  cases rpc <;> simp [Rpc.entries]

omit [DecidableEq σ] in
/-- What one node does to the entries that there are. -/
theorem bears_put {b : Cluster σ} {ef : Effect σ} {e : LogEntry} (hnodes : b.nodes = c.nodes)
    (hpackets : b.packets = c.packets) (he : (b.put i ef).Bears n e) : c.Bears n e ∨
      (i < n ∧ ef.node.raft.killed = false ∧ (e ∈ ef.node.raft.logs.tail ∨
        ∃ st, ef.node.raft.persister.raftState = some st ∧ e ∈ st.logs.tail)) ∨
      (i < n ∧ ∃ st, ef.node.saved.persister.raftState = some st ∧ e ∈ st.logs.tail) ∨
      ∃ p ∈ ef.packets, e ∈ p.rpc.entries := by
  have hother : ∀ j, j ≠ i → (b.put i ef).nodes j = c.nodes j := fun j hj => by
    rw [← hnodes]
    exact Function.update_of_ne hj _ _
  have hself : (b.put i ef).nodes i = ef.node := Function.update_self _ _ _
  rcases he with ⟨j, hj, hlive⟩ | ⟨j, hj, hsaved⟩ | ⟨p, hp, hargs⟩
  · by_cases hji : j = i
    · subst hji
      rw [hself] at hlive
      exact .inr (.inl ⟨hj, hlive⟩)
    · rw [hother j hji] at hlive
      exact .inl (.inl ⟨j, hj, hlive⟩)
  · by_cases hji : j = i
    · subst hji
      rw [hself] at hsaved
      exact .inr (.inr (.inl ⟨hj, hsaved⟩))
    · rw [hother j hji] at hsaved
      exact .inl (.inr (.inl ⟨j, hj, hsaved⟩))
  · rcases List.mem_append.mp hp with hp | hp
    · exact .inl (.inr (.inr ⟨p, hpackets ▸ hp, hargs⟩))
    · exact .inr (.inr (.inr ⟨p, hp, mem_entries.mpr hargs⟩))

/-- No entry comes out of nothing: what is anywhere after an event was somewhere before, or it is the no-op of a new
leader, or what `Start` appended. -/
theorem bears_step (h : Sound n svc E G c) {ev : Event} (hstatic : ev.isStatic = true)
    (hd : Sound n svc E G' (c.step n svc ev)) {e : LogEntry} (he : (c.step n svc ev).Bears n e) :
    c.Bears n e ∨ c.Elects n svc ev e ∨ c.Starts ev e := by
  rcases Cluster.step_cases n svc c ev with heq | ⟨i, hi, ef, ht, heq⟩
  · rw [heq] at he
    simp only [Cluster.Bears, Cluster.called_nodes, Cluster.called_packets] at he
    exact .inl he
  cases hs : ev.isStretch with
  | true =>
    have hkeep := keeps_step h hstatic hs hi
    have hself : ((c.called ev).put i ef).nodes i = ef.node := Function.update_self _ _ _
    have hyields := yields_turn (P := fun e => c.Bears n e ∨ c.Elects n svc ev e ∨ c.Starts ev e) h hstatic hs hi ht
      (fun _ hnoop => .inr (.inl ⟨i, hi, by rwa [heq, hself]⟩)) (fun p hp e he => .inl (.inr (.inr ⟨p, hp, mem_entries.mp he⟩)))
      fun _ hst => .inr (.inr hst)
    rw [heq] at he hd hkeep
    rw [hself] at hkeep
    have hup : ef.node.raft.killed = false → (c.nodes i).raft.killed = false := fun hk => by
      rw [← Bool.not_eq_true]
      intro hdown
      rw [hkeep.dead hdown] at hk
      cases hk
    have hlogs : ef.node.raft.killed = false → e ∈ ef.node.raft.logs.tail →
        c.Bears n e ∨ c.Elects n svc ev e ∨ c.Starts ev e := fun hk hlog =>
      (hyields.logs e hlog).elim (fun hold => .inl (.inl ⟨i, hi, hup hk, .inl hold⟩)) id
    rcases bears_put (c.called_nodes ev) (c.called_packets ev) he with
      hold | ⟨-, hk, hlog | ⟨st, hst, hlog⟩⟩ | ⟨-, hsaved⟩ | ⟨p, hp, hent⟩
    · exact .inl hold
    · exact hlogs hk hlog
    · have hat := hd.live hi (by rw [hself, hk])
      rw [hself] at hat
      rcases hat.saved_tail (hkeep.saves (hup hk)) hst with hold | hsame
      · exact .inl (.inl ⟨i, hi, hup hk, .inr ⟨st, hold, hlog⟩⟩)
      · exact hlogs hk (hsame ▸ hlog)
    · rw [hkeep.saved] at hsaved
      exact .inl (.inr (.inl ⟨i, hi, hsaved⟩))
    · obtain ⟨hk, hlog⟩ := hyields.packets p hp e hent
      exact .inl (.inl ⟨i, hi, hk, .inl hlog⟩)
  | false =>
    refine .inl ?_
    rw [heq] at he
    cases ht with
    | kill i =>
      cases hk : (c.nodes i).raft.killed with
      | true =>
        rcases bears_put (c.called_nodes _) (c.called_packets _) he with hold | ⟨-, hup, -⟩ | ⟨-, hsaved⟩ | ⟨p, hp, -⟩
        · exact hold
        · rw [Server.kill, if_pos hk, hk] at hup
          cases hup
        · rw [Server.kill, if_pos hk] at hsaved
          exact .inr (.inl ⟨i, hi, hsaved⟩)
        · cases hp
      | false =>
        have hkill : (c.nodes i).kill = { c.nodes i with
            raft := { (c.nodes i).raft with killed := true }, saved := (c.nodes i).kill.saved } ∧
            (c.nodes i).kill.saved.persister = (c.nodes i).raft.persister := by
          rw [Server.kill, hk]
          exact ⟨rfl, rfl⟩
        rcases bears_put (c.called_nodes _) (c.called_packets _) he with hold | ⟨-, hup, -⟩ | ⟨-, hsaved⟩ | ⟨p, hp, -⟩
        · exact hold
        · rw [hkill.1] at hup
          cases hup
        · rw [hkill.2] at hsaved
          exact .inl ⟨i, hi, hk, .inr hsaved⟩
        · cases hp
    | restart i now =>
      cases hk : (c.nodes i).raft.killed with
      | false =>
        have hsame : (c.nodes i).restart svc n i now = c.nodes i := by
          rw [Server.restart, if_pos (by simp [hk])]
        rcases bears_put (c.called_nodes _) (c.called_packets _) he with hold | ⟨-, hlive⟩ | ⟨-, hsaved⟩ | ⟨p, hp, -⟩
        · exact hold
        · rw [hsame] at hlive
          exact .inl ⟨i, hi, hlive⟩
        · rw [hsame] at hsaved
          exact .inr (.inl ⟨i, hi, hsaved⟩)
        · cases hp
      | true =>
        have hboot : ((c.nodes i).restart svc n i now).raft = Raft.make n i (c.nodes i).saved now ∧
            ((c.nodes i).restart svc n i now).saved = (c.nodes i).saved := by
          rw [Server.restart, if_neg (by simp [hk])]
          exact ⟨rfl, rfl⟩
        have hdisk := h.saved_memory hi hk
        rcases bears_put (c.called_nodes _) (c.called_packets _) he with
          hold | ⟨-, -, hlog | ⟨st, hst, hlog⟩⟩ | ⟨-, hsaved⟩ | ⟨p, hp, -⟩
        · exact hold
        · rw [hboot.1] at hlog
          exact .inr (.inl ⟨i, hi, mem_make_tail hdisk hlog⟩)
        · rw [hboot.1, make_persister] at hst
          exact .inr (.inl ⟨i, hi, st, hst, hlog⟩)
        · rw [hboot.2] at hsaved
          exact .inr (.inl ⟨i, hi, hsaved⟩)
        · cases hp
    | _ => cases hs

omit [DecidableEq σ] in
/-- A cluster that starts has no entries. -/
theorem not_bears_init {e : LogEntry} : ¬ (Cluster.init n svc).Bears n e := by
  have hraft : ∀ i, ((Cluster.init n svc).nodes i).raft = Raft.make n i {} 0 := fun _ => rfl
  rintro (⟨i, -, -, hlog | ⟨st, hst, -⟩⟩ | ⟨i, -, st, hst, -⟩ | ⟨p, hp, -⟩)
  · rw [hraft] at hlog
    obtain ⟨st, hst, -⟩ := mem_make_tail rfl hlog
    cases hst
  · rw [hraft, make_persister] at hst
    cases hst
  · cases hst
  · cases hp

/-- What a call of `Start` in a run appended. -/
def Proposed (n : Nat) (svc : Service σ) (evs : List Event) (b : Nat) (e : LogEntry) : Prop :=
  ∃ a < b, ∃ i command, evs[a]? = some (.start i command) ∧
    let result := (((Cluster.run n svc (evs.take a)).nodes i).raft.start command).2.1
    result.isLeader = true ∧ e = { term := result.term, index := result.index, command := command }

/-- What a node appended in a run when it took office. -/
def Elected (n : Nat) (svc : Service σ) (evs : List Event) (b : Nat) (e : LogEntry) : Prop :=
  ∃ a < b, ∃ i < n, ((Cluster.run n svc (evs.take a)).nodes i).raft.AppendsNoop
    ((Cluster.run n svc (evs.take (a+1))).nodes i).raft e

/-- No entry comes out of nothing. Whatever log, disk or message has an entry at some time of a run, before that time
a node took office and appended it as the no-op of its term, or a call of `Start` appended it, at the index and in the
term that it answered. -/
theorem entries_proposed (n : Nat) (svc : Service σ) {evs : List Event} (hstatic : ∀ e ∈ evs, e.isStatic = true) {b : Nat}
    {e : LogEntry} (he : (Cluster.run n svc (evs.take b)).Bears n e) : Elected n svc evs b e ∨ Proposed n svc evs b e := by
  induction b with
  | zero => exact absurd he not_bears_init
  | succ b ih =>
    have hmono : Elected n svc evs b e ∨ Proposed n svc evs b e →
        Elected n svc evs (b+1) e ∨ Proposed n svc evs (b+1) e := by
      rintro (⟨a, ha, h⟩ | ⟨a, ha, h⟩)
      · exact .inl ⟨a, ha.trans (Nat.lt_succ_self b), h⟩
      · exact .inr ⟨a, ha.trans (Nat.lt_succ_self b), h⟩
    cases hev : evs[b]? with
    | none =>
      have htake : evs.take (b+1) = evs.take b := by rw [List.take_add_one, hev, Option.toList_none, List.append_nil]
      exact hmono (ih (htake ▸ he))
    | some ev =>
      have hrun : Cluster.run n svc (evs.take (b+1)) = (Cluster.run n svc (evs.take b)).step n svc ev := by
        rw [List.take_add_one, hev, Option.toList_some, Cluster.run_append]
        rfl
      obtain ⟨G, G', -, h, h'⟩ := sound_take (n := n) svc .all hstatic coversAll_all (Nat.le_succ b)
      rw [hrun] at h' he
      rcases bears_step h (hstatic ev (List.mem_of_getElem? hev)) h' he with hold | ⟨i, hi, hnoop⟩ | ⟨i, command, rfl, hl, rfl⟩
      · exact hmono (ih hold)
      · exact .inl ⟨b, Nat.lt_succ_self b, i, hi, by rwa [hrun]⟩
      · obtain ⟨hindex, hterm⟩ := start_result _ command hl
        refine .inr ⟨b, Nat.lt_succ_self b, i, command, hev, hl, ?_⟩
        rw [← hindex, ← hterm]
        rfl

end

/-- When node 1 takes over, the entry that it has was proposed to node 0, and the one behind it is its own no-op. -/
theorem entries_proposed_takeover :
    Proposed 3 unitService takeoverRun 19 ((nodeAfter 3 unitService takeoverRun 19 1).logAt 1) ∧
      Elected 3 unitService takeoverRun 19 ((nodeAfter 3 unitService takeoverRun 19 1).logAt 2) := by
  have hstatic : ∀ e ∈ takeoverRun, e.isStatic = true := by decide
  have hborne : ∀ x ∈ [(1 : Int), 2], (Cluster.run 3 unitService (takeoverRun.take 19)).Bears 3
      ((nodeAfter 3 unitService takeoverRun 19 1).logAt x) := fun x hx => by
    refine .inl ⟨1, by decide, by decide +kernel, .inl ?_⟩
    revert x
    decide +kernel
  constructor
  · refine (entries_proposed 3 unitService hstatic (hborne 1 (by decide))).resolve_left ?_
    rintro ⟨a, -, i, -, h⟩
    have htype : ((nodeAfter 3 unitService takeoverRun 19 1).logAt 1).type = .kNoOp := congrArg LogEntry.type h.entry
    exact absurd htype (by decide +kernel)
  · refine (entries_proposed 3 unitService hstatic (hborne 2 (by decide))).resolve_right ?_
    rintro ⟨a, -, i, command, -, -, h⟩
    have htype : ((nodeAfter 3 unitService takeoverRun 19 1).logAt 2).type = .kNormal := congrArg LogEntry.type h
    exact absurd htype (by decide +kernel)

end ChonKV
