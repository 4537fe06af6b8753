import ChonKV.Cluster.CommitPeak
import ChonKV.Cluster.Rounds

/-!
What the readers of a run are owed: a result is at least the highest commit index that there was when the call
began. A call that was forwarded is owed what there was when it was forwarded, and a round gives its readers what
there was when it was opened.
-/

set_option autoImplicit false

namespace ChonKV

open Ballot Raft
open Function (update)

/-- The rounds of a run by node, incarnation and number, and what the calls and the forwarded calls are owed. -/
structure Readers where
  opening : Nat → Nat → Nat → Option Opening
  call : Nat → Int
  token : Nat → Int

/-- What is owed to whoever waits. -/
def Reader.floor (R : Readers) : Reader → Int
  | .client call => R.call call
  | .server p _ => match p.rpc with
    | .readIndex _ token => R.token token
    | _ => 0

/-- There is such a call, or such a forwarded one. -/
def Reader.Known (N P : Nat) : Reader → Prop
  | .client call => call < N
  | .server p _ => ∃ args token, p.rpc = .readIndex args token ∧ token < P

/-- A thread that serves a read gives what it is owed; that of a node that is down gives nothing. -/
def TaskReads (R : Readers) (N P : Nat) (o : Nat → Option Opening) (killed : Bool) : Task → Prop
  | .readOpen k => k.Known N P
  | .readBroadcast k ctx _ readIndex _ => k.Known N P ∧
    (killed = false → ∃ op, o ctx = some op ∧ k.floor R ≤ op.floor ∧ op.commit = readIndex)
  | .readWait k ctx _ readIndex _ => k.Known N P ∧ (killed = false → k.floor R ≤ readIndex ∨
      ∃ op, o ctx = some op ∧ k.floor R ≤ op.floor ∧ op.commit = readIndex)
  | .readForwarded k token => k.Known N P ∧ token < P ∧ k.floor R ≤ R.token token
  | _ => True

/-- What names a round names one that was opened. -/
def PacketReads (R : Readers) (P : Nat) (p : Packet) : Prop :=
  match p.rpc with
  | .append args | .readBeat args => args.readCtx ≠ 0 → ∃ op, R.opening p.src p.inc args.readCtx = some op
  | .readIndex _ token => token < P
  | _ => True

/-- Who answers for a round was not beyond the term of the answer when the round was opened. -/
structure AnswerReads (R : Readers) (P : Nat) (a : Answer) : Prop where
  ack : ∀ reply, a.reply = .append reply → reply.readCtx ≠ 0 →
    ∃ op, R.opening a.packet.src a.packet.inc reply.readCtx = some op ∧ op.terms a.packet.dst ≤ reply.term
  read : ∀ args token reply, a.packet.rpc = .readIndex args token → a.reply = .readIndex reply →
    token < P ∧ (0 ≤ reply.readIndex → R.token token ≤ reply.readIndex)

section
variable {σ : Type}

/-- The rounds and the readers of node `i`. -/
structure Attends (R : Readers) (N P i : Nat) (s : Server σ) : Prop where
  rounds : s.raft.killed = false → Timely (R.opening i s.inc) s.raft
  tasks : ∀ t ∈ s.tasks, TaskReads R N P (R.opening i s.inc) s.raft.killed t

/-- What a stretch of node `i` leaves behind. -/
structure Serves (R : Readers) (N P i : Nat) (e : Effect σ) : Prop extends Attends R N P i e.node where
  packets : ∀ p ∈ e.packets, PacketReads R P p := by exact fun _ h => absurd h List.not_mem_nil
  answers : e.node.raft.killed = false → ∀ a ∈ e.answers, AnswerReads R P a := by
    exact fun _ _ h => absurd h List.not_mem_nil
  finished : ∀ f ∈ e.finished, f.1 < N ∧ (0 ≤ f.2 → R.call f.1 ≤ f.2) := by
    exact fun _ h => absurd h List.not_mem_nil

/-- Later readers: nothing that was owed is forgotten. -/
structure Readers.Le (R : Readers) (N P : Nat) (R' : Readers) : Prop where
  opening : ∀ i inc ctx op, R.opening i inc ctx = some op → R'.opening i inc ctx = some op
  call : ∀ k < N, R'.call k = R.call k
  token : ∀ k < P, R'.token k = R.token k

variable {R R' : Readers} {N N' P P' i : Nat} {s s' : Server σ} {k : Reader}

theorem Readers.Le.refl (R : Readers) (N P : Nat) : R.Le N P R := ⟨fun _ _ _ _ h => h, fun _ _ => rfl, fun _ _ => rfl⟩

theorem Reader.Known.mono (h : k.Known N P) (hN : N ≤ N') (hP : P ≤ P') : k.Known N' P' := by
  cases k with
  | client call => exact lt_of_lt_of_le h hN
  | server p term =>
    obtain ⟨args, token, hrpc, hlt⟩ := h
    exact ⟨args, token, hrpc, hlt.trans_le hP⟩

theorem Reader.Known.floor (h : k.Known N P) (hR : R.Le N P R') : k.floor R' = k.floor R := by
  cases k with
  | client call => exact hR.call call h
  | server p term =>
    obtain ⟨args, token, hrpc, hlt⟩ := h
    simp only [Reader.floor, hrpc]
    exact hR.token token hlt

theorem TaskReads.mono {o o' : Nat → Option Opening} {killed : Bool} {t : Task} (h : TaskReads R N P o killed t)
    (hR : R.Le N P R') (hN : N ≤ N') (hP : P ≤ P') (ho : ∀ ctx op, o ctx = some op → o' ctx = some op) :
    TaskReads R' N' P' o' killed t := by
  cases t with
  | readOpen k => exact Reader.Known.mono h hN hP
  | readBroadcast k ctx term readIndex t =>
    obtain ⟨hk, hop⟩ := h
    refine ⟨hk.mono hN hP, fun halive => ?_⟩
    obtain ⟨op, hctx, hfloor, hcommit⟩ := hop halive
    exact ⟨op, ho ctx op hctx, (hk.floor hR).trans_le hfloor, hcommit⟩
  | readWait k ctx term readIndex deadline =>
    obtain ⟨hk, hop⟩ := h
    refine ⟨hk.mono hN hP, fun halive => ?_⟩
    rw [hk.floor hR]
    rcases hop halive with hle | ⟨op, hctx, hop⟩
    · exact .inl hle
    · exact .inr ⟨op, ho ctx op hctx, hop⟩
  | readForwarded k token =>
    obtain ⟨hk, hlt, hle⟩ := h
    refine ⟨hk.mono hN hP, hlt.trans_le hP, ?_⟩
    rw [hk.floor hR, hR.token token hlt]
    exact hle
  | _ => trivial

theorem PacketReads.mono {p : Packet} (h : PacketReads R P p) (hR : R.Le N P R') (hP : P ≤ P') :
    PacketReads R' P' p := by
  unfold PacketReads at h ⊢
  split at h
  · exact fun hctx => (h hctx).imp fun op ho => hR.opening _ _ _ op ho
  · exact fun hctx => (h hctx).imp fun op ho => hR.opening _ _ _ op ho
  · exact lt_of_lt_of_le h hP
  · trivial

theorem AnswerReads.mono {a : Answer} (h : AnswerReads R P a) (hR : R.Le N P R') (hP : P ≤ P') :
    AnswerReads R' P' a where
  ack reply hreply hctx := by
    obtain ⟨op, ho, hle⟩ := h.ack reply hreply hctx
    exact ⟨op, hR.opening _ _ _ op ho, hle⟩
  read args token reply hrpc hreply := by
    obtain ⟨hlt, hle⟩ := h.read args token reply hrpc hreply
    rw [hR.token token hlt]
    exact ⟨hlt.trans_le hP, hle⟩

/-- A node that opens no round. -/
theorem Attends.mono (h : Attends R N P i s) (hR : R.Le N P R') (hN : N ≤ N') (hP : P ≤ P')
    (ho : R'.opening i s.inc = R.opening i s.inc) : Attends R' N' P' i s where
  rounds hk := by
    rw [ho]
    exact h.rounds hk
  tasks t ht := (h.tasks t ht).mono hR hN hP fun _ _ hctx => ho ▸ hctx

/-- Threads that have to do with reads. -/
def Task.ofRead : Task → Bool
  | .readOpen _ | .readBroadcast .. | .readWait .. | .readForwarded .. => true
  | _ => false

def Rpc.ofRead : Rpc → Bool
  | .append _ | .readBeat _ | .readIndex .. => true
  | _ => false

def RpcReply.ofRead : RpcReply → Bool
  | .append _ | .readIndex _ => true
  | _ => false

/-- A stretch that has to do with no read. -/
structure Server.Abstains (s : Server σ) (e : Effect σ) : Prop where
  inc : e.node.inc = s.inc
  raft : Rests s.raft e.node.raft
  tasks : ∀ t ∈ e.node.tasks, t ∈ s.tasks ∨ t.ofRead = false
  packets : ∀ p ∈ e.packets, p.rpc.ofRead = false := by exact fun _ h => absurd h List.not_mem_nil
  answers : ∀ a ∈ e.answers, a.reply.ofRead = false := by exact fun _ h => absurd h List.not_mem_nil
  finished : e.finished = [] := by rfl

theorem TaskReads.of_none {o : Nat → Option Opening} {killed : Bool} {t : Task} (h : t.ofRead = false) :
    TaskReads R N P o killed t := by
  cases t with
  | readOpen | readBroadcast | readWait | readForwarded => cases h
  | _ => trivial

theorem PacketReads.of_none {p : Packet} (h : p.rpc.ofRead = false) : PacketReads R P p := by
  unfold PacketReads
  split
  all_goals first | trivial | (rename_i hrpc; rw [hrpc] at h; cases h)

theorem AnswerReads.of_none {a : Answer} (h : a.reply.ofRead = false) : AnswerReads R P a where
  ack reply hreply := by
    rw [hreply] at h
    cases h
  read args token reply _ hreply := by
    rw [hreply] at h
    cases h

theorem Server.Abstains.serves {e : Effect σ} (h : s.Abstains e) (hs : Attends R N P i s)
    (hk : e.node.raft.killed = s.raft.killed) : Serves R N P i e where
  rounds halive := by
    rw [h.inc]
    exact (hs.rounds (hk ▸ halive)).rests h.raft
  tasks t ht := by
    rw [h.inc, hk]
    rcases h.tasks t ht with ht | ht
    · exact hs.tasks t ht
    · exact .of_none ht
  packets p hp := .of_none (h.packets p hp)
  answers _ a ha := .of_none (h.answers a ha)
  finished f hf := by
    rw [h.finished] at hf
    cases hf

theorem added_or {s s' : Server σ} {ts : List Task} (hs : ∀ t ∈ s'.tasks, t ∈ s.tasks)
    (hts : ∀ t ∈ ts, t.ofRead = false) (t : Task) (ht : t ∈ (s'.addTasks ts).tasks) :
    t ∈ s.tasks ∨ t.ofRead = false := (mem_addTasks ht).imp (hs t) (hts t)

theorem Server.Abstains.stay (s : Server σ) : s.Abstains { node := s } := ⟨rfl, .refl _, fun _ ht => .inl ht, by simp, by simp, rfl⟩

/-- A stretch of a handler that only changes the object and starts no thread. -/
theorem Server.Abstains.of_raft (s : Server σ) {r' : Raft} (h : Rests s.raft r') {as : List Answer}
    (has : ∀ a ∈ as, a.reply.ofRead = false) {ds : List LogEntry} {is : List ApplyMsg} {st : List StartResult}
    {ch : List ApplyMsg} : s.Abstains ⟨{ s with raft := r', applyCh := ch }, [], as, ds, is, st, []⟩ :=
  ⟨rfl, h, fun _ ht => .inl ht, by simp, has, rfl⟩

theorem abstains_electionTimeout (s : Server σ) (now : Int) : s.Abstains (s.electionTimeout now) := by
  have h : Rests s.raft (s.raft.electionTimeout now).1 := (changes_electionTimeout s.raft now).quiet
  rw [Server.electionTimeout, Server.finishStart]
  split
  · exact ⟨rfl, h, fun _ ht => .inl ht, by simp, by simp, rfl⟩
  · exact ⟨rfl, h, added_or (fun _ ht => ht) (by simp [Task.ofRead]), by simp, by simp, rfl⟩
  · refine ⟨rfl, h, fun _ ht => .inl ht, fun p hp => ?_, by simp, rfl⟩
    obtain ⟨dst, -, rfl⟩ := List.mem_map.mp hp
    rfl

/-- A thread that has to do with no read takes the lock again. -/
theorem abstains_runTask (s : Server σ) (k fresh : Nat) (now : Int) {t : Task} (ht : t.ofRead = false) :
    s.Abstains ({ s with tasks := s.tasks.eraseIdx k }.runTask fresh now t) := by
  have herase : ∀ t ∈ s.tasks.eraseIdx k, t ∈ s.tasks := fun _ ht => List.mem_of_mem_eraseIdx ht
  have hkeep : ∀ t ∈ s.tasks.eraseIdx k, t ∈ s.tasks ∨ t.ofRead = false := fun t ht => .inl (herase t ht)
  cases t with
  | startRealElection =>
    have h : Rests s.raft (s.raft.startRealElection now).1 := rests_startRealElection s.raft now
    rw [Server.runTask]
    dsimp only
    split_ifs
    · exact ⟨rfl, h, added_or herase (by simp [Task.ofRead]), by simp, by simp, rfl⟩
    · exact ⟨rfl, h, added_or herase (by simp), by simp, by simp, rfl⟩
  | sendRequestVotes =>
    rw [Server.runTask]
    split
    · exact ⟨rfl, .refl _, hkeep, by simp, by simp, rfl⟩
    · refine ⟨rfl, .refl _, hkeep, fun p hp => ?_, by simp, rfl⟩
      obtain ⟨dst, -, rfl⟩ := List.mem_map.mp hp
      rfl
  | commitSynced =>
    refine ⟨rfl, rests_of_part ?_, hkeep, by simp [Server.runTask], by simp [Server.runTask], rfl⟩
    rfl
  | installBlob p args blob =>
    refine ⟨rfl, rests_saveSnapshotBlob s.raft _ _ _, added_or herase ?_, by simp [Server.runTask],
      by simp [Server.runTask], rfl⟩
    simp [Task.ofRead]
  | installCommit p args blob =>
    refine ⟨rfl, rests_installCommit s.raft args blob, hkeep, by simp [Server.runTask], ?_, rfl⟩
    simp [Server.runTask, RpcReply.ofRead]
  | snapshotBlob index term data =>
    refine ⟨rfl, rests_saveSnapshotBlob s.raft _ _ _, added_or herase ?_, by simp [Server.runTask],
      by simp [Server.runTask], rfl⟩
    simp [Task.ofRead]
  | snapshotCommit index term data =>
    have h : Rests s.raft (s.raft.snapshotCommit index term data).1 :=
      rests_of_part (readPart_snapshotCommit s.raft index term data)
    refine ⟨rfl, ?_, hkeep, by simp [Server.runTask], by simp [Server.runTask], rfl⟩
    dsimp only [Server.runTask]
    split_ifs
    · refine h.trans (rests_of_part ?_)
      rfl
    · exact h
  | readOpen | readBroadcast | readWait | readForwarded => cases ht

/-- A request that is about no read. -/
theorem abstains_deliver (s : Server σ) {p : Packet} (hp : p.rpc.ofRead = false) (now : Int) :
    s.Abstains (s.deliver p now) := by
  rw [Server.deliver]
  split
  · exact .of_raft s (changes_requestVote s.raft _ now).quiet (by simp [RpcReply.ofRead])
  · exact .of_raft s (.refl _) (by simp [RpcReply.ofRead])
  · next hrpc => rw [hrpc] at hp; cases hp
  · next hrpc => rw [hrpc] at hp; cases hp
  · next args hrpc =>
    have h : Rests s.raft (s.raft.installSnapshot args now).1 := rests_installSnapshot s.raft args now
    dsimp only
    split
    · exact .of_raft s h (by simp [RpcReply.ofRead])
    · exact ⟨rfl, h, added_or (fun _ ht => ht) (by simp [Task.ofRead]), by simp, by simp, rfl⟩
  · next hrpc => rw [hrpc] at hp; cases hp

theorem abstains_answer (s : Server σ) {p : Packet} (hp : p.rpc.ofRead = false) (reply : RpcReply) (now : Int) :
    s.Abstains (s.answer p reply now) := by
  unfold Server.answer
  by_cases hinc : p.inc ≠ s.inc
  · rw [if_pos hinc]
    exact .stay s
  rw [if_neg hinc]
  split
  · exact .of_raft s (changes_voteReply s.raft _ _ _ now).quiet (by simp)
  · refine ⟨rfl, (changes_prevoteReply s.raft _ _ _ now).quiet, added_or (fun _ ht => ht) fun t ht => ?_, by simp,
      by simp, rfl⟩
    rw [mem_electionTask ht]
    rfl
  · next hrpc => rw [hrpc] at hp; cases hp
  · next hrpc => rw [hrpc] at hp; cases hp
  · exact .of_raft s (changes_snapshotReply s.raft _ _ _ _ now).quiet (by simp)
  · next hrpc => rw [hrpc] at hp; cases hp
  · exact .stay s

theorem abstains_fail (s : Server σ) {p : Packet} (hp : ∀ args token, p.rpc ≠ .readIndex args token) (now : Int) :
    s.Abstains (s.fail p now) := by
  unfold Server.fail
  by_cases hinc : p.inc ≠ s.inc
  · rw [if_pos hinc]
    exact .stay s
  rw [if_neg hinc]
  split
  · next args _ =>
    refine .of_raft s ?_ (by simp)
    have h : (s.raft.appendReply args p.dst false {} now).1 = s.raft ∨
        (s.raft.appendReply args p.dst false {} now).1 = s.raft.noteReached p.dst false := by
      rw [appendReply]
      cases s.raft.killed <;> simp
    rcases h with h | h
    · rw [h]
      exact .refl _
    · rw [h]
      exact (changes_noteReached s.raft _ _).quiet
  · exact .of_raft s (changes_snapshotReply s.raft _ _ _ _ now).quiet (by simp)
  · next hrpc => exact absurd hrpc (hp _ _)
  · exact .stay s

theorem abstains_start (s : Server σ) (command : Command) : s.Abstains (s.start command) := by
  refine ⟨rfl, (changes_start s.raft command).quiet, added_or (fun _ ht => ht) fun t ht => ?_, by simp [Server.start],
    by simp [Server.start], rfl⟩
  rw [mem_syncTask ht]
  rfl

theorem abstains_applyLoop (s : Server σ) (now : Int) : s.Abstains (s.applyLoop now) :=
  .of_raft s (rests_applyLoop s.raft now) (by simp)

theorem abstains_takeSnapshot [DecidableEq σ] (svc : Service σ) (s : Server σ) (index : Int) (data : Bytes) :
    s.Abstains { node := s.takeSnapshot svc index data } := by
  rw [Server.takeSnapshot]
  split_ifs
  · cases s.raft.snapshotCheck index with
    | none => exact .stay s
    | some term => exact ⟨rfl, .refl _, added_or (fun _ ht => ht) (by simp [Task.ofRead]), by simp, by simp, rfl⟩
  · exact .stay s

theorem Attends.addTasks (h : Attends R N P i s) (ts : List Task)
    (hts : ∀ t ∈ ts, TaskReads R N P (R.opening i s.inc) s.raft.killed t) : Attends R N P i (s.addTasks ts) where
  rounds := h.rounds
  tasks t ht := (mem_addTasks ht).elim (h.tasks t) (hts t)

/-- A thread has gone. -/
theorem Attends.erase (h : Attends R N P i s) {ts : List Task} (hts : ∀ t ∈ ts, t ∈ s.tasks) :
    Attends R N P i { s with tasks := ts } := ⟨h.rounds, fun t ht => h.tasks t (hts t ht)⟩

/-- The object changes, and its rounds are still in order. -/
theorem Attends.change (h : Attends R N P i s) {r' : Raft} (hk : r'.killed = s.raft.killed)
    (hr : s.raft.killed = false → Timely (R.opening i s.inc) r') : Attends R N P i { s with raft := r' } where
  rounds halive := hr (hk ▸ halive)
  tasks t ht := by
    show TaskReads R N P _ r'.killed t
    rw [hk]
    exact h.tasks t ht

theorem inc_finishRead (s : Server σ) (k : Reader) (result : Int) : (s.finishRead k result).node.inc = s.inc := by
  rw [finishRead_node]

theorem inc_openRead (s : Server σ) (k : Reader) (fresh : Nat) (now : Int) :
    (s.openRead k fresh now).node.inc = s.inc := by
  rw [Server.openRead]
  dsimp only
  split
  · rfl
  · exact inc_finishRead _ k _
  · rfl

theorem inc_runTask (s : Server σ) {t : Task} (ht : t.ofRead = true) (fresh : Nat) (now : Int) :
    (s.runTask fresh now t).node.inc = s.inc := by
  cases t with
  | readOpen k => exact inc_openRead s k fresh now
  | readBroadcast k ctx term readIndex t =>
    rw [Server.runTask]
    by_cases hlt : t < s.raft.peers
    · rw [if_pos hlt]
      split <;> rfl
    · rw [if_neg hlt]
      rfl
  | readWait k ctx term readIndex deadline =>
    rw [Server.runTask]
    dsimp only
    split
    · rfl
    · exact inc_finishRead _ k _
  | readForwarded k token => rfl
  | _ => cases ht

theorem inc_deliver (s : Server σ) (p : Packet) (now : Int) : (s.deliver p now).node.inc = s.inc := by
  rw [Server.deliver]
  dsimp only
  split
  all_goals try rfl
  · split <;> rfl
  · split_ifs <;> rfl

theorem inc_endForward (s : Server σ) (token : Nat) (ok : Bool) (reply : ReadIndexReply) :
    (s.endForward token ok reply).node.inc = s.inc := by
  rw [Server.endForward]
  split
  · rfl
  · exact inc_finishRead _ _ _

theorem inc_answer (s : Server σ) (p : Packet) (reply : RpcReply) (now : Int) :
    (s.answer p reply now).node.inc = s.inc := by
  unfold Server.answer
  split_ifs
  · rfl
  · split
    all_goals try rfl
    exact inc_endForward s _ _ _

theorem replicate_node (s : Server σ) (dst : Nat) (now : Int) :
    (s.replicate dst now).node = { s with raft := (s.raft.replicate dst now).1 } := by
  rw [Server.replicate]
  dsimp only
  split <;> rfl

/-- Whoever waits gets what it is owed. -/
theorem Attends.finishRead (h : Attends R N P i s) (hk : k.Known N P) {result : Int}
    (hresult : 0 ≤ result → k.floor R ≤ result) : Serves R N P i (s.finishRead k result) := by
  cases k with
  | client call =>
    refine ⟨h, ?_, ?_, fun f hf => ?_⟩
    · exact fun p hp => absurd hp List.not_mem_nil
    · exact fun _ a ha => absurd ha List.not_mem_nil
    · rw [List.mem_singleton.mp hf]
      exact ⟨hk, hresult⟩
  | server p term =>
    refine ⟨h, ?_, fun _ a ha => ?_, ?_⟩
    · exact fun p hp => absurd hp List.not_mem_nil
    · rw [List.mem_singleton.mp ha]
      refine ⟨fun reply hreply => ?_, fun args token reply hrpc hreply => ?_⟩
      · cases hreply
      obtain ⟨args', token', hrpc', hlt⟩ := hk
      rw [hrpc'] at hrpc
      cases hrpc
      cases hreply
      refine ⟨hlt, fun hpos => ?_⟩
      simp only [Reader.floor, hrpc'] at hresult
      split_ifs at hpos ⊢ with hr
      · exact hresult hr
      · exact absurd hpos (by simp)
    · exact fun f hf => absurd hf List.not_mem_nil

/-- A thread of `BroadcastReadHeartbeat` or of the wait takes the lock again, or one that waits for another node. -/
theorem serves_runTask (hs : Attends R N P i s) (hme : s.raft.killed = false → s.raft.me = i) {t : Task}
    (ht : t ∈ s.tasks) (hopen : ∀ k, t ≠ .readOpen k) (hread : t.ofRead = true) (j fresh : Nat) (now : Int) :
    Serves R N P i ({ s with tasks := s.tasks.eraseIdx j }.runTask fresh now t) := by
  have hrest : Attends R N P i { s with tasks := s.tasks.eraseIdx j } :=
    hs.erase fun _ ht => List.mem_of_mem_eraseIdx ht
  have htask := hs.tasks t ht
  cases t with
  | readOpen k => exact absurd rfl (hopen k)
  | readBroadcast k ctx term readIndex t =>
    obtain ⟨hk, hop⟩ := htask
    have hmore : Attends R N P i ({ s with tasks := s.tasks.eraseIdx j }.addTasks
        [.readBroadcast k ctx term readIndex (t+1)]) := hrest.addTasks _ (by simpa using ⟨hk, hop⟩)
    have hwait : Attends R N P i ({ s with tasks := s.tasks.eraseIdx j }.addTasks
        [.readWait k ctx term readIndex (now + kElectionTimeoutMin)]) :=
      hrest.addTasks _ (by simpa using ⟨hk, fun halive => .inr (hop halive)⟩)
    rw [Server.runTask]
    by_cases ht : t < s.raft.peers
    · rw [if_pos ht]
      split
      · exact { hwait with }
      · exact { hmore with }
      · next args hb =>
        refine { hmore with packets := fun p hp => ?_ }
        dsimp only at hp
        split_ifs at hp with hdead
        · cases hp
        · have halive : s.raft.killed = false := by simpa using hdead
          obtain ⟨op, hctx, -⟩ := hop halive
          rw [List.mem_singleton.mp hp]
          have hargs : args.readCtx = ctx := by
            rw [readHeartbeat] at hb
            split_ifs at hb
            all_goals cases hb; rfl
          exact fun _ => ⟨op, by rw [hargs, ← hctx, ← hme halive]; rfl⟩
    · rw [if_neg ht]
      exact { hwait with }
  | readWait k ctx term readIndex deadline =>
    obtain ⟨hk, hop⟩ := htask
    have hpoll : Rests s.raft (s.raft.readIndexPoll ctx term readIndex deadline now).1 :=
      (spares_readIndexPoll s.raft ctx term readIndex deadline now).rests
    have hkilled : (s.raft.readIndexPoll ctx term readIndex deadline now).1.killed = s.raft.killed := by
      rw [readIndexPoll]
      dsimp only [readIndexLeave]
      split_ifs <;> rfl
    have hnext : Attends R N P i { s with
        raft := (s.raft.readIndexPoll ctx term readIndex deadline now).1, tasks := s.tasks.eraseIdx j } :=
      hrest.change hkilled fun halive => (hs.rounds halive).rests hpoll
    rw [Server.runTask]
    dsimp only
    split
    · refine { hnext.addTasks [.readWait k ctx term readIndex deadline] ?_ with }
      simpa [hkilled] using ⟨hk, hop⟩
    · next x hx =>
      refine hnext.finishRead hk fun hpos => ?_
      obtain ⟨rfl, halive, hdone⟩ := readIndexPoll_result hx hpos
      rcases hop halive with hle | ⟨op, hctx, hle, hcommit⟩
      · exact hle
      · exact hle.trans (((hs.rounds halive).done ctx op hctx hdone).trans hcommit.le)
  | readForwarded k token =>
    rw [Server.runTask]
    refine { hrest.addTasks [.readForwarded k token] ?_ with }
    simpa using htask
  | _ => cases hread

/-- A heartbeat or a batch names the active round. -/
theorem replicate_readCtx {r : Raft} {dst : Nat} {now : Int} {args : AppendEntriesArgs}
    (h : (r.replicate dst now).2 = .append args) (hctx : args.readCtx ≠ 0) : r.activeRead = some args.readCtx := by
  have hfreeze : ∀ p, (r.freezeRemoved dst p).1.joinableRound = r.joinableRound := by
    intro p
    rw [freezeRemoved]
    dsimp only
    split_ifs <;> rfl
  have hsend : ∀ (r' : Raft) p, (r'.sendTo dst p now).2 = .append args → args.readCtx = r'.joinableRound.getD 0 := by
    intro r' p he
    rw [sendTo] at he
    dsimp only at he
    split_ifs at he
    · rw [sendSnapshot] at he
      cases he
    · rw [sendAppend] at he
      split_ifs at he
      all_goals cases he; rfl
  have hjoin : args.readCtx = r.joinableRound.getD 0 := by
    rw [replicate] at h
    dsimp only at h
    split_ifs at h
    rw [hsend _ _ h, hfreeze]
  cases hj : r.joinableRound with
  | none =>
    rw [hj] at hjoin
    exact absurd hjoin hctx
  | some ctx =>
    rw [hj] at hjoin
    rw [show args.readCtx = ctx from hjoin]
    exact (Option.filter_eq_some_iff.mp hj).1

theorem serves_replicate (hs : Attends R N P i s) (dst : Nat) (now : Int)
    (hme : s.raft.killed = false → (s.raft.replicate dst now).1.me = i)
    (hk : (s.raft.replicate dst now).1.killed = s.raft.killed) : Serves R N P i (s.replicate dst now) := by
  have hnext : Attends R N P i { s with raft := (s.raft.replicate dst now).1 } :=
    hs.change hk fun halive => (hs.rounds halive).rests (changes_replicate s.raft dst now).quiet
  have hdead : s.raft.killed = true → (s.raft.replicate dst now).2 = .none := fun hdead => by
    rw [Raft.replicate, if_pos (.inl hdead)]
  rw [Server.replicate]
  dsimp only
  split
  · exact { hnext with }
  · next args hsend =>
    refine { hnext with packets := fun p hp => ?_ }
    rw [List.mem_singleton.mp hp]
    have halive : s.raft.killed = false := by
      by_contra hne
      rw [hdead (by simpa using hne)] at hsend
      cases hsend
    have hopened := (hs.rounds halive).active args.readCtx
    rw [← hme halive] at hopened
    exact fun hctx => hopened (replicate_readCtx hsend hctx)
  · next chunks hsend =>
    refine { hnext with packets := fun p hp => ?_ }
    obtain ⟨chunk, -, rfl⟩ := List.mem_map.mp hp
    trivial

/-- An answer to `AppendEntries` names the round of the request, in a term that is not below that of the node. -/
theorem appendEntries_reply (r : Raft) (args : AppendEntriesArgs) (now : Int) :
    (r.appendEntries args now).2.readCtx = args.readCtx ∧ r.currentTerm ≤ (r.appendEntries args now).2.term := by
  have hlocked : ∀ (r' : Raft) (reply : AppendEntriesReply),
      (r'.appendEntriesLocked args reply).2.readCtx = reply.readCtx ∧
        (r'.appendEntriesLocked args reply).2.term = reply.term := by
    intro r' reply
    rw [appendEntriesLocked]
    dsimp only
    split_ifs <;> exact ⟨rfl, rfl⟩
  have hturn : ∀ r' : Raft, (r'.convertToFollowerLocked args.term).currentTerm = args.term :=
    fun r' => congrArg Core.currentTerm (core_persistLocked _)
  rw [appendEntries]
  dsimp only
  split_ifs with hno
  · exact ⟨rfl, le_rfl⟩
  · rw [not_or, not_lt] at hno
    rw [(hlocked _ _).1, (hlocked _ _).2]
    exact ⟨rfl, hno.2.trans (hturn _).ge⟩
  · rw [(hlocked _ _).1, (hlocked _ _).2]
    exact ⟨rfl, le_rfl⟩

/-- A request that names a round, or forwards a read. -/
theorem serves_deliver (hs : Attends R N P i s) {p : Packet} (hp : PacketReads R P p) (hdst : p.dst = i)
    (hterm : s.raft.killed = false → ∀ j inc ctx op, R.opening j inc ctx = some op → op.terms i ≤ s.raft.currentTerm)
    (hread : p.rpc.ofRead = true) (now : Int) (hk : (s.deliver p now).node.raft.killed = s.raft.killed) :
    Serves R N P i (s.deliver p now) := by
  have happend : ∀ args, (args.readCtx ≠ 0 → ∃ op, R.opening p.src p.inc args.readCtx = some op) →
      (s.raft.appendEntries args now).1.killed = s.raft.killed → Serves R N P i {
        node := { s with raft := (s.raft.appendEntries args now).1 }
        answers := [⟨p, .append (s.raft.appendEntries args now).2⟩] } := by
    intro args hopened hk
    have hnext : Attends R N P i { s with raft := (s.raft.appendEntries args now).1 } :=
      hs.change hk fun halive => (hs.rounds halive).rests (rests_appendEntries s.raft args now)
    refine { hnext with answers := fun halive a ha => ?_ }
    obtain ⟨hctx, hle⟩ := appendEntries_reply s.raft args now
    rw [List.mem_singleton.mp ha]
    refine ⟨fun reply hreply hne => ?_, fun _ _ _ _ hreply => ?_⟩
    · cases hreply
      rw [hctx] at hne ⊢
      obtain ⟨op, ho⟩ := hopened hne
      refine ⟨op, ho, ?_⟩
      rw [hdst]
      exact (hterm (hk ▸ halive) _ _ _ op ho).trans hle
    · cases hreply
  unfold PacketReads at hp
  unfold Server.deliver at hk ⊢
  split at hk
  · next hrpc => rw [hrpc] at hread; cases hread
  · next hrpc => rw [hrpc] at hread; cases hread
  · next args hrpc =>
    rw [hrpc] at hp
    exact happend args hp hk
  · next args hrpc =>
    rw [hrpc] at hp
    exact happend args hp hk
  · next hrpc => rw [hrpc] at hread; cases hread
  · next args token hrpc =>
    rw [hrpc] at hp
    dsimp only
    split_ifs
    · refine { hs.addTasks [.readOpen (.server p _)] ?_ with }
      simpa using ⟨args, token, hrpc, hp⟩
    · refine { hs with answers := fun _ a ha => ?_ }
      rw [List.mem_singleton.mp ha]
      refine ⟨fun _ hreply => ?_, fun args' token' reply hrpc' hreply => ?_⟩
      · cases hreply
      · rw [hrpc] at hrpc'
        cases hrpc'
        cases hreply
        exact ⟨hp, fun hpos => absurd hpos (by simp [readIndexRPC])⟩

/-- A forwarded call comes back. -/
theorem serves_endForward (hs : Attends R N P i s) (token : Nat) (ok : Bool) (reply : ReadIndexReply)
    (hreply : ok = true → 0 ≤ reply.readIndex → R.token token ≤ reply.readIndex) :
    Serves R N P i (s.endForward token ok reply) := by
  unfold Server.endForward
  cases hk : s.awaiting token with
  | none => exact { hs with }
  | some k =>
    obtain ⟨hknown, -, hle⟩ := hs.tasks _ (awaiting_mem hk)
    refine (hs.erase fun _ ht => List.mem_of_mem_erase ht).finishRead hknown fun hpos => ?_
    unfold readIndexForwarded at hpos ⊢
    split_ifs at hpos ⊢ with hok
    · exact hle.trans (hreply hok.1 hok.2.1)
    · exact absurd hpos (by decide)

/-- The callback of a request that named a round, or forwarded a read. -/
theorem serves_answer {n : Nat} (hs : Attends R N P i s) {p : Packet} {reply : RpcReply}
    (ha : AnswerReads R P ⟨p, reply⟩) (hsrc : p.src = i)
    (hfair : ∀ ctx op, R.opening i s.inc ctx = some op → op.Fair n)
    (hv : s.raft.killed = false → ∀ t, s.raft.voter t = decide (t < n))
    (hm : s.raft.killed = false → s.raft.memberCountLocked = n) (hread : p.rpc.ofRead = true) (now : Int)
    (hk : (s.answer p reply now).node.raft.killed = s.raft.killed) : Serves R N P i (s.answer p reply now) := by
  have hnotes : ∀ {reply' : AppendEntriesReply} {r' : Raft}, reply = .append reply' → p.inc = s.inc →
      Notes reply'.readCtx p.dst reply'.term s.raft r' → s.raft.killed = false →
        Timely (R.opening i s.inc) r' := by
    intro reply' r' heq hinc hn halive
    refine (hs.rounds halive).notes hn hfair (hv halive) (hm halive) fun hctx => ?_
    rw [← hsrc, ← hinc]
    exact ha.ack reply' heq hctx
  unfold Server.answer at hk ⊢
  by_cases hinc : p.inc ≠ s.inc
  · rw [if_pos hinc]
    exact { hs with }
  rw [if_neg hinc] at hk ⊢
  rw [not_not] at hinc
  split at hk
  · next hrpc => rw [hrpc] at hread; cases hread
  · next hrpc => rw [hrpc] at hread; cases hread
  · next args reply' hrpc =>
    have hnext := hs.change hk (hnotes rfl hinc (notes_appendReply s.raft args p.dst true reply' now))
    refine { hnext.addTasks _ fun t ht => ?_ with }
    rw [mem_syncTask ht]
    trivial
  · next args reply' hrpc =>
    exact { hs.change hk (hnotes rfl hinc (notes_readHeartbeatReply s.raft args p.dst reply' now)) with }
  · next hrpc => rw [hrpc] at hread; cases hread
  · next args token reply' hrpc =>
    exact serves_endForward hs token true reply' fun _ => (ha.read args token reply' hrpc rfl).2
  · exact { hs with }

theorem serves_fail (hs : Attends R N P i s) {p : Packet} {args : ReadIndexArgs} {token : Nat}
    (hrpc : p.rpc = .readIndex args token) (now : Int) : Serves R N P i (s.fail p now) := by
  unfold Server.fail
  rw [hrpc]
  dsimp only
  split_ifs
  · exact { hs with }
  · exact serves_endForward hs token false {} fun h => absurd h (by decide)

/-- What a stretch of node `i` adds: a round that it opened, or a call that it forwarded. -/
structure Readers.Next (R : Readers) (n P i inc : Nat) (M : Int) (terms : Nat → Int) (R' : Readers) : Prop where
  opening : ∀ j inc' ctx op, R.opening j inc' ctx = some op → R'.opening j inc' ctx = some op
  opened : ∀ j inc' ctx op, R'.opening j inc' ctx = some op → R.opening j inc' ctx = some op ∨
    (j = i ∧ inc' = inc ∧ op.Fair n ∧ op.terms = terms)
  call : R'.call = R.call
  token : ∀ k < P, R'.token k = R.token k
  bound : ∀ k, R'.token k ≤ max (R.token k) M

variable {n inc : Nat} {M : Int} {terms : Nat → Int}

theorem Readers.Next.refl (R : Readers) (n P i inc : Nat) (M : Int) (terms : Nat → Int) :
    R.Next n P i inc M terms R :=
  ⟨fun _ _ _ _ h => h, fun _ _ _ _ h => .inl h, rfl, fun _ _ => rfl, fun _ => le_max_left _ _⟩

theorem Readers.Next.le (h : R.Next n P i inc M terms R') : R.Le N P R' :=
  ⟨h.opening, fun _ _ => by rw [h.call], h.token⟩

def Readers.forward (R : Readers) (P : Nat) (M : Int) : Readers := { R with token := update R.token P M }

theorem next_forward (R : Readers) (n P i inc : Nat) (M : Int) (terms : Nat → Int) :
    R.Next n P i inc M terms (R.forward P M) := by
  refine ⟨fun _ _ _ _ h => h, fun _ _ _ _ h => .inl h, rfl, fun k hk => Function.update_of_ne hk.ne _ _, fun k => ?_⟩
  by_cases hk : k = P
  · dsimp only [Readers.forward]
    rw [hk, Function.update_self]
    exact le_max_right _ _
  · dsimp only [Readers.forward]
    rw [Function.update_of_ne hk]
    exact le_max_left _ _

def Readers.open (R : Readers) (i inc ctx : Nat) (op : Opening) : Readers :=
  { R with opening := update R.opening i (update (R.opening i) inc (update (R.opening i inc) ctx (some op))) }

@[simp] theorem open_opening_self (R : Readers) (i inc ctx : Nat) (op : Opening) :
    (R.open i inc ctx op).opening i inc = update (R.opening i inc) ctx (some op) := by
  simp [Readers.open]

theorem open_opening (R : Readers) (i inc ctx : Nat) (op : Opening) (j inc' c : Nat) :
    (R.open i inc ctx op).opening j inc' c = R.opening j inc' c ∨ j = i ∧ inc' = inc ∧ c = ctx := by
  by_cases hj : j = i
  swap
  · simp [Readers.open, Function.update_of_ne hj]
  by_cases hinc : inc' = inc
  swap
  · simp [Readers.open, hj, Function.update_of_ne hinc]
  by_cases hc : c = ctx
  · exact .inr ⟨hj, hinc, hc⟩
  · subst hj hinc
    simp [Function.update_of_ne hc]

theorem next_open {ctx : Nat} {op : Opening} (P : Nat) (M : Int) (hnew : R.opening i inc ctx = none)
    (hfair : op.Fair n) (hterms : op.terms = terms) : R.Next n P i inc M terms (R.open i inc ctx op) := by
  refine ⟨fun j inc' c o ho => ?_, fun j inc' c o ho => ?_, rfl, fun _ _ => rfl, fun _ => le_max_left _ _⟩
  · rcases open_opening R i inc ctx op j inc' c with heq | ⟨rfl, rfl, rfl⟩
    · exact heq.trans ho
    · rw [hnew] at ho
      cases ho
  · rcases open_opening R i inc ctx op j inc' c with heq | ⟨rfl, rfl, rfl⟩
    · exact .inl (heq.symm.trans ho)
    · rw [open_opening_self, Function.update_self] at ho
      cases ho
      exact .inr ⟨rfl, rfl, hfair, hterms⟩

theorem Reader.Known.floor_le (h : k.Known N P) (hcall : ∀ k, R.call k ≤ M) (htoken : ∀ k, R.token k ≤ M) :
    k.floor R ≤ M := by
  cases k with
  | client call => exact hcall call
  | server p term =>
    obtain ⟨args, token, hrpc, -⟩ := h
    simp only [Reader.floor, hrpc]
    exact htoken token

theorem readIndexOpen_killed (r : Raft) (now : Int) : (r.readIndexOpen now).1.killed = r.killed := by
  rw [readIndexOpen]
  split_ifs
  all_goals try rfl
  split <;> rfl

/-- A call of `ReadIndex` begins: whoever joins a round finds a commit index that is not below `M`. -/
theorem serves_openRead (hs : Attends R N P i s) (hk : k.Known N P) (hfloor : k.floor R ≤ M) (now : Int)
    (hjoin : ∀ ctx term readIndex, (s.raft.readIndexOpen now).2 = .wait ctx term readIndex false → M ≤ readIndex)
    (hme : s.raft.killed = false → terms s.raft.me ≤ s.raft.currentTerm)
    (hfair : s.raft.killed = false → s.raft.state = .kLeader → s.raft.readSafeCommit ≤ s.raft.commitIndex →
      Opening.Fair n ⟨s.raft.currentTerm, terms, M, s.raft.commitIndex⟩) :
    ∃ R', R.Next n P i s.inc M terms R' ∧
      Serves R' N (P + (s.openRead k P now).packets.length) i (s.openRead k P now) := by
  rcases readIndexOpen_result s.raft now with ⟨⟨lid, ho⟩, hr⟩ | ⟨ho, hr⟩ | ⟨ctx, term, ho, hr⟩ | ⟨hl, hsafe, hr, ho⟩
  · -- the call is forwarded
    have hnext : R.Next n P i s.inc M terms (R.forward P M) := next_forward R n P i s.inc M terms
    have hs' : Attends (R.forward P M) N (P+1) i s := hs.mono hnext.le le_rfl (Nat.le_succ P) rfl
    have htoken : (R.forward P M).token P = M := Function.update_self _ _ _
    have heq : s.raft.readIndexOpen now = (s.raft, .forward lid _) := Prod.ext hr ho
    refine ⟨R.forward P M, hnext, ?_⟩
    rw [Server.openRead, heq]
    refine { hs'.addTasks [.readForwarded k P] ?_ with packets := ?_ }
    · intro t ht
      rw [List.mem_singleton.mp ht]
      refine ⟨hk.mono le_rfl (Nat.le_succ P), Nat.lt_succ_self P, ?_⟩
      rw [hk.floor (hnext.le (N := N)), htoken]
      exact hfloor
    · intro p hp
      rw [List.mem_singleton.mp hp]
      exact Nat.lt_succ_self P
  · have heq : s.raft.readIndexOpen now = (s.raft, .ret (-1)) := Prod.ext hr ho
    refine ⟨R, .refl R n P i s.inc M terms, ?_⟩
    rw [Server.openRead, heq]
    dsimp only
    rw [finishRead_packets]
    exact hs.finishRead hk fun hpos => absurd hpos (by decide)
  · have heq : s.raft.readIndexOpen now = ((s.raft.readIndexOpen now).1, .wait ctx term _ false) := Prod.ext rfl ho
    refine ⟨R, .refl R n P i s.inc M terms, ?_⟩
    have hkilled := readIndexOpen_killed s.raft now
    have hnext := hs.change hkilled fun halive => (hs.rounds halive).rests hr
    rw [Server.openRead, heq]
    refine { hnext.addTasks [.readWait k ctx term _ _] ?_ with }
    simpa using ⟨hk, fun _ => .inl (hfloor.trans (hjoin ctx term _ ho))⟩
  · -- the round is opened
    have heq : s.raft.readIndexOpen now = (s.raft.openRound, .wait s.raft.nextReadCtx _ _ true) := Prod.ext hr ho
    rw [Server.openRead, heq]
    cases hdead : s.raft.killed with
    | true =>
      refine ⟨R, .refl R n P i s.inc M terms, ?_⟩
      have hnext : Attends R N P i { s with raft := s.raft.openRound } :=
        hs.change rfl fun halive => absurd halive (by simp [hdead])
      refine { hnext.addTasks [.readBroadcast k _ _ _ 0] ?_ with }
      simpa using ⟨hk, fun halive => absurd halive (by simp [openRound, hdead])⟩
    | false =>
      have hkept := hs.rounds hdead
      have hnew : R.opening i s.inc s.raft.nextReadCtx = none := by
        by_contra hne
        obtain ⟨op, ho⟩ := Option.ne_none_iff_exists'.mp hne
        exact absurd (hkept.known _ op ho) (lt_irrefl _)
      have hopened := hkept.openRound ⟨s.raft.currentTerm, terms, M, s.raft.commitIndex⟩ rfl (hme hdead)
      have hnext : R.Next n P i s.inc M terms (R.open i s.inc s.raft.nextReadCtx
          ⟨s.raft.currentTerm, terms, M, s.raft.commitIndex⟩) :=
        next_open P M hnew (hfair hdead hl hsafe) rfl
      refine ⟨_, hnext, ?_⟩
      have hs' : Attends (R.open i s.inc s.raft.nextReadCtx ⟨s.raft.currentTerm, terms, M, s.raft.commitIndex⟩) N P i
          { s with raft := s.raft.openRound } := by
        refine ⟨fun _ => ?_, fun t ht => ?_⟩
        · rw [open_opening_self]
          exact hopened
        · exact (hs.tasks t ht).mono hnext.le le_rfl le_rfl fun ctx op h => hnext.opening _ _ _ _ h
      refine { hs'.addTasks [.readBroadcast k _ _ _ 0] ?_ with }
      intro t ht
      rw [List.mem_singleton.mp ht]
      refine ⟨hk, fun _ => ⟨⟨s.raft.currentTerm, terms, M, s.raft.commitIndex⟩, ?_, ?_, rfl⟩⟩
      · exact (congrFun (open_opening_self R i s.inc _ _) _).trans (Function.update_self _ _ _)
      · rw [hk.floor (hnext.le (N := N))]
        exact hfloor

end
end ChonKV
