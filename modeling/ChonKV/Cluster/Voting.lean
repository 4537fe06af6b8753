import ChonKV.Cluster.Quorum

/-!
What the stretches of `raft.cpp` that concern elections do to a node, its messages and the abstract
state.
-/

set_option autoImplicit false

namespace ChonKV

open Ballot Ballot.Ledger
open Function (update)

/-- A request for a vote announces the end of the candidate's log. -/
def VoteOK (G : Ghost) (args : RequestVoteArgs) : Prop :=
  ∃ c m : Nat, args.candidateId = c ∧ args.lastLogIndex = m ∧
    G.asked c args.term (args.lastLogTerm, m)

section
variable {σ : Type} {n : Nat} {svc : Service σ} {E : Record} {G : Ghost} {K : Nat → Core} {i : Nat}
variable {r : Raft}

theorem VoteOK.mono {G' : Ghost} {args : RequestVoteArgs} (h : VoteOK G args) (hle : G.Le E G') :
    VoteOK G' args := by
  obtain ⟨c, m, hc, hm, ha⟩ := h
  exact ⟨c, m, hc, hm, hle.asked _ _ _ ha⟩

theorem Acts.quiet {f f' : Frame} (h : At n svc E G K i f) {P : Ghost → Prop} (hf : f' = f)
    (hp : P G) : Acts n svc E G K i f f' P :=
  hf ▸ Acts.refl h hp

theorem At.convertToFollower (h : At n svc E G K i r.frame) {T : Int} (hT : r.currentTerm ≤ T)
    (hf : r.state = .kFollower → r.currentTerm < T) :
    Acts n svc E G K i r.frame (r.convertToFollowerLocked T).frame fun _ => True := by
  have node := h.node
  refine Acts.of_persist h (h.inv.stepDown h.lt ?_ rfl ?_ ?_ ?_ ?_ node.applied ?_)
    ⟨⟨rfl, hT, le_rfl, le_rfl⟩, fun hp => ⟨hp, rfl⟩⟩ fun G' hle => (h.ok.toHeld.mono hle).raise hT
  · rw [h.core]
    exact hT
  · rw [h.core]
    intro hs heq
    exact absurd (hf hs) (by rw [show T = r.currentTerm from heq]; exact lt_irrefl _)
  all_goals rw [h.core]; rfl

theorem At.stepDownTo (h : At n svc E G K i r.frame) {T now : Int} (hT : r.currentTerm < T) :
    Acts n svc E G K i r.frame (r.stepDownTo T now).frame fun _ => True :=
  h.convertToFollower hT.le fun _ => hT

theorem frame_beginPrevote (r : Raft) (now : Int) : (r.beginPrevote now).1.frame = r.frame := by
  unfold Raft.beginPrevote
  split
  · rfl
  · dsimp only
    split_ifs <;> rfl

theorem At.startElection (h : At n svc E G K i r.frame) (now : Int) :
    Acts n svc E G K i r.frame (r.startElection now).1.frame fun _ => True := by
  unfold Raft.startElection
  split
  · exact Acts.refl h trivial
  · dsimp only
    rw [frame_beginPrevote]
    split
    · rename_i hs
      exact h.convertToFollower le_rfl fun hf => by simp [hs] at hf
    · exact Acts.refl h trivial

theorem At.electionTimeout (h : At n svc E G K i r.frame) (now : Int) :
    Acts n svc E G K i r.frame (r.electionTimeout now).1.frame fun _ => True := by
  unfold Raft.electionTimeout
  split
  · exact Acts.refl h trivial
  · split
    · exact Acts.quiet h rfl trivial
    · exact h.startElection now

theorem At.prevoteReply (h : At n svc E G K i r.frame) (pargs : RequestPreVoteArgs) (s : Nat)
    (reply : RequestPreVoteReply) (now : Int) :
    Acts n svc E G K i r.frame (r.prevoteReply pargs s reply now).1.frame fun _ => True := by
  unfold Raft.prevoteReply
  split
  · exact Acts.refl h trivial
  · split
    · rename_i hlt
      exact h.stepDownTo hlt
    · split
      · exact Acts.quiet h rfl trivial
      · exact Acts.refl h trivial

/-- What `BecomeLeaderIfQuorumLocked` adds to the log. -/
def Raft.noop (r : Raft) : LogEntry :=
  { term := r.currentTerm, index := r.lastLogIndexLocked + 1, command := [], type := .kNoOp }

theorem appendNoop_of_le {r : Raft} (hc : ¬ r.commitIndex < r.lastLogIndexLocked) :
    r.appendNoop = { r with readSafeCommit := r.commitIndex } := if_neg hc

theorem appendNoop_of_lt {r : Raft} (hstore : r.logStore = .memory)
    (hc : r.commitIndex < r.lastLogIndexLocked) :
    ∃ x, r.appendNoop = { Raft.persistLocked
      { r with logs := r.logs ++ [r.noop] } with readSafeCommit := x } := by
  have happ : ∀ e, r.logStore.append e = r.logStore := by simp [hstore]
  have hkeep : r.logStore.keepsLogExternally = false := by simp [hstore]
  rw [Raft.appendNoop, if_pos hc]
  simp only [happ, hkeep]
  exact ⟨_, rfl⟩

/-- The frame of a new leader that appended nothing. -/
theorem frame_office {r : Raft} (hc : ¬ r.commitIndex < r.lastLogIndexLocked) (now : Int)
    (hq : ¬ (r.state ≠ .kCandidate ∨ ¬ r.voter r.me ∨ r.countGrantedVotesLocked < r.quorumSizeLocked)) :
    (r.becomeLeaderIfQuorumLocked now).frame = { r.frame with
      state := .kLeader
      nextIndex := List.replicate r.peers (r.lastLogIndexLocked + 1)
      matchIndex := List.replicate r.peers 0 } := by
  rw [Raft.becomeLeaderIfQuorumLocked, if_neg hq]
  dsimp only
  have h := appendNoop_of_le (r := { r with lastQuorumCheck := now }) hc
  rw [h]
  rfl

/-- The frame of a new leader that appended its no-op. -/
theorem frame_officeWith {r : Raft} (hstore : r.logStore = .memory) (hsync : r.persistAsync = false)
    (hc : r.commitIndex < r.lastLogIndexLocked) (now : Int)
    (hq : ¬ (r.state ≠ .kCandidate ∨ ¬ r.voter r.me ∨ r.countGrantedVotesLocked < r.quorumSizeLocked)) :
    (r.becomeLeaderIfQuorumLocked now).frame = Raft.frame (Raft.persistLocked { r with
      logs := r.logs ++ [r.noop]
      state := .kLeader
      nextIndex := List.replicate r.peers (lastIndexOf (r.logs ++ [r.noop]) + 1)
      matchIndex := List.replicate r.peers 0 }) := by
  rw [Raft.becomeLeaderIfQuorumLocked, if_neg hq]
  dsimp only
  obtain ⟨x, h⟩ := appendNoop_of_lt (r := { r with lastQuorumCheck := now }) hstore hc
  rw [h, Raft.persistLocked_of_sync (by exact hsync), Raft.persistLocked_of_sync (by exact hsync)]
  rfl

/-- A candidate that has the votes of a quorum becomes leader. -/
theorem At.becomeLeader (h : At n svc E G K i r.frame) (now : Int)
    (led : (r.becomeLeaderIfQuorumLocked now).state = .kLeader →
      E.led i (r.becomeLeaderIfQuorumLocked now).currentTerm) :
    Acts n svc E G K i r.frame (r.becomeLeaderIfQuorumLocked now).frame fun _ => True := by
  have hok := h.ok.toHeld
  by_cases hq : r.state ≠ .kCandidate ∨ ¬ r.voter r.me ∨
      r.countGrantedVotesLocked < r.quorumSizeLocked
  · refine Acts.quiet h ?_ trivial
    rw [Raft.becomeLeaderIfQuorumLocked, if_pos hq]
  have hnot := hq
  push Not at hq
  obtain ⟨hs, -, hvotes⟩ := hq
  have hK : (K i).state = .kCandidate := by rw [h.core]; exact hs
  have hmaj : (majority n).IsQuorum {s | (K i).voteGranted.getD s 0 = 1} := by
    rw [h.core]
    exact hok.majority_of_granted hvotes
  by_cases hc : r.commitIndex < r.lastLogIndexLocked
  · have hframe := frame_officeWith hok.store hok.sync hc now hnot
    have hstate := congrArg (fun f : Frame => f.state) hframe
    have hterm : (r.becomeLeaderIfQuorumLocked now).currentTerm = r.currentTerm :=
      (congrArg (fun f : Frame => f.currentTerm) hframe).trans
        (congrArg Core.currentTerm (Raft.core_persistLocked _))
    have hl := led (hstate.trans (congrArg Core.state (Raft.core_persistLocked _)))
    rw [hterm] at hl
    rw [hframe]
    have hm := h.inv.electWith h.lt hK hmaj (e := r.noop) (by rw [h.core]; exact hl)
      (by rw [h.core]; rfl) (by rw [h.core]; rfl) (by simp [Raft.noop])
    refine Acts.of_persist h (hm.trans fun G₁ _ hinv _ => ?_) ⟨⟨rfl, le_rfl, le_rfl, le_rfl⟩, fun hp => ⟨hp, rfl⟩⟩
      fun G' hle => ?_
    · have hlead := hinv.leadFresh h.lt (by simp) (p := r.peers)
        (x := lastIndexOf (r.logs ++ [r.noop]) + 1) (by rw [h.core]; simp; rfl)
      rw [h.core] at hlead ⊢
      simp only [Function.update_self] at hlead
      exact hlead
    · exact (hok.mono hle).raise le_rfl
  · have hframe := frame_office hc now hnot
    have hterm : (r.becomeLeaderIfQuorumLocked now).currentTerm = r.currentTerm :=
      congrArg (fun f : Frame => f.currentTerm) hframe
    have hl := led (congrArg (fun f : Frame => f.state) hframe)
    rw [hterm] at hl
    rw [hframe]
    have hm := h.inv.elect h.lt hK hmaj (by rw [h.core]; exact hl)
      (by rw [h.core]; exact not_lt.mp hc)
    refine Acts.of_hard h (hm.trans fun G₁ _ hinv _ => ?_) rfl
    have hlead := hinv.leadFresh h.lt (by simp) (p := r.peers) (x := r.lastLogIndexLocked + 1)
      (by rw [h.core]; simp; rfl)
    rw [h.core] at hlead ⊢
    simp only [Function.update_self] at hlead
    exact hlead

theorem getD_set_one {m a s : Nat} (h : ((List.replicate m (0 : Int)).set a 1).getD s 0 = 1) :
    s = a := by
  by_contra hne
  rw [List.getD_eq_getElem?_getD, List.getElem?_set_ne (Ne.symm hne), ← List.getD_eq_getElem?_getD,
    getD_replicate_zero] at h
  simp at h

theorem At.standForTerm (h : At n svc E G K i r.frame) (now : Int) :
    Acts n svc E G K i r.frame (r.standForTerm now).1.frame fun _ => True := by
  have hme : r.me = i := h.ok.me
  unfold Raft.standForTerm
  dsimp only
  split
  · exact Acts.quiet h rfl trivial
  · rename_i hgo
    push Not at hgo
    have hv : r.voter r.me = true := hgo.2.2.1
    refine Acts.of_persist h (h.inv.stand h.lt ?_ rfl ?_ (fun s hs => ?_) ?_ ?_ ?_ ?_ ?_)
      ⟨⟨rfl, ?_, le_rfl, le_rfl⟩, fun hp => ⟨hp, rfl⟩⟩ fun G' hle => (h.ok.toHeld.mono hle).raise ?_
    · rw [h.core]
      rfl
    · simp only [Raft.core, hme]
    · rw [← hme]
      refine getD_set_one (m := r.peers) (a := r.me) ?_
      have hs' : ((List.replicate r.peers (0 : Int)).set r.me (if r.voter r.me then 1 else 0)).getD s 0
          = 1 := hs
      rwa [hv] at hs'
    all_goals first | (rw [h.core]; rfl) | exact Int.le.intro 1 rfl

theorem At.startRealElection (h : At n svc E G K i r.frame) (now : Int)
    (led : (r.startRealElection now).1.state = .kLeader →
      E.led i (r.startRealElection now).1.currentTerm) :
    Acts n svc E G K i r.frame (r.startRealElection now).1.frame fun _ => True := by
  have hst := h.standForTerm now
  have hdef : (r.startRealElection now).1 = if (r.standForTerm now).2 = true ∧
      (r.standForTerm now).1.quorumSizeLocked ≤ (r.standForTerm now).1.countGrantedVotesLocked then
      (r.standForTerm now).1.becomeLeaderIfQuorumLocked now else (r.standForTerm now).1 := by
    unfold Raft.startRealElection
    dsimp only
    split_ifs <;> first | rfl | (exfalso; tauto)
  rw [hdef] at led ⊢
  split
  · rename_i hc
    rw [if_pos hc] at led
    exact hst.trans fun G₁ _ hat _ => hat.becomeLeader now led
  · exact hst

/-- The requests of a candidate announce its log, and go to the other nodes. -/
theorem At.sendRequestVotes (h : At n svc E G K i r.frame) {args : RequestVoteArgs}
    {targets : List Nat} (hs : r.sendRequestVoteRPCs = some (args, targets)) :
    Acts n svc E G K i r.frame r.frame fun G' => VoteOK G' args ∧ args.candidateId = i ∧
      ∀ s ∈ targets, s ≠ i ∧ s < n := by
  have node := h.node
  have hok := h.ok.toHeld
  have hme : r.me = i := hok.me
  have hpeers : r.peers = n := hok.peers
  unfold Raft.sendRequestVoteRPCs at hs
  split at hs
  · cases hs
  · rename_i hgo
    push Not at hgo
    cases hs
    have hK : (K i).state = .kCandidate := by
      rw [h.core]
      exact hgo.2.1
    obtain ⟨G', hle, hinv, hask⟩ := h.inv.ask h.lt hK
    have hlast : G.L.lastOf (G.L.log i) = (r.lastLogTermLocked, (G.L.log i).length) := by
      rw [h.inv.lastOf_eq]
      exact Prod.ext node.shows.lastTermOf_eq.symm rfl
    rw [hlast, h.core] at hask
    have hself : update K i r.frame.toCore = K := by
      rw [← h.core, Function.update_eq_self]
    refine ⟨G', hle, ⟨hself.symm ▸ hinv, by simp, h.lt, h.ok.mono hle⟩, Grows.refl _, ?_, ?_, ?_⟩
    · exact ⟨i, (G.L.log i).length, by simp [hme], node.shows.lastIndexOf_eq, hask⟩
    · simp [hme]
    · intro s hs
      simp only [Raft.voterPeers, List.mem_filter, List.mem_range, Bool.and_eq_true,
        decide_eq_true_eq] at hs
      exact ⟨hme ▸ hs.2.1, hpeers ▸ hs.1⟩

/-- The callback of a vote counts the vote of `s`. -/
theorem At.voteReply (h : At n svc E G K i r.frame) (args : RequestVoteArgs) (s : Nat)
    (reply : RequestVoteReply) (now : Int)
    (hvote : reply.voteGranted = true → G.vote s args.term = some i)
    (led : (r.voteReply args s reply now).state = .kLeader →
      E.led i (r.voteReply args s reply now).currentTerm) :
    Acts n svc E G K i r.frame (r.voteReply args s reply now).frame fun _ => True := by
  unfold Raft.voteReply at led ⊢
  split
  · exact Acts.refl h trivial
  split
  · rename_i hlt
    exact h.stepDownTo hlt
  split
  · rename_i hk hlt hc
    rw [if_neg hk, if_neg hlt, if_pos hc] at led
    obtain ⟨hs, hT, hg, -⟩ := hc
    have node := h.node
    have hcount : Acts n svc E G K i r.frame
        (Raft.frame { r with numVotes := r.numVotes + 1, voteGranted := r.voteGranted.set s 1 })
        fun _ => True := by
      refine Acts.of_hard h (h.inv.keep h.lt ?_ ?_ ?_ ?_ ?_ ?_ node.applied node.commit ?_ ?_) rfl
      any_goals rw [h.core]; rfl
      · intro hl
        exact absurd (hs.symm.trans hl) (by simp)
      · intro _ q hq
        have hset : (r.voteGranted.set s 1).getD q 0 = 1 := hq
        by_cases hqs : q = s
        · subst hqs
          right
          rw [← hvote hg, hT]
          rfl
        · rw [List.getD_eq_getElem?_getD, List.getElem?_set_ne (Ne.symm hqs),
            ← List.getD_eq_getElem?_getD] at hset
          exact (node.stands hs).granted q hset
    exact hcount.trans fun G₁ _ hat _ => hat.becomeLeader now led
  · exact Acts.refl h trivial

/-- A granted vote, as the abstract state keeps it. -/
def Granted (G : Ghost) (q : Nat) (args : RequestVoteArgs) (reply : RequestVoteReply) : Prop :=
  reply.voteGranted = true → ∃ c : Nat, args.candidateId = c ∧ G.vote q args.term = some c

theorem Granted.mono {G' : Ghost} {q : Nat} {args : RequestVoteArgs} {reply : RequestVoteReply}
    (h : Granted G q args reply) (hle : G.Le E G') : Granted G' q args reply := by
  intro hg
  obtain ⟨c, hc, hv⟩ := h hg
  exact ⟨c, hc, hle.vote _ _ _ hv⟩

theorem Granted.of_not {q : Nat} {args : RequestVoteArgs} {reply : RequestVoteReply}
    (h : reply.voteGranted = false) : Granted G q args reply := by
  intro hg
  rw [h] at hg
  cases hg

theorem At.decideVote (h : At n svc E G K i r.frame) {args : RequestVoteArgs} (hreq : VoteOK G args)
    (hT : r.currentTerm = args.term) (hne : args.candidateId ≠ i) (reply : RequestVoteReply)
    (hno : reply.voteGranted = false) (now : Int)
    (hrel : (r.decideVote args reply now).2.voteGranted = true →
      E.led i args.term → E.relapsed args.term) :
    Acts n svc E G K i r.frame (r.decideVote args reply now).1.frame fun G' =>
      Granted G' i args (r.decideVote args reply now).2 := by
  unfold Raft.decideVote at hrel ⊢
  split
  · exact Acts.refl h (.of_not hno)
  split
  · exact Acts.refl h (.of_not hno)
  split
  · exact Acts.refl h (.of_not hno)
  rename_i hmay hfree hup
  rw [if_neg hmay, if_neg hfree, if_neg hup] at hrel
  have node := h.node
  obtain ⟨c, m, hc, hm, hask⟩ := hreq
  -- a candidate or leader has voted for itself
  have hs : r.state = .kFollower := by
    by_contra hs
    have hv : r.votedFor = i := (node.votes hs).1
    refine hfree ⟨by rw [hv]; omega, ?_⟩
    rw [hv]
    exact Ne.symm hne
  have hup' : G.L.UpToDate (G.L.log i) (args.lastLogTerm, m) := by
    have hlt : r.lastLogTermLocked = termAt (G.L.log i) (G.L.log i).length := node.shows.lastTermOf_eq
    have hli : r.lastLogIndexLocked = (G.L.log i).length := node.shows.lastIndexOf_eq
    simp only [Raft.logUpToDate, hlt, hli, hm, Bool.or_eq_true, Bool.and_eq_true,
      decide_eq_true_eq, not_not, Int.ofNat_le] at hup
    rw [UpToDate, h.inv.lastOf_eq]
    exact hup.imp_right fun hh => ⟨hh.1.symm, hh.2⟩
  have hm := h.inv.grant h.lt (c := c) (a := (args.lastLogTerm, m))
    (x := Raft.core { r with votedFor := args.candidateId, lastHeartbeat := now })
    ?_ ?_ ?_ ?_ hup' ?_ ?_
  · refine Acts.of_persist h (hm.imp fun G' _ hv _ => ⟨c, hc, ?_⟩) ⟨⟨rfl, le_rfl, le_rfl, le_rfl⟩, fun hp => ⟨hp, rfl⟩⟩
      fun G' hle => (h.ok.toHeld.mono hle).raise le_rfl
    rw [h.core, show r.frame.currentTerm = args.term from hT] at hv
    exact hv
  · rw [h.core]
    exact hs
  · rw [h.core, ← hc]
    by_cases h1 : r.votedFor = -1
    · exact .inl h1
    · exact .inr (not_not.mp fun h2 => hfree ⟨h1, h2⟩)
  · rintro rfl
    exact hne hc
  · rw [h.core, show r.frame.currentTerm = args.term from hT]
    exact hask
  · rw [h.core, show r.frame.currentTerm = args.term from hT]
    exact hrel rfl
  · rw [h.core, ← hc]
    rfl

/-- The handler of a request for a vote. -/
theorem At.requestVote (h : At n svc E G K i r.frame) {args : RequestVoteArgs} (hreq : VoteOK G args)
    (hne : args.candidateId ≠ i) (now : Int)
    (hrel : (r.requestVote args now).2.voteGranted = true →
      E.led i args.term → E.relapsed args.term) :
    Acts n svc E G K i r.frame (r.requestVote args now).1.frame fun G' =>
      Granted G' i args (r.requestVote args now).2 := by
  unfold Raft.requestVote at hrel ⊢
  dsimp only at hrel ⊢
  split
  · exact Acts.refl h (.of_not rfl)
  rename_i hno
  rw [if_neg hno] at hrel
  push Not at hno
  split
  · rename_i hlt
    rw [if_pos hlt] at hrel
    refine (h.convertToFollower hlt.le fun _ => hlt).trans fun G₁ hle hat _ => ?_
    exact hat.decideVote (hreq.mono hle) (congrArg Core.currentTerm (Raft.core_persistLocked _)) hne _ rfl
      now hrel
  · rename_i hge
    rw [if_neg hge] at hrel
    exact h.decideVote hreq (le_antisymm hno.2 (not_lt.mp hge)) hne _ rfl now hrel

theorem At.leaderTick (h : At n svc E G K i r.frame) (now : Int) :
    Acts n svc E G K i r.frame (r.leaderTick now).frame fun _ => True := by
  unfold Raft.leaderTick
  split
  · exact Acts.refl h trivial
  rename_i hgo
  push Not at hgo
  split
  · dsimp only
    split
    · exact At.convertToFollower (r := { r with lastQuorumCheck := now }) h le_rfl fun hf => by
        simp [hgo.2] at hf
    · exact Acts.quiet h rfl trivial
  · exact Acts.quiet h rfl trivial

end
end ChonKV
