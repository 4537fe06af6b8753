import ChonKV.Cluster.Static
import Mathlib.Data.Finset.Dedup

/-!
The counts by which the handlers recognise a quorum, as quorums of the majority system.
-/

set_option autoImplicit false

namespace ChonKV

open Ballot

theorem majority_mono {n : Nat} {A B : Set Nat} (h : (majority n).IsQuorum A)
    (hAB : ∀ q ∈ A, q ∈ B) : (majority n).IsQuorum B := by
  obtain ⟨s, hs, hsA, hcard⟩ := h
  exact ⟨s, hs, fun q hq => hAB q (hsA q hq), hcard⟩

theorem majority_of_range {n : Nat} {p : Nat → Bool} (h : n < 2 * (List.range n).countP p) :
    (majority n).IsQuorum {s | p s = true} := by
  refine ⟨((List.range n).filter p).toFinset, fun q hq => ?_, fun q hq => ?_, ?_⟩
  · simp only [List.mem_toFinset, List.mem_filter, List.mem_range] at hq
    simpa using hq.1
  · simp only [List.mem_toFinset, List.mem_filter, List.mem_range] at hq
    exact hq.2
  · rw [List.toFinset_card_of_nodup (List.nodup_range.filter p), ← List.countP_eq_length_filter]
    exact h

theorem countP_replicate_voter (n : Nat) : (List.replicate n MemberRole.kVoter).countP isVoter = n := by
  simp [List.countP_replicate]

theorem countGrantedVotes_le (n : Nat) (votes : List Int) :
    countGrantedVotes (List.replicate n .kVoter) votes ≤
      (List.range n).countP fun s => votes.getD s 0 == 1 := by
  induction n generalizing votes with
  | zero => simp [countGrantedVotes]
  | succ n ih =>
    cases votes with
    | nil => simp [countGrantedVotes]
    | cons v votes =>
      have hrange : (List.range (n+1)).countP (fun s => (v :: votes).getD s 0 == 1) =
          ((List.range n).countP fun s => votes.getD s 0 == 1) + if v == 1 then 1 else 0 := by
        rw [List.range_succ_eq_map, List.countP_cons, List.countP_map]
        rfl
      rw [hrange]
      have hcons : countGrantedVotes (List.replicate (n+1) .kVoter) (v :: votes) =
          countGrantedVotes (List.replicate n .kVoter) votes + if v == 1 then 1 else 0 := by
        simp [countGrantedVotes, List.replicate_succ, List.countP_cons]
      rw [hcons]
      exact Nat.add_le_add_right (ih votes) _

/-- The votes of a quorum of voters. -/
theorem majority_of_votes {n : Nat} {votes : List Int}
    (h : n/2 + 1 ≤ countGrantedVotes (List.replicate n .kVoter) votes) :
    (majority n).IsQuorum {s | votes.getD s 0 = 1} := by
  have hle := countGrantedVotes_le n votes
  exact majority_mono (majority_of_range (p := fun s => votes.getD s 0 == 1) (by omega))
    fun q hq => by simpa using hq

/-- In a sorted list, all elements from position `k` on are as large as the one there. -/
theorem le_countP_of_sorted {l : List Int} (h : l.Pairwise (· ≤ ·)) {k : Nat} (hk : k < l.length) :
    l.length - k ≤ l.countP fun x => decide (l.getD k 0 ≤ x) := by
  have hall : (l.drop k).countP (fun x => decide (l.getD k 0 ≤ x)) = (l.drop k).length := by
    rw [List.countP_eq_length]
    intro x hx
    obtain ⟨j, hj⟩ := List.mem_iff_getElem?.mp hx
    rw [List.getElem?_drop] at hj
    obtain ⟨hlt, rfl⟩ := List.getElem?_eq_some_iff.mp hj
    rw [List.getD_eq_getElem?_getD, List.getElem?_eq_getElem hk, Option.getD_some, decide_eq_true_eq]
    rcases Nat.eq_zero_or_pos j with rfl | hpos
    · exact le_rfl
    · exact List.pairwise_iff_getElem.mp h k (k+j) hk hlt (by omega)
  rw [List.length_drop] at hall
  rw [← hall]
  exact (List.drop_sublist k l).countP_le

section
variable {σ : Type} {n : Nat} {svc : Service σ} {E : Record} {G : Ghost} {i : Nat} {r : Raft}

theorem Held.voter (h : Held n svc E G i r.frame) (s : Nat) : r.voter s = decide (s < n) := by
  have hm : r.isMember = List.replicate n .kVoter := h.members
  rw [Raft.voter, hm, List.getD_eq_getElem?_getD, List.getElem?_replicate]
  by_cases hs : s < n
  · simp [hs]
  · simp [hs, isVoter]

theorem Held.memberCount (h : Held n svc E G i r.frame) : r.memberCountLocked = n := by
  have hm : r.isMember = List.replicate n .kVoter := h.members
  rw [Raft.memberCountLocked, hm, countP_replicate_voter]

theorem Held.quorumSize (h : Held n svc E G i r.frame) : r.quorumSizeLocked = n/2 + 1 := by
  rw [Raft.quorumSizeLocked, h.memberCount]

theorem Held.majority_of_granted (h : Held n svc E G i r.frame)
    (hq : r.quorumSizeLocked ≤ r.countGrantedVotesLocked) :
    (majority n).IsQuorum {s | r.voteGranted.getD s 0 = 1} := by
  have hm : r.isMember = List.replicate n .kVoter := h.members
  rw [h.quorumSize, Raft.countGrantedVotesLocked, hm] at hq
  exact majority_of_votes hq

theorem Held.matched_eq (h : Held n svc E G i r.frame) : r.matchedLocked =
    (List.range n).map fun s => if s = i then r.lastLogIndexLocked else r.matchIndex.getD s 0 := by
  have hpeers : r.peers = n := h.peers
  have hme : r.me = i := h.me
  have hall : (List.range n).filter r.voter = List.range n := by
    rw [List.filter_eq_self]
    intro s hs
    rw [h.voter, decide_eq_true_eq]
    exact List.mem_range.mp hs
  rw [Raft.matchedLocked, hpeers, hall, hme]

/-- The index that `AdvanceCommitIndexLocked` picks is held by a quorum. -/
theorem Held.majority_of_matched (h : Held n svc E G i r.frame) {c : Int}
    (hlen : ¬ (r.matchedLocked.insertionSort (· ≤ ·)).length < r.quorumSizeLocked)
    (hc : c = (r.matchedLocked.insertionSort (· ≤ ·)).getD
      ((r.matchedLocked.insertionSort (· ≤ ·)).length - r.quorumSizeLocked) 0) :
    (majority n).IsQuorum {s | if s = i then c ≤ r.lastLogIndexLocked
      else c ≤ r.matchIndex.getD s 0} := by
  have hsort : (r.matchedLocked.insertionSort (· ≤ ·)).Pairwise (· ≤ ·) :=
    List.pairwise_insertionSort _ _
  have hperm := List.perm_insertionSort (· ≤ ·) r.matchedLocked
  have hn : (r.matchedLocked.insertionSort (· ≤ ·)).length = n := by
    rw [List.length_insertionSort, h.matched_eq]
    simp
  rw [hn, h.quorumSize] at hlen hc
  have hcount := le_countP_of_sorted hsort (k := n - (n/2+1)) (by omega)
  rw [← hc, hn, hperm.countP_eq, h.matched_eq, List.countP_map] at hcount
  refine majority_mono (majority_of_range (p := (fun x => decide (c ≤ x)) ∘ fun s =>
    if s = i then r.lastLogIndexLocked else r.matchIndex.getD s 0) (by omega)) fun s hs => ?_
  have hs' : c ≤ if s = i then r.lastLogIndexLocked else r.matchIndex.getD s 0 := by
    simpa using hs
  by_cases hsi : s = i
  · simpa [hsi] using hs'
  · simpa [hsi] using hs'

end
end ChonKV
