import ChonKV.Assoc.Rank
import ChonKV.Handler.Merge

/-!
`AdvanceCommitIndexLocked`: a leader commits the greatest entry of its own term that a quorum of the
voters reaches.
-/

set_option autoImplicit false

namespace ChonKV
namespace Raft

open Assoc

/-- `n` is above the commit index, an entry of the current term, and reached by a quorum of the voters:
each by its match position, this node, where it is a voter, by its last entry. -/
structure Committable (r : Raft) (n : Int) : Prop where
  above : r.commitIndex < n
  quorum : r.quorumSizeLocked ≤ reach r.matchedLocked n
  held : r.inLogs n
  term : (r.logAt n).term = r.currentTerm

/-- `r'` has committed the greatest index there is to commit for `r`, if there is one. -/
def CommitsGreatest (r r' : Raft) : Prop :=
  (r.Committable r'.commitIndex ∧ ∀ n, r.Committable n → n ≤ r'.commitIndex) ∨
    (r'.commitIndex = r.commitIndex ∧ ∀ n, ¬ r.Committable n)

/-- No term goes down along the log. -/
def TermsAscend (r : Raft) : Prop := r.logs.Pairwise fun a b => a.term ≤ b.term

/-- What a leader's own term and its log bound: the terms of its entries, and how far the log of a voter
is known to match. -/
structure Matches (r : Raft) : Prop where
  terms : r.lastLogTermLocked ≤ r.currentTerm
  positions : ∀ i < r.peers, r.voter i = true → i ≠ r.me → r.matchIndex.getD i 0 ≤ r.lastLogIndexLocked

variable {r : Raft} {n n' : Int}

theorem logAt_term_le (hlevel : r.Level) (hasc : r.TermsAscend) (hn : r.inLogs n) (hn' : r.inLogs n')
    (h : n ≤ n') : (r.logAt n).term ≤ (r.logAt n').term := by
  have hlen := hlevel.log.lastIndexOf_eq
  obtain ⟨hget, -⟩ := hlevel.log.get hn.1 (by have := hn.2; omega)
  obtain ⟨hget', -⟩ := hlevel.log.get hn'.1 (by have := hn'.2; omega)
  obtain ⟨hlt, heq⟩ := List.getElem?_eq_some_iff.mp hget
  obtain ⟨hlt', heq'⟩ := List.getElem?_eq_some_iff.mp hget'
  rw [logAt, logAt, ← heq, ← heq']
  obtain rfl | hne := eq_or_ne n n'
  · exact le_rfl
  · have h1 := hn.1
    exact List.pairwise_iff_getElem.mp hasc _ _ hlt hlt' (by omega)

theorem logAt_term_le_last (hlevel : r.Level) (hasc : r.TermsAscend) (hn : r.inLogs n) :
    (r.logAt n).term ≤ r.lastLogTermLocked := by
  have hlen := hlevel.log.lastIndexOf_eq
  have hpos := hlevel.log.length_pos
  have hlast : r.inLogs r.lastLogIndexLocked := by
    rw [inLogs, lastLogIndexLocked]
    omega
  have hterm : r.lastLogTermLocked = (r.logAt r.lastLogIndexLocked).term := by
    obtain ⟨hget, -⟩ := hlevel.log.get hlast.1 le_rfl
    have hidx : (r.lastLogIndexLocked - r.snapshotIndex).toNat = r.logs.length - 1 := by
      rw [lastLogIndexLocked]
      omega
    rw [hidx, ← List.getLast?_eq_getElem?] at hget
    rw [lastLogTermLocked, lastTermOf, hget]
    rfl
  rw [hterm]
  refine logAt_term_le hlevel hasc hn hlast ?_
  have h2 := hn.2
  rw [lastLogIndexLocked]
  omega

theorem matched_le_last (hm : r.Matches) {a : Int} (ha : a ∈ r.matchedLocked) :
    a ≤ r.lastLogIndexLocked := by
  obtain ⟨i, hi, rfl⟩ := List.mem_map.mp ha
  rw [List.mem_filter, List.mem_range] at hi
  split_ifs with hme
  · exact le_rfl
  · exact hm.positions i hi.1 hi.2 hme

/-- The position that the sorted match vector names: a quorum reaches `n` when it does. -/
theorem quorum_iff (hq : r.quorumSizeLocked ≤ r.matchedLocked.length) (n : Int) :
    r.quorumSizeLocked ≤ reach r.matchedLocked n ↔
      n ≤ (r.matchedLocked.insertionSort (· ≤ ·)).getD
        ((r.matchedLocked.insertionSort (· ≤ ·)).length - r.quorumSizeLocked) 0 := by
  have hperm := List.perm_insertionSort (· ≤ ·) r.matchedLocked
  rw [← reach_perm hperm]
  exact le_reach_iff (List.pairwise_insertionSort (· ≤ ·) _) (Nat.succ_pos _)
    (hq.trans hperm.length_eq.ge) 0

/-- What `AdvanceCommitIndexLocked` does on a leader, once its index into the match vector is in
range. -/
theorem advanceCommitIndexLocked_eq (hleader : r.state = .kLeader)
    (hq : r.quorumSizeLocked ≤ r.matchedLocked.length) :
    let matched := r.matchedLocked.insertionSort (· ≤ ·)
    let n := matched.getD (matched.length - r.quorumSizeLocked) 0
    matched.length - r.quorumSizeLocked < matched.length ∧
      r.advanceCommitIndexLocked =
        if r.commitIndex < n ∧ 0 ≤ n ∧ r.inLogs n ∧ (r.logAt n).term = r.currentTerm then
          ({ r with commitIndex := n }, true)
        else (r, false) := by
  have hlen := (List.perm_insertionSort (· ≤ ·) r.matchedLocked).length_eq
  have hpos : 0 < r.quorumSizeLocked := Nat.succ_pos _
  have hne : ¬ (r.matchedLocked.insertionSort (· ≤ ·) = [] ∨
      (r.matchedLocked.insertionSort (· ≤ ·)).length < r.quorumSizeLocked) := by
    rw [← List.length_eq_zero_iff]
    omega
  refine ⟨by omega, ?_⟩
  rw [advanceCommitIndexLocked, if_neg (not_not.mpr hleader), if_neg hne]

/-- Without a quorum of voters among the peers nothing is committed. -/
theorem advanceCommitIndexLocked_short (hq : ¬ r.quorumSizeLocked ≤ r.matchedLocked.length) :
    r.advanceCommitIndexLocked = (r, false) := by
  have hlen := (List.perm_insertionSort (· ≤ ·) r.matchedLocked).length_eq
  rw [advanceCommitIndexLocked]
  split_ifs with hleader
  · rfl
  · exact if_pos (.inr (by omega))

/-- Nothing but the commit index changes, and that does not go down. -/
theorem advanceCommitIndexLocked_grows (r : Raft) :
    ∃ c, r.commitIndex ≤ c ∧ r.advanceCommitIndexLocked.1 = { r with commitIndex := c } := by
  rw [advanceCommitIndexLocked]
  dsimp only
  split_ifs with hleader hshort hcommit
  · exact ⟨r.commitIndex, le_rfl, rfl⟩
  · exact ⟨r.commitIndex, le_rfl, rfl⟩
  · exact ⟨_, hcommit.1.le, rfl⟩
  · exact ⟨r.commitIndex, le_rfl, rfl⟩

/-- The match positions of learners and of removed nodes are not looked at. -/
theorem advanceCommitIndexLocked_voters (r : Raft) {positions : List Int}
    (h : ∀ i, r.voter i = true → positions.getD i 0 = r.matchIndex.getD i 0) :
    ({ r with matchIndex := positions }.advanceCommitIndexLocked).1.commitIndex =
      r.advanceCommitIndexLocked.1.commitIndex := by
  have hmatched : matchedLocked { r with matchIndex := positions } = r.matchedLocked := by
    refine List.map_congr_left fun i hi => ?_
    rw [List.mem_filter] at hi
    rw [h i hi.2]
    rfl
  rw [advanceCommitIndexLocked, advanceCommitIndexLocked, hmatched]
  dsimp only
  split_ifs <;> first | rfl | contradiction

theorem commits_greatest (hleader : r.state = .kLeader) (hlevel : r.Level) (hasc : r.TermsAscend)
    (hm : r.Matches) : r.CommitsGreatest r.advanceCommitIndexLocked.1 := by
  by_cases hq : r.quorumSizeLocked ≤ r.matchedLocked.length
  · obtain ⟨hlt, heq⟩ := advanceCommitIndexLocked_eq hleader hq
    set n := (r.matchedLocked.insertionSort (· ≤ ·)).getD
      ((r.matchedLocked.insertionSort (· ≤ ·)).length - r.quorumSizeLocked) 0 with hn
    have hreach : r.quorumSizeLocked ≤ reach r.matchedLocked n := (quorum_iff hq n).mpr le_rfl
    have hbelow : ∀ m, r.Committable m → m ≤ n := fun m h => (quorum_iff hq m).mp h.quorum
    rw [heq]
    split_ifs with hcommit
    · exact .inl ⟨⟨hcommit.1, hreach, hcommit.2.2.1, hcommit.2.2.2⟩, hbelow⟩
    · refine .inr ⟨rfl, fun m h => hcommit ?_⟩
      have hle := hbelow m h
      have hmem : n ∈ r.matchedLocked := by
        rw [← (List.perm_insertionSort (· ≤ ·) r.matchedLocked).mem_iff, hn, List.getD_eq_getElem _ 0 hlt]
        exact List.getElem_mem hlt
      have hlast := matched_le_last hm hmem
      have hend := hlevel.log.lastIndexOf_eq
      have hfrom := h.held.1
      have hheld : r.inLogs n := ⟨by omega, by rw [lastLogIndexLocked] at hlast; omega⟩
      have hup := logAt_term_le hlevel hasc h.held hheld hle
      have htop := logAt_term_le_last hlevel hasc hheld
      have hterm := h.term
      have hmax := hm.terms
      have hpos := hlevel.pos
      exact ⟨lt_of_lt_of_le h.above hle, by omega, hheld, by omega⟩
  · rw [advanceCommitIndexLocked_short hq]
    refine .inr ⟨rfl, fun m h => hq (h.quorum.trans List.countP_le_length)⟩

/-- The commit rule: the greatest committable index is committed, the match vector is indexed in range,
the commit index does not go down, and only voters count. -/
theorem commit_rule (r : Raft) (hleader : r.state = .kLeader) (hlevel : r.Level)
    (hasc : r.TermsAscend) (hm : r.Matches) :
    r.CommitsGreatest r.advanceCommitIndexLocked.1 ∧
      r.commitIndex ≤ r.advanceCommitIndexLocked.1.commitIndex ∧
      (r.quorumSizeLocked ≤ r.matchedLocked.length →
        (r.matchedLocked.insertionSort (· ≤ ·)).length - r.quorumSizeLocked <
          (r.matchedLocked.insertionSort (· ≤ ·)).length) ∧
      ∀ positions : List Int, (∀ i, r.voter i = true → positions.getD i 0 = r.matchIndex.getD i 0) →
        ({ r with matchIndex := positions }.advanceCommitIndexLocked).1.commitIndex =
          r.advanceCommitIndexLocked.1.commitIndex := by
  refine ⟨commits_greatest hleader hlevel hasc hm, ?_,
    fun hq => (advanceCommitIndexLocked_eq hleader hq).1, fun _ h => advanceCommitIndexLocked_voters r h⟩
  obtain ⟨c, hle, heq⟩ := advanceCommitIndexLocked_grows r
  rw [heq]
  exact hle

/-- A leader of term 2 among three voters, with `positions` for the others. -/
def leading (terms : List Int) (positions : List Int) : Raft where
  peers := 3
  me := 0
  state := .kLeader
  currentTerm := 2
  logs := sentinel 0 0 ::
    (List.range terms.length).map fun k => { term := terms.getD k 0, index := k + 1 }
  matchIndex := positions
  isMember := List.replicate 3 .kVoter

theorem commit_rule_small :
    (leading [1, 2, 2] [0, 2, 1]).advanceCommitIndexLocked.1.commitIndex = 2 ∧
      (leading [1, 2, 2] [0, 2, 1]).CommitsGreatest
        (leading [1, 2, 2] [0, 2, 1]).advanceCommitIndexLocked.1 := by
  refine ⟨by decide, (commit_rule (leading [1, 2, 2] [0, 2, 1]) rfl ?_ ?_ ?_).1⟩
  · exact ⟨by decide, by simp [leading], rfl, rfl, rfl, rfl, trivial⟩
  · rw [TermsAscend]
    decide
  · exact ⟨by decide, by decide⟩

theorem Committable.misses {r' : Raft} (h : r.Committable n) (hsame : r'.commitIndex = r.commitIndex) :
    ¬ r.CommitsGreatest r' := by
  rintro (⟨hc, -⟩ | ⟨-, hnone⟩)
  · exact absurd hc.above (by omega)
  · exact hnone n h

/-- Two voters are taken to match beyond the end of the log; and a log reaches beyond its leader's term. -/
theorem commit_rule_bounds :
    let r := leading [2] [0, 7, 7]
    let q := leading [2, 3] [0, 2, 2]
    (r.state = .kLeader ∧ r.Level ∧ r.TermsAscend ∧ ¬ r.CommitsGreatest r.advanceCommitIndexLocked.1) ∧
      q.state = .kLeader ∧ q.Level ∧ q.TermsAscend ∧ ¬ q.CommitsGreatest q.advanceCommitIndexLocked.1 := by
  have h7 : (leading [2] [0, 7, 7]).Committable 1 := ⟨by decide, by decide, by decide, by decide⟩
  have h3 : (leading [2, 3] [0, 2, 2]).Committable 1 := ⟨by decide, by decide, by decide, by decide⟩
  refine ⟨⟨rfl, ⟨by decide, by simp [leading], rfl, rfl, trivial⟩, ?_, h7.misses (by decide)⟩, rfl,
    ⟨by decide, by simp [leading], rfl, rfl, rfl, trivial⟩, ?_, h3.misses (by decide)⟩
  · rw [TermsAscend]
    decide
  · rw [TermsAscend]
    decide

end Raft
end ChonKV
