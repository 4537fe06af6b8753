import ChonKV.Cluster.Runs

/-!
What the logs of two nodes have in common. A snapshot that a follower installs, or that a restart
adopts, takes the place of a prefix and leaves what follows it as it stands.
-/

set_option autoImplicit false

namespace ChonKV

open Ballot Ballot.Ledger

/-- Both logs hold `x`, and a later index with one term: they agree on the term of `x`. -/
def Matches (r r' : Raft) (x : Int) : Prop :=
  ∀ y, x < y → r.inLogs x → r'.inLogs x → r.inLogs y → r'.inLogs y →
    (r.logAt y).term = (r'.logAt y).term → (r.logAt x).term = (r'.logAt x).term

/-- `x` is above the sentinels of both logs, or both nodes committed it. -/
def AboveOrCommitted (r r' : Raft) (x : Int) : Prop :=
  (r.snapshotIndex < x ∧ r'.snapshotIndex < x) ∨ (x ≤ r.commitIndex ∧ x ≤ r'.commitIndex)

/-- Nothing is asked of what a run shows. -/
def Record.all : Record where
  led _ _ := True
  relapsed _ := True
  taken _ := True
  assembled _ := True

theorem Raft.logs_persistLocked (r : Raft) : r.persistLocked.logs = r.logs := by
  rw [Raft.persistLocked]
  split_ifs <;> rfl

/-- What an installed snapshot leaves of the log, whatever its own entry at the snapshot is. -/
theorem Raft.logs_installCommit {r : Raft} {args : InstallSnapshotArgs} (blob : Bytes)
    (hr : r.snapshotIndex ≤ r.lastApplied) (h : r.installStale args = false) :
    (r.installCommit args blob).1.logs = sentinel args.lastIncludedTerm args.lastIncludedIndex ::
      r.logs.drop ((args.lastIncludedIndex - r.snapshotIndex).toNat + 1) := by
  have hle : r.snapshotIndex ≤ args.lastIncludedIndex := by
    simp [Raft.installStale] at h
    omega
  simp only [Raft.installCommit, h, Bool.false_eq_true, if_false, Raft.installFinish, Raft.installLogs,
    Raft.logs_persistLocked, cutLogs, Raft.installPos_of_le hle]
  split_ifs
  · rw [Raft.convertToFollowerLocked, Raft.logs_persistLocked]
    rfl
  · rfl

section
variable {σ : Type} {n : Nat} {svc : Service σ}

/-- Above both bases, entries of one ballot at one position have the same entries below them. -/
theorem same_below {L : Ledger Nat LogEntry Int} (h : L.WF (majority n)) {i j k p : Nat}
    {e e' : LogEntry} (hi : L.base i ≤ k) (hj : L.base j ≤ k) (hkp : k ≤ p)
    (he : (L.log i)[p]? = some e) (he' : (L.log j)[p]? = some e') (ht : e.term = e'.term) :
    (L.log i)[k]? = (L.log j)[k]? := by
  obtain ⟨-, -, hq⟩ := h.canon i p e (hi.trans hkp) he
  obtain ⟨-, -, hq'⟩ := h.canon j p e' (hj.trans hkp) he'
  rw [hq k hi hkp, hq' k hj hkp, stamp_eq, stamp_eq, ht]

/-- The terms of two whole logs at an index that both show, below an index where they are equal. -/
theorem termAt_below {L : Ledger Nat LogEntry Int} (h : L.WF (majority n)) {i j k m : Nat}
    (hi : L.base i < k) (hj : L.base j < k) (hkm : k < m) (hmi : m ≤ (L.log i).length)
    (hmj : m ≤ (L.log j).length) (ht : termAt (L.log i) m = termAt (L.log j) m) :
    termAt (L.log i) k = termAt (L.log j) k := by
  obtain ⟨p, rfl⟩ : ∃ p, m = p+1 := ⟨m-1, by omega⟩
  obtain ⟨q, rfl⟩ : ∃ q, k = q+1 := ⟨k-1, by omega⟩
  have hpi := List.getElem?_eq_getElem (l := L.log i) (i := p) (by omega)
  have hpj := List.getElem?_eq_getElem (l := L.log j) (i := p) (by omega)
  have hqi := List.getElem?_eq_getElem (l := L.log i) (i := q) (by omega)
  rw [termAt_succ hpi, termAt_succ hpj] at ht
  have hsame := same_below h (k := q) (by omega) (by omega) (by omega) hpi hpj ht
  rw [termAt_succ hqi, termAt_succ (hsame.symm.trans hqi)]

/-- The reached state of two nodes. -/
theorem Sound.matches {E : Record} {G : Ghost} {c : Cluster σ} (h : Sound n svc E G c) {i j : Nat} (hi : i < n)
    (hj : j < n) {x : Int}
    (hx : AboveOrCommitted ((c.nodes i).image n i) ((c.nodes j).image n j) x) :
    Matches ((c.nodes i).image n i) ((c.nodes j).image n j) x := by
  have hni := h.inv.node i hi
  have hnj := h.inv.node j hj
  have hsi := hni.shows
  have hsj := hnj.shows
  intro y hxy hxi hxj hyi hyj hterm
  obtain ⟨k, rfl, hki, hkli⟩ := hsi.mem_range.mp hxi
  obtain ⟨k', hk', hkj, hklj⟩ := hsj.mem_range.mp hxj
  obtain rfl : k = k' := by omega
  obtain ⟨m, rfl, hmi, hmli⟩ := hsi.mem_range.mp hyi
  obtain ⟨m', hm', hmj, hmlj⟩ := hsj.mem_range.mp hyj
  obtain rfl : m = m' := by omega
  have hti : ∀ z : Nat, G.L.base i ≤ z → z ≤ (G.L.log i).length →
      (((c.nodes i).image n i).logAt z).term = termAt (G.L.log i) z :=
    fun z hb hz => hsi.entryAt_term hb hz
  have htj : ∀ z : Nat, G.L.base j ≤ z → z ≤ (G.L.log j).length →
      (((c.nodes j).image n j).logAt z).term = termAt (G.L.log j) z :=
    fun z hb hz => hsj.entryAt_term hb hz
  rw [hti k hki hkli, htj k hkj hklj]
  rw [hti m hmi hmli, htj m hmj hmlj] at hterm
  rcases hx with ⟨hai, haj⟩ | ⟨hci, hcj⟩
  · have hbi : ((c.nodes i).image n i).snapshotIndex = (G.L.base i : Int) := hsi.index
    have hbj : ((c.nodes j).image n j).snapshotIndex = (G.L.base j : Int) := hsj.index
    exact termAt_below h.inv.wf (by omega) (by omega) (by omega) hmli hmlj hterm
  · -- what both committed is settled in both
    obtain ⟨ci, hcie, hseti⟩ := hni.commit
    obtain ⟨cj, hcje, hsetj⟩ := hnj.commit
    have hcie' : ((c.nodes i).image n i).commitIndex = (ci : Int) := hcie
    have hcje' : ((c.nodes j).image n j).commitIndex = (cj : Int) := hcje
    have hag := h.inv.wf.settled_agree hseti hsetj
    exact termAt_of_take hag (le_min (by omega) (by omega))

variable [DecidableEq σ]

theorem coversAll_all (c : Cluster σ) (evs : List Event) : CoversAll n svc .all c evs := by
  induction evs generalizing c with
  | nil => trivial
  | cons e evs ih =>
    exact ⟨⟨fun _ _ => trivial, fun _ _ _ _ _ _ _ _ _ => trivial, fun _ _ _ _ => trivial,
      fun _ _ _ _ _ _ _ _ _ => trivial⟩, ih _⟩

/-- An installed snapshot keeps what follows it as it stands. Two logs that agree on a term at one index agree
on the terms below it, but for an index that is the sentinel of one and not committed by the other. -/
theorem logs_match (n : Nat) (svc : Service σ) :
    (∀ (r : Raft) (args : InstallSnapshotArgs) (blob : Bytes), r.snapshotIndex ≤ r.lastApplied →
      r.installStale args = false →
        (r.installCommit args blob).1.logs = sentinel args.lastIncludedTerm args.lastIncludedIndex ::
          r.logs.drop ((args.lastIncludedIndex - r.snapshotIndex).toNat + 1)) ∧
    ∀ evs : List Event, (∀ e ∈ evs, e.isStatic = true) → ∀ i < n, ∀ j < n, ∀ x : Int,
      AboveOrCommitted (((Cluster.run n svc evs).nodes i).image n i)
          (((Cluster.run n svc evs).nodes j).image n j) x →
        Matches (((Cluster.run n svc evs).nodes i).image n i)
          (((Cluster.run n svc evs).nodes j).image n j) x := by
  refine ⟨fun r args blob hr h => Raft.logs_installCommit blob hr h, fun evs hstatic i hi j hj x hx => ?_⟩
  obtain ⟨G, h⟩ := sound_run svc .all hstatic (coversAll_all _ evs)
  exact h.matches hi hj hx

end

/-- A state machine without state. -/
def unitService : Service Unit := ⟨(), fun _ _ => (), fun _ => ()⟩

/-- Node 0 of five leads term 1 and replicates three entries to node 1 alone. Node 2 leads term 2, commits one
entry of it with nodes 3 and 4, takes a snapshot of it, and node 1 installs the snapshot. -/
def splicedRun : List Event :=
  [.electionTimeout 0 200, .deliver 0 200, .deliver 1 200, .answer 0 200, .answer 1 200,
    .runTask 0 0 200, .runTask 0 0 200, .deliver 4 200, .deliver 5 200, .answer 2 200, .answer 3 200,
    .start 0 [], .start 0 [], .start 0 [], .replicate 0 1 200, .deliver 8 200,
    .electionTimeout 2 400, .deliver 11 400, .deliver 12 400, .answer 5 400, .answer 6 400,
    .runTask 2 0 400, .runTask 2 0 400, .deliver 15 400, .deliver 16 400, .answer 7 400, .answer 8 400,
    .start 2 [], .replicate 2 3 400, .replicate 2 4 400, .deliver 17 400, .deliver 18 400,
    .answer 9 400, .answer 10 400, .applyLoop 2 400, .consume 2, .takeSnapshot 2 1 [],
    .runTask 2 1 400, .runTask 2 1 400, .replicate 2 1 400, .deliver 19 400, .runTask 1 0 400,
    .runTask 1 0 400]

/-- Nodes 0 and 1 agree on the entry at 3, hence on the one at 2. -/
theorem logs_match_spliced :
    Matches (((Cluster.run 5 unitService splicedRun).nodes 0).image 5 0)
      (((Cluster.run 5 unitService splicedRun).nodes 1).image 5 1) 2 ∧
    (((Cluster.run 5 unitService splicedRun).nodes 1).image 5 1).snapshotIndex = 1 :=
  ⟨(logs_match 5 unitService).2 splicedRun (by decide) 0 (by decide) 1 (by decide) 2
    (.inl (by decide +kernel)), by decide +kernel⟩

/-- The sentinel that node 1 installed is of term 2, its entry there was of term 1 as that of node 0 still is;
the entries after it are those of node 0. -/
theorem spliced_mismatch :
    (∀ e ∈ splicedRun, e.isStatic = true) ∧
    ¬ Matches (((Cluster.run 5 unitService splicedRun).nodes 0).image 5 0)
      (((Cluster.run 5 unitService splicedRun).nodes 1).image 5 1) 1 := by
  refine ⟨by decide, fun h => ?_⟩
  exact absurd (h 2 (by decide) (by decide +kernel) (by decide +kernel) (by decide +kernel)
    (by decide +kernel) (by decide +kernel)) (by decide +kernel)

end ChonKV
