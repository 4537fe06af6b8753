import ChonKV.Ballot.History
import ChonKV.Cluster.MatchIndex

/-!
The one history behind a run of a cluster: whatever a node commits, dispatches, installs or shows to
its upper layer is a beginning of it, and a leader has what was ever committed below its term.
-/

set_option autoImplicit false

namespace ChonKV

open Ballot Ballot.Ledger

instance : Nonempty LogEntry := ⟨sentinel 0 0⟩

/-- What every node of the cluster shows of its log is a beginning of `H`. -/
structure Cluster.Follows {σ : Type} (c : Cluster σ) (n : Nat) (H : Nat → LogEntry) : Prop where
  dispatched : ∀ d ∈ c.dispatched, ∃ p : Nat, d.2.index = p+1 ∧ d.2 = H p
  installed : ∀ d ∈ c.installed, ∃ p : Nat, d.2.snapshotIndex = p+1 ∧ d.2.snapshotTerm = (H p).term
  committed : ∀ i < n, ∀ x : Int, (c.raft n i).hasEntry x → x ≤ (c.raft n i).commitIndex →
    ∃ p : Nat, x = p+1 ∧ (c.raft n i).logAt x = H p
  compacted : ∀ i < n, 0 < (c.raft n i).snapshotIndex →
    ∃ p : Nat, (c.raft n i).snapshotIndex = p+1 ∧ (c.raft n i).snapshotTerm = (H p).term

/-- What the upper layers are given and go through is the state after a beginning of `H`. -/
structure Cluster.Replays {σ : Type} (c : Cluster σ) (n : Nat) (svc : Service σ) (H : Nat → LogEntry) :
    Prop where
  installed : ∀ d ∈ c.installed, svc.load d.2.snapshot = replay svc (firsts H d.2.snapshotIndex.toNat)
  states : ∀ i < n, (c.nodes i).raft.killed = false → ∀ x ∈ (c.nodes i).states,
    x.2 = replay svc (firsts H x.1.toNat)

section
variable {σ : Type} {n : Nat} {svc : Service σ} {E : Record} {G G' : Ghost} {c : Cluster σ} {i j : Nat}

/-- The term of a settled prefix is that of the last entry of the history before its end. -/
theorem settled_term (hwf : G.L.WF (majority n)) {l : List LogEntry} {k : Nat} {T : Int} (hk : 0 < k)
    (hs : G.L.Settled (majority n) l k T) : termAt l k = (G.L.history (majority n) (k-1)).term := by
  have htake := hwf.settled_history hs
  obtain ⟨p, rfl⟩ : ∃ p, k = p+1 := ⟨k-1, by omega⟩
  have hget : l[p]? = some (G.L.history (majority n) p) := by
    have hf := firsts_get (G.L.history (majority n)) (Nat.lt_succ_self p)
    rw [← htake, List.getElem?_take_of_lt (Nat.lt_succ_self p)] at hf
    exact hf
  rw [termAt_succ hget, Nat.add_sub_cancel]

theorem SnapOK.history (hwf : G.L.WF (majority n)) {x t : Int} {raw : Bytes} {T : Int}
    (h : SnapOK n svc E G x t raw T) :
    (∃ p : Nat, x = p+1 ∧ t = (G.L.history (majority n) p).term) ∧
      (E.intact → svc.load raw = replay svc (firsts (G.L.history (majority n)) x.toNat)) := by
  obtain ⟨l, k, rfl, h0, hs, ht, hc⟩ := h
  refine ⟨⟨k-1, by omega, ht.trans (settled_term hwf h0 hs)⟩, fun hint => ?_⟩
  rw [(hc hint).2, hwf.settled_history hs, Int.toNat_natCast]

/-- What a node committed and still has is that of the history. -/
theorem Sound.committed_entry (h : Sound n svc E G c) (hi : i < n) {x : Int}
    (hx : (c.raft n i).hasEntry x) (hc : x ≤ (c.raft n i).commitIndex) :
    ∃ p : Nat, x = p+1 ∧ (G.L.log i)[p]? = some ((c.raft n i).logAt x) ∧
      G.L.Settled (majority n) (G.L.log i) (p+1) (c.raft n i).currentTerm := by
  obtain ⟨p, rfl, he⟩ := h.entry hi hx
  obtain ⟨k, hk, hs⟩ := (h.nodeInv hi).commit
  have hck : (c.raft n i).commitIndex = k := hk
  have hT : G.L.term i = (c.raft n i).currentTerm := (h.nodeInv hi).term
  exact ⟨p, rfl, he, hT ▸ hs.mono (by omega) le_rfl⟩

/-- A state of a run seen from a later one. -/
theorem Sound.follows (h : Sound n svc E G c) (hle : G.Le E G') (hwf : G'.L.WF (majority n)) :
    c.Follows n (G'.L.history (majority n)) where
  dispatched d hd := by
    obtain ⟨l, k, T, hs, he⟩ := h.dispatched d hd
    have htake := hwf.settled_history (hs.ext hle.ext)
    have hf := firsts_get (G'.L.history (majority n)) (Nat.lt_succ_self k)
    rw [← htake, List.getElem?_take_of_lt (Nat.lt_succ_self k), he] at hf
    exact ⟨k, (h.inv.settled_mem hs he (Nat.lt_succ_self k)).2, Option.some.inj hf⟩
  installed d hd := by
    obtain ⟨T, hs⟩ := h.installed d hd
    exact ((hs.mono hle le_rfl).history hwf).1
  committed i hi x hx hc := by
    obtain ⟨p, rfl, he, hs⟩ := h.committed_entry hi hx hc
    have htake := hwf.settled_history (hs.ext hle.ext)
    have hf := firsts_get (G'.L.history (majority n)) (Nat.lt_succ_self p)
    rw [← htake, List.getElem?_take_of_lt (Nat.lt_succ_self p), he] at hf
    exact ⟨p, rfl, Option.some.inj hf⟩
  compacted i hi h0 := ((((h.ok i hi).data h0).mono hle le_rfl).history hwf).1

theorem Sound.replays (h : Sound n svc E G c) (hle : G.Le E G') (hwf : G'.L.WF (majority n))
    (hint : E.intact) : c.Replays n svc (G'.L.history (majority n)) where
  installed d hd := by
    obtain ⟨T, hs⟩ := h.installed d hd
    exact ((hs.mono hle le_rfl).history hwf).2 hint
  states i hi hk x hx := by
    obtain ⟨l, k, T, hxk, hs, hst⟩ := ((h.nodes i hi).feed hk).states hint x hx
    rw [hst, hxk, Int.toNat_natCast, hwf.settled_history (hs.ext hle.ext)]

/-- A leader has what its term has. -/
theorem Sound.leader_has (h : Sound n svc E G c) (hj : j < n) (hl : (c.raft n j).state = .kLeader)
    {p : Nat} {e : LogEntry} (he : (G.L.hist (c.raft n j).currentTerm)[p]? = some e) :
    (p : Int) + 1 ≤ (c.raft n j).snapshotIndex ∨
      (c.raft n j).hasEntry (p+1) ∧ (c.raft n j).logAt (p+1) = e := by
  have hlog : G.L.log j = G.L.hist (c.raft n j).currentTerm := ((h.nodeInv hj).leads hl).log
  have hsh := (h.nodeInv hj).shows
  have hb : (c.raft n j).snapshotIndex = G.L.base j := hsh.index
  rw [← hlog] at he
  have hlt := (List.getElem?_eq_some_iff.mp he).1
  by_cases hle : (p : Int) + 1 ≤ (c.raft n j).snapshotIndex
  · exact .inl hle
  · have hin : (c.raft n j).hasEntry (p+1) :=
      ⟨not_le.mp hle, hsh.mem_range.mpr ⟨p+1, by push_cast; rfl, by omega, by omega⟩⟩
    have hat : (c.raft n j).logAt (p+1) = e := hsh.entryAt_eq (by omega) he
    exact .inr ⟨hin, hat⟩

variable [DecidableEq σ]

/-- Every state of a run lies before its end. -/
theorem Sound.along {es : List Event} (h : Sound n svc E G c) (hstatic : ∀ e ∈ es, e.isStatic = true)
    (hc : CoversAll n svc E c es) :
    ∃ G', G.Le E G' ∧ G'.L.WF (majority n) ∧ ∀ a, ∃ G₁, G.Le E G₁ ∧ G₁.Le E G' ∧
      Sound n svc E G₁ ((es.take a).foldl (Cluster.step n svc) c) := by
  induction es generalizing G c with
  | nil => exact ⟨G, .refl E G, h.inv.wf, fun a => ⟨G, .refl E G, .refl E G, by simpa using h⟩⟩
  | cons e es ih =>
    obtain ⟨G₁, hle₁, h₁⟩ := h.step (hstatic e List.mem_cons_self) hc.1
    obtain ⟨G', hle', hwf, hall⟩ := ih h₁ (fun e' he' => hstatic e' (List.mem_cons_of_mem e he')) hc.2
    refine ⟨G', hle₁.trans hle', hwf, fun a => ?_⟩
    cases a with
    | zero => exact ⟨G, .refl E G, hle₁.trans hle', h⟩
    | succ a =>
      obtain ⟨G₂, hle₂, hle₃, h₂⟩ := hall a
      exact ⟨G₂, hle₁.trans hle₂, hle₃, h₂⟩

/-- The snapshots that the upper layer takes in a run, and the buffers that its nodes put together. -/
def Record.ofRun (n : Nat) (svc : Service σ) (evs : List Event) : Record where
  led _ _ := True
  relapsed _ := True
  taken data := ∃ i index, Event.takeSnapshot i index data ∈ evs
  assembled buf := ∃ a k now p args, evs[a]? = some (.deliver k now) ∧
    (Cluster.run n svc (evs.take a)).packets[k]? = some p ∧ p.rpc = .install args ∧
    (((Cluster.run n svc (evs.take a)).nodes p.dst).raft.installSnapshot args now).2.2 = some buf

theorem coversAll_ofRun (svc : Service σ) (evs : List Event) :
    CoversAll n svc (.ofRun n svc evs) (.init n svc) evs := by
  suffices h : ∀ es pre, pre ++ es = evs →
      CoversAll n svc (.ofRun n svc evs) (.run n svc pre) es from h evs [] rfl
  intro es
  induction es with
  | nil => exact fun _ _ => trivial
  | cons e es ih =>
    intro pre heq
    have hget : evs[pre.length]? = some e := by simp [← heq]
    have htake : evs.take pre.length = pre := by simp [← heq]
    refine ⟨⟨fun _ _ => trivial, fun _ _ _ _ _ _ _ _ _ => trivial, fun i index data he => ?_,
      fun k now p args buf he hp hrpc hbuf => ?_⟩, ?_⟩
    · exact ⟨i, index, he ▸ List.mem_of_getElem? hget⟩
    · exact ⟨pre.length, k, now, p, args, he ▸ hget, by rwa [htake], hrpc, by rwa [htake]⟩
    · have hnext := ih (pre ++ [e]) (by simp [← heq])
      rwa [Cluster.run_append] at hnext

/-- State machine safety. There is one history that all nodes commit, dispatch and compact beginnings of, at any
time of the run; and where no checksum took one snapshot for another, every state of an upper layer is the one
after a beginning of it, whether it came from entries or from snapshots. -/
theorem one_history (n : Nat) (svc : Service σ) {evs : List Event} (hstatic : ∀ e ∈ evs, e.isStatic = true) :
    ∃ H : Nat → LogEntry, ∀ a, (Cluster.run n svc (evs.take a)).Follows n H ∧
      ((Record.ofRun n svc evs).intact → (Cluster.run n svc (evs.take a)).Replays n svc H) := by
  obtain ⟨G, -, hwf, hall⟩ := (sound_init n svc _).along hstatic (coversAll_ofRun svc evs)
  refine ⟨G.L.history (majority n), fun a => ?_⟩
  obtain ⟨G₁, -, hle, h⟩ := hall a
  exact ⟨h.follows hle hwf, h.replays hle hwf⟩

/-- Leader completeness: whatever a node committed at any time of a run, a leader of a higher term has at any time
of the run, and so has a later leader of the same term. -/
theorem leader_complete (svc : Service σ) {evs : List Event} (hstatic : ∀ e ∈ evs, e.isStatic = true)
    {a b : Nat} (hi : i < n) (hj : j < n) {x : Int} (hx : (nodeAfter n svc evs a i).hasEntry x)
    (hc : x ≤ (nodeAfter n svc evs a i).commitIndex) (hl : (nodeAfter n svc evs b j).state = .kLeader)
    (hT : (nodeAfter n svc evs a i).currentTerm < (nodeAfter n svc evs b j).currentTerm ∨
      (a ≤ b ∧ (nodeAfter n svc evs a i).currentTerm = (nodeAfter n svc evs b j).currentTerm)) :
    x ≤ (nodeAfter n svc evs b j).snapshotIndex ∨ (nodeAfter n svc evs b j).hasEntry x ∧
      (nodeAfter n svc evs b j).logAt x = (nodeAfter n svc evs a i).logAt x := by
  rcases le_or_gt a b with hab | hba
  · obtain ⟨G, G', hle, h, h'⟩ := sound_take svc .all hstatic coversAll_all hab
    obtain ⟨p, rfl, he, hs⟩ := h.committed_entry hi hx hc
    have hopen := ((h'.nodeInv hj).leads hl).opened
    have hTle : (nodeAfter n svc evs a i).currentTerm ≤ (nodeAfter n svc evs b j).currentTerm := by
      rcases hT with hlt | ⟨-, heq⟩
      · exact hlt.le
      · exact heq.le
    have htake := h'.inv.wf.settled_hist ((hs.ext hle.ext).mono le_rfl hTle) hopen
    exact h'.leader_has hj hl ((getElem?_of_take htake (Nat.lt_succ_self p)).symm.trans he)
  · -- the leader came first: what is settled below its term it had already
    obtain ⟨G', G, hle, h', h⟩ := sound_take svc .all hstatic coversAll_all hba.le
    obtain ⟨p, rfl, he, hs⟩ := h.committed_entry hi hx hc
    have hopen := ((h'.nodeInv hj).leads hl).opened
    have hlt : (nodeAfter n svc evs a i).currentTerm < (nodeAfter n svc evs b j).currentTerm := by
      rcases hT with hlt | ⟨hab, -⟩
      · exact hlt
      · omega
    have htake := h'.inv.wf.settled_below hle.ext hs hopen hlt
    exact h'.leader_has hj hl ((getElem?_of_take htake (Nat.lt_succ_self p)).symm.trans he)

end

/-- Node 0 of three leads term 1, commits one entry with node 1 and dispatches it; node 1, which knows nothing of
the commit, leads term 2. -/
def takeoverRun : List Event :=
  [.electionTimeout 0 200, .deliver 0 200, .answer 0 200, .runTask 0 0 200, .runTask 0 0 200, .deliver 2 200,
    .answer 1 200, .start 0 [], .replicate 0 1 200, .deliver 4 200, .answer 2 200, .applyLoop 0 200,
    .electionTimeout 1 400, .deliver 6 400, .answer 3 400, .runTask 1 0 400, .runTask 1 0 400, .deliver 8 400,
    .answer 4 400]

/-- What node 0 dispatched is the entry that it committed. -/
theorem one_history_takeover : (Cluster.run 3 unitService takeoverRun).dispatched ≠ [] ∧
    ∀ d ∈ (Cluster.run 3 unitService takeoverRun).dispatched,
      d.2 = (nodeAfter 3 unitService takeoverRun 11 0).logAt 1 := by
  have hstatic : ∀ e ∈ takeoverRun, e.isStatic = true := by decide
  obtain ⟨H, hH⟩ := one_history 3 unitService hstatic
  obtain ⟨p, hp, he⟩ := (hH 11).1.committed 0 (by decide) 1 (by decide +kernel) (by decide +kernel)
  have hfirst : ∀ d ∈ (Cluster.run 3 unitService takeoverRun).dispatched, d.2.index = 1 := by decide +kernel
  refine ⟨by decide +kernel, fun d hd => ?_⟩
  obtain ⟨q, hq, hd'⟩ := (hH 19).1.dispatched d hd
  have hidx := hfirst d hd
  obtain rfl : p = q := by omega
  exact hd'.trans he.symm

/-- Node 1 has the entry, which node 0 committed before. -/
theorem leader_complete_takeover : (nodeAfter 3 unitService takeoverRun 19 1).logAt 1 =
    (nodeAfter 3 unitService takeoverRun 11 0).logAt 1 := by
  have hstatic : ∀ e ∈ takeoverRun, e.isStatic = true := by decide
  have h := leader_complete (n := 3) unitService hstatic (a := 11) (b := 19) (i := 0) (j := 1) (x := 1)
    (by decide) (by decide) (by decide +kernel) (by decide +kernel) (by decide +kernel)
    (.inl (by decide +kernel))
  rcases h with hle | ⟨-, heq⟩
  · exact absurd hle (by decide +kernel)
  · exact heq

end ChonKV
