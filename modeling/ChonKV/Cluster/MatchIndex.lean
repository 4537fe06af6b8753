import ChonKV.Cluster.LogMatching

/-!
What a leader believes of the logs of the others. An acknowledgement is of entries that the node
then has, or of a settled prefix that it committed; both stay with it as long as it is in the term.
-/

set_option autoImplicit false

namespace ChonKV

open Ballot Ballot.Ledger

/-- `logs_` has an entry at `x`, which is not the sentinel. -/
def Raft.hasEntry (r : Raft) (x : Int) : Prop := r.snapshotIndex < x ∧ r.inLogs x

instance (r : Raft) (x : Int) : Decidable (r.hasEntry x) := by
  unfold Raft.hasEntry
  infer_instance

/-- What `q` has at `x` is what the leader `r` logged there, or committed. -/
def Raft.Tells (r q : Raft) (x : Int) : Prop :=
  q.hasEntry x ∧ ((q.state = .kLeader ∧ q.currentTerm = r.currentTerm) ∨
    (x ≤ r.commitIndex ∧ x ≤ q.commitIndex))

instance (r q : Raft) (x : Int) : Decidable (r.Tells q x) := by
  unfold Raft.Tells
  infer_instance

section
variable {σ : Type} {n : Nat} {svc : Service σ}

/-- Node `i`, or what a restart would bring up from the disk that it left. -/
def Cluster.raft (c : Cluster σ) (n i : Nat) : Raft := (c.nodes i).image n i

variable {E : Record} {G G' : Ghost} {c d : Cluster σ} {i j s : Nat} {x : Int}

theorem Sound.nodeInv (h : Sound n svc E G c) (hi : i < n) : NodeInv n G i (c.raft n i).core :=
  h.inv.node i hi

/-- An entry of `logs_` is that of the whole log. -/
theorem Sound.entry (h : Sound n svc E G c) (hi : i < n) (hx : (c.raft n i).hasEntry x) :
    ∃ p : Nat, x = p+1 ∧ (G.L.log i)[p]? = some ((c.raft n i).logAt x) := by
  have hsh := (h.nodeInv hi).shows
  obtain ⟨hlt, hin⟩ := hx
  have hb : (c.raft n i).snapshotIndex = G.L.base i := hsh.index
  obtain ⟨k, rfl, -, hkl⟩ := hsh.mem_range.mp hin
  obtain ⟨p, rfl⟩ : ∃ p, k = p+1 := ⟨k-1, by omega⟩
  have hp := List.getElem?_eq_getElem (l := G.L.log i) (i := p) (by omega)
  have he : (c.raft n i).logAt ((p+1 : Nat) : Int) = (G.L.log i)[p] := hsh.entryAt_eq (by omega) hp
  exact ⟨p, by push_cast; rfl, by rw [he, hp]⟩

/-- The log of a leader is the history of its term. -/
theorem Sound.leader_entry (h : Sound n svc E G c) (hi : i < n) (hl : (c.raft n i).state = .kLeader)
    (hx : (c.raft n i).hasEntry x) :
    ∃ p : Nat, x = p+1 ∧ (G.L.hist (c.raft n i).currentTerm)[p]? = some ((c.raft n i).logAt x) := by
  have hlog : G.L.log i = G.L.hist (c.raft n i).currentTerm := ((h.nodeInv hi).leads hl).log
  rw [← hlog]
  exact h.entry hi hx

/-- A follower of the leader's term has what the leader counts on. -/
theorem Sound.held (h : Sound n svc E G c) (hi : i < n) (hs : s < n)
    (hl : (c.raft n i).state = .kLeader) (hT : (c.raft n s).currentTerm = (c.raft n i).currentTerm)
    (hx : x ≤ (c.raft n i).matchIndex.getD s 0) : x ≤ (c.raft n s).snapshotIndex ∨
      (c.raft n s).hasEntry x ∧ ∃ p : Nat, x = p+1 ∧
        (G.L.hist (c.raft n i).currentTerm)[p]? = some ((c.raft n s).logAt x) := by
  have leads := (h.nodeInv hi).leads hl
  obtain ⟨m, hm, hack⟩ := leads.matched s
  have hm' : (c.raft n i).matchIndex.getD s 0 = m := hm
  have hsh := (h.nodeInv hs).shows
  have htake : (G.L.log s).take m = (G.L.hist (c.raft n i).currentTerm).take m :=
    hack.take_eq h.inv.wf leads.opened ((h.nodeInv hs).term.trans hT)
  have hlen := length_of_take htake (hack.le_hist h.inv.wf leads.opened)
  by_cases hle : x ≤ (c.raft n s).snapshotIndex
  · exact .inl hle
  · have hb : (c.raft n s).snapshotIndex = G.L.base s := hsh.index
    have hin : (c.raft n s).hasEntry x :=
      ⟨not_le.mp hle, hsh.mem_range.mpr ⟨x.toNat, by omega, by omega, by omega⟩⟩
    obtain ⟨p, rfl, he⟩ := h.entry hs hin
    refine .inr ⟨hin, p, rfl, ?_⟩
    rw [← getElem?_of_take htake (by omega)]
    exact he

/-- What a leader of the term logged, or nodes committed, is the entry of the history of the term. -/
theorem Sound.told (h : Sound n svc E G c) (h' : Sound n svc E G' d) {G₁ : Ghost}
    (hwf : G₁.L.WF (majority n)) (hle : G.Le E G₁) (hle' : G'.Le E G₁) (hi : i < n) (hj : j < n)
    (hl : (c.raft n i).state = .kLeader) (hq : (c.raft n i).Tells (d.raft n j) x) {p : Nat} (hx : x = p+1)
    {e : LogEntry} (he : (G.L.hist (c.raft n i).currentTerm)[p]? = some e) :
    e = (d.raft n j).logAt x := by
  have leads := (h.nodeInv hi).leads hl
  have hget := (List.getElem?_eq_some_iff.mp he).1
  obtain ⟨hlog, ⟨hl', hT⟩ | ⟨hc, hc'⟩⟩ := hq
  · obtain ⟨p', hp', he'⟩ := h'.leader_entry hj hl' hlog
    obtain rfl : p = p' := by omega
    rw [hT] at he'
    have hget' := (List.getElem?_eq_some_iff.mp he').1
    rw [← hle.ext.hist_get hget] at he
    rw [← hle'.ext.hist_get hget', he] at he'
    exact Option.some.inj he'
  · -- what both committed is settled
    obtain ⟨k, hk, hset⟩ := (h.nodeInv hi).commit
    obtain ⟨k', hk', hset'⟩ := (h'.nodeInv hj).commit
    have hck : (c.raft n i).commitIndex = k := hk
    have hck' : (d.raft n j).commitIndex = k' := hk'
    obtain ⟨p', hp', he'⟩ := h'.entry hj hlog
    obtain rfl : p = p' := by omega
    have hag := hwf.settled_agree (hset.ext hle.ext) (hset'.ext hle'.ext)
    have hsame := getElem?_of_take hag (p := p) (by omega)
    have hlead : G.L.log i = G.L.hist (c.raft n i).currentTerm := leads.log
    rw [hlead, he, he'] at hsame
    exact Option.some.inj hsame

variable [DecidableEq σ]

/-- Two states of one run. -/
theorem sound_take (svc : Service σ) (E : Record) {evs : List Event}
    (hstatic : ∀ e ∈ evs, e.isStatic = true) (hc : ∀ c es, CoversAll n svc E c es) {a b : Nat} (hab : a ≤ b) :
    ∃ G G', G.Le E G' ∧ Sound n svc E G (.run n svc (evs.take a)) ∧
      Sound n svc E G' (.run n svc (evs.take b)) := by
  obtain ⟨G, h⟩ := sound_run svc E (fun e he => hstatic e (List.mem_of_mem_take he)) (hc _ (evs.take a))
  have hrest : ∀ e ∈ (evs.take b).drop a, e.isStatic = true :=
    fun e he => hstatic e (List.mem_of_mem_take (List.mem_of_mem_drop he))
  obtain ⟨G', hle, h'⟩ := h.steps hrest (hc _ _)
  rw [← Cluster.run_take svc evs hab] at h'
  exact ⟨G, G', hle, h, h'⟩

/-- Node `i` after the first `a` events. -/
def nodeAfter (n : Nat) (svc : Service σ) (evs : List Event) (a i : Nat) : Raft :=
  (Cluster.run n svc (evs.take a)).raft n i

/-- What a leader counts on is in its own log, and a follower of its term has it: below its snapshot, or as the
entry that a leader of the term logs there at any time of the run, or that the leader and another node commit. -/
theorem match_sound (svc : Service σ) {evs : List Event} (hstatic : ∀ e ∈ evs, e.isStatic = true) (a b : Nat)
    (hi : i < n) (hs : s < n) (hl : (nodeAfter n svc evs a i).state = .kLeader) :
    (nodeAfter n svc evs a i).matchIndex.getD s 0 ≤ (nodeAfter n svc evs a i).lastLogIndexLocked ∧
      ((nodeAfter n svc evs a s).currentTerm = (nodeAfter n svc evs a i).currentTerm →
        ∀ x ≤ (nodeAfter n svc evs a i).matchIndex.getD s 0,
          x ≤ (nodeAfter n svc evs a s).snapshotIndex ∨ (nodeAfter n svc evs a s).hasEntry x ∧
            ∀ j < n, (nodeAfter n svc evs a i).Tells (nodeAfter n svc evs b j) x →
              (nodeAfter n svc evs a s).logAt x = (nodeAfter n svc evs b j).logAt x) := by
  obtain ⟨G, G', G₁, hwf, hle, hle', h, h'⟩ : ∃ G G' G₁ : Ghost, G₁.L.WF (majority n) ∧ G.Le .all G₁ ∧
      G'.Le .all G₁ ∧ Sound n svc .all G (.run n svc (evs.take a)) ∧
        Sound n svc .all G' (.run n svc (evs.take b)) := by
    rcases le_total a b with hab | hba
    · obtain ⟨G, G', hle, h, h'⟩ := sound_take svc .all hstatic coversAll_all hab
      exact ⟨G, G', G', h'.inv.wf, hle, Ghost.Le.refl .all G', h, h'⟩
    · obtain ⟨G', G, hle, h', h⟩ := sound_take svc .all hstatic coversAll_all hba
      exact ⟨G, G', G, h.inv.wf, Ghost.Le.refl .all G, hle, h, h'⟩
  have hat : At n svc .all G _ i (nodeAfter n svc evs a i).frame := h.at hi
  refine ⟨(hat.match_le hl s).2, fun hT x hx => ?_⟩
  rcases h.held hi hs hl hT hx with hsnap | ⟨hin, p, hp, he⟩
  · exact .inl hsnap
  · exact .inr ⟨hin, fun j hj hq => h.told h' hwf hle hle' hi hj hl hq hp he⟩

end

/-- Node 2 leads term 2, and cut the entry at 1 off behind its snapshot. Node 3 has that entry still, as node 2
had it before. -/
theorem match_sound_spliced :
    (nodeAfter 5 unitService splicedRun 43 2).snapshotIndex = 1 ∧
    (nodeAfter 5 unitService splicedRun 43 3).logAt 1 = (nodeAfter 5 unitService splicedRun 34 2).logAt 1 := by
  have hstatic : ∀ e ∈ splicedRun, e.isStatic = true := by decide
  have h := (match_sound (n := 5) unitService hstatic 43 34 (i := 2) (s := 3) (by decide) (by decide)
    (by decide +kernel)).2 (by decide +kernel) 1 (by decide +kernel)
  refine ⟨by decide +kernel, ?_⟩
  rcases h with hle | ⟨-, h⟩
  · exact absurd hle (by decide +kernel)
  · exact h 2 (by decide) (by decide +kernel)

end ChonKV
