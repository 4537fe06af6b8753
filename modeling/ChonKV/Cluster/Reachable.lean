import ChonKV.Cluster.Network

/-!
The invariant of a cluster with a static membership and the memory back end. A node that is down
stands for what its disk would bring up.
-/

set_option autoImplicit false

namespace ChonKV

open Ballot Ballot.Ledger
open Function (update)

section
variable {σ : Type}

/-- The `Raft` object of a node, or the one that would come up from what a crash kept. -/
def Server.image (n i : Nat) (s : Server σ) : Raft :=
  if s.raft.killed then Raft.make n i s.saved 0 else s.raft

def Cluster.frames (c : Cluster σ) (n i : Nat) : Frame := ((c.nodes i).image n i).frame

def Cluster.cores (c : Cluster σ) (n i : Nat) : Core := (c.frames n i).toCore

theorem Server.image_alive {n i : Nat} {s : Server σ} (h : s.raft.killed = false) :
    s.image n i = s.raft := by
  simp [Server.image, h]

/-- An index that `Start` gave out is taken. -/
def Taken (G : Ghost) (x : StartResult) : Prop :=
  x.isLeader = true → ∃ m : Nat, x.index = m + 1 ∧ m < (G.L.hist x.term).length

theorem Taken.mono {E : Record} {G G' : Ghost} {x : StartResult} (h : Taken G x) (hle : G.Le E G') :
    Taken G' x := by
  intro hl
  obtain ⟨m, hm, hlt⟩ := h hl
  exact ⟨m, hm, hlt.trans_le (hle.ext.hist_length _)⟩

/-- Two calls of `Start` that took a command gave out different places. -/
def Apart (x y : Nat × StartResult) : Prop :=
  x.2.isLeader = true → y.2.isLeader = true → ¬ (x.2.index = y.2.index ∧ x.2.term = y.2.term)

/-- An index given out now is not one that was given out before. -/
theorem Issued.apart {G G' : Ghost} {x : Nat × StartResult} {y : StartResult} (hx : Taken G x.2)
    (hy : Issued G G' y) (i : Nat) : Apart x (i, y) := by
  rintro hlx hly ⟨hidx, hterm⟩
  obtain ⟨m, hm, hlt⟩ := hx hlx
  obtain ⟨k, hk, hle, -⟩ := hy hly
  have hmk : m = k := by
    have hidx' : x.2.index = y.index := hidx
    omega
  have hterm' : x.2.term = y.term := hterm
  rw [hterm', hmk] at hlt
  omega

variable (n : Nat) (svc : Service σ) (E : Record)

/-- The invariant of a run. -/
structure Sound (G : Ghost) (c : Cluster σ) : Prop where
  inv : Inv n E G (c.cores n)
  ok : ∀ i < n, NodeOK n svc E G i (c.frames n i)
  nodes : ∀ i < n, ServerOK n svc E G (c.nodes i)
  packets : ∀ p ∈ c.packets, PacketOK n svc E G p
  answers : ∀ a ∈ c.answers, AnswerOK n svc E G a
  dispatched : ∀ d ∈ c.dispatched, DispatchOK n G d.2
  installed : ∀ d ∈ c.installed, PassedOK n svc E G d.2
  started : ∀ x ∈ c.started, Taken G x.2
  apart : c.started.Pairwise Apart

/-- How a stretch left the `Raft` object of `s`: down, or grown with `P`. -/
def Went (s : Server σ) (r' : Raft) (P : Prop) : Prop :=
  (s.raft.killed = true ∧ r'.killed = true) ∨
    (s.raft.killed = false ∧ Grows s.raft.frame r'.frame ∧ P)

variable {n svc E} {G G' : Ghost} {c : Cluster σ} {i : Nat}

theorem Went.grows {s : Server σ} {r' : Raft} {P : Prop} (h : Went s r' P) (hk : r'.killed = false) :
    s.raft.killed = false ∧ Grows s.raft.frame r'.frame := by
  rcases h with ⟨-, hk'⟩ | ⟨hs, hg, -⟩
  · rw [hk] at hk'
    cases hk'
  · exact ⟨hs, hg⟩

theorem Sound.at (h : Sound n svc E G c) (hi : i < n) : At n svc E G (c.cores n) i (c.frames n i) :=
  ⟨h.inv, rfl, hi, h.ok i hi⟩

theorem Sound.live (h : Sound n svc E G c) (hi : i < n) (hk : (c.nodes i).raft.killed = false) :
    At n svc E G (c.cores n) i (c.nodes i).raft.frame := by
  have hat := h.at hi
  rwa [Cluster.frames, Server.image_alive hk] at hat

theorem cores_put (c : Cluster σ) (n i : Nat) (e : Effect σ) :
    (c.put i e).cores n = update (c.cores n) i (e.node.image n i).frame.toCore := by
  funext j
  by_cases hj : j = i
  · subst hj
    simp [Cluster.cores, Cluster.frames, Cluster.put]
  · simp [Cluster.cores, Cluster.frames, Cluster.put, hj]

/-- Node `i` leaves the effect `e` behind. -/
theorem Sound.put (h : Sound n svc E G c) (hle : G.Le E G') {e : Effect σ}
    (hat : At n svc E G' (update (c.cores n) i (e.node.image n i).frame.toCore) i
      (e.node.image n i).frame) (left : Left n svc E G G' e) : Sound n svc E G' (c.put i e) where
  inv := by
    rw [cores_put]
    exact hat.inv
  ok j hj := by
    by_cases hji : j = i
    · subst hji
      simpa [Cluster.frames, Cluster.put] using hat.ok
    · simpa [Cluster.frames, Cluster.put, hji] using (h.ok j hj).mono hle
  nodes j hj := by
    by_cases hji : j = i
    · subst hji
      simpa [Cluster.put] using left.node
    · have hnode := (h.nodes j hj).next hle rfl rfl (fun hk => ⟨hk, Grows.refl _⟩)
        fun t ht => .inl ht
      simpa [Cluster.put, hji] using hnode
  packets p hp := by
    rcases List.mem_append.mp hp with hp | hp
    · exact (h.packets p hp).mono hle
    · exact left.packets p hp
  answers a ha := by
    rcases List.mem_append.mp ha with ha | ha
    · exact (h.answers a ha).mono hle
    · cases hk : e.node.raft.killed with
      | true => simp [hk] at ha
      | false => exact left.answers hk a (by simpa [hk] using ha)
  dispatched d hd := by
    rcases List.mem_append.mp hd with hd | hd
    · exact (h.dispatched d hd).mono hle
    · obtain ⟨x, hx, rfl⟩ := List.mem_map.mp hd
      exact left.dispatched x hx
  installed d hd := by
    rcases List.mem_append.mp hd with hd | hd
    · exact (h.installed d hd).mono hle
    · obtain ⟨x, hx, rfl⟩ := List.mem_map.mp hd
      exact left.installed x hx
  started x hx := by
    rcases List.mem_append.mp hx with hx | hx
    · exact (h.started x hx).mono hle
    · obtain ⟨y, hy, rfl⟩ := List.mem_map.mp hx
      rcases left.started with hnil | ⟨z, hz, hiss⟩
      · rw [hnil] at hy
        cases hy
      · rw [hz, List.mem_singleton] at hy
        subst hy
        intro hl
        obtain ⟨m, hm, -, hlt⟩ := hiss hl
        exact ⟨m, hm, hlt⟩
  apart := by
    show (c.started ++ e.started.map (Prod.mk i)).Pairwise Apart
    refine List.pairwise_append.mpr ⟨h.apart, ?_, fun x hx y hy => ?_⟩
    · rcases left.started with hnil | ⟨z, hz, -⟩
      · simp [hnil]
      · simp [hz]
    · rcases left.started with hnil | ⟨z, hz, hiss⟩
      · simp [hnil] at hy
      · simp only [hz, List.map_cons, List.map_nil, List.mem_singleton] at hy
        subst hy
        exact hiss.apart (h.started x hx) i

/-- A stretch of node `i`, whether the node is up or down. -/
theorem Sound.stretch (h : Sound n svc E G c) (hi : i < n) {e : Effect σ} {P : Ghost → Prop}
    (dead : (c.nodes i).raft.killed = true →
      e.node.raft.killed = true ∧ e.node.saved = (c.nodes i).saved)
    (live : At n svc E G (c.cores n) i (c.nodes i).raft.frame →
      Acts n svc E G (c.cores n) i (c.nodes i).raft.frame e.node.raft.frame P)
    (left : ∀ G', G.Le E G' → Went (c.nodes i) e.node.raft (P G') → Left n svc E G G' e) :
    ∃ G', G.Le E G' ∧ Sound n svc E G' (c.put i e) := by
  cases hk : (c.nodes i).raft.killed with
  | true =>
    obtain ⟨hk', hsaved⟩ := dead hk
    have himg : (e.node.image n i).frame = c.frames n i := by
      simp [Cluster.frames, Server.image, hk, hk', hsaved]
    have hle := Ghost.Le.refl E G
    refine ⟨G, hle, h.put hle ?_ (left G hle (.inl ⟨hk, hk'⟩))⟩
    rw [himg, show (c.frames n i).toCore = c.cores n i from rfl, Function.update_eq_self]
    exact h.at hi
  | false =>
    obtain ⟨G', hle, hat, hg, hp⟩ := live (h.live hi hk)
    have halive : e.node.raft.killed = false := hat.ok.alive
    refine ⟨G', hle, h.put hle ?_ (left G' hle (.inr ⟨hk, hg, hp⟩))⟩
    rw [Server.image_alive halive]
    exact hat

theorem killed_persistLocked (r : Raft) : r.persistLocked.killed = r.killed := by
  unfold Raft.persistLocked
  split <;> rfl

theorem killed_convertToFollower (r : Raft) (T : Int) :
    (r.convertToFollowerLocked T).killed = r.killed :=
  killed_persistLocked _

theorem killed_saveSnapshotBlob (r : Raft) (index term : Int) (raw : Bytes) :
    (r.saveSnapshotBlob index term raw).killed = r.killed := by
  unfold Raft.saveSnapshotBlob
  split <;> rfl

theorem killed_snapshotCommit (r : Raft) (index term : Int) (data : Bytes) :
    (r.snapshotCommit index term data).1.killed = r.killed := by
  unfold Raft.snapshotCommit
  split
  · rfl
  · exact killed_persistLocked _

theorem killed_installSnapshot (r : Raft) (args : InstallSnapshotArgs) (now : Int) :
    (r.installSnapshot args now).1.killed = r.killed := by
  have hrec : ∀ (r : Raft) (reply : InstallSnapshotReply),
      (r.installReceive args reply now).1.killed = r.killed := fun r reply =>
    congrArg (fun f : Frame => f.killed) (frame_installReceive r args reply now)
  unfold Raft.installSnapshot
  dsimp only
  split
  · rfl
  split
  · exact (hrec _ _).trans (killed_convertToFollower _ _)
  · exact hrec _ _

theorem killed_installCommit (r : Raft) (args : InstallSnapshotArgs) (blob : Bytes) :
    (r.installCommit args blob).1.killed = r.killed := by
  unfold Raft.installCommit
  split
  · rfl
  dsimp only
  split
  · exact (killed_persistLocked _).trans (killed_convertToFollower _ _)
  · exact killed_persistLocked _

end
end ChonKV
