import ChonKV.Cluster.Events

/-!
The rule for runs of a cluster: the invariant holds in every state that events reach, whatever their
order.
-/

set_option autoImplicit false

namespace ChonKV

open Ballot Ballot.Ledger
open Function (update)

section
variable {σ : Type} [DecidableEq σ] (n : Nat) (svc : Service σ)

/-- The record `E` of a run covers what the event shows. -/
structure Covers (E : Record) (c : Cluster σ) (e : Event) : Prop where
  led : ∀ i, ((c.step n svc e).nodes i).raft.state = .kLeader →
    E.led i ((c.step n svc e).nodes i).raft.currentTerm
  relapsed : ∀ k now p args, e = .deliver k now → c.packets[k]? = some p → p.rpc = .vote args →
    ((c.nodes p.dst).raft.requestVote args now).2.voteGranted = true → E.led p.dst args.term →
      E.relapsed args.term
  taken : ∀ i index data, e = .takeSnapshot i index data → E.taken data
  assembled : ∀ k now p args buf, e = .deliver k now → c.packets[k]? = some p → p.rpc = .install args →
    ((c.nodes p.dst).raft.installSnapshot args now).2.2 = some buf → E.assembled buf

variable {n svc} {E : Record} {G : Ghost} {c : Cluster σ}

theorem Sound.on (h : Sound n svc E G c) (i : Nat) {f : Server σ → Effect σ}
    (hput : i < n → ∃ G', G.Le E G' ∧ Sound n svc E G' (c.put i (f (c.nodes i)))) :
    ∃ G', G.Le E G' ∧ Sound n svc E G' (c.on n i f) := by
  unfold Cluster.on
  split_ifs with hi
  · exact hput hi
  · exact ⟨G, Ghost.Le.refl E G, h⟩

theorem nodes_on {i : Nat} (hi : i < n) (c : Cluster σ) (f : Server σ → Effect σ) :
    (c.on n i f).nodes i = (f (c.nodes i)).node := by
  rw [Cluster.on, if_pos hi]
  exact Function.update_self _ _ _

theorem Sound.runTaskAt (h : Sound n svc E G c) (i k : Nat) (now : Int)
    (led : ((c.step n svc (.runTask i k now)).nodes i).raft.state = .kLeader →
      E.led i ((c.step n svc (.runTask i k now)).nodes i).raft.currentTerm) :
    ∃ G', G.Le E G' ∧ Sound n svc E G' (c.step n svc (.runTask i k now)) := by
  dsimp only [Cluster.step] at led ⊢
  refine h.on i fun hi => ?_
  rw [nodes_on hi] at led
  cases ht : (c.nodes i).tasks[k]? with
  | none => exact h.idle hi (Carries.refl _ []) rfl
  | some t =>
    rw [ht] at led
    exact h.runTask hi (took_eraseIdx _ k) ((h.nodes i hi).tasks t (List.mem_of_getElem? ht)) _ now led

theorem Sound.answerAt (h : Sound n svc E G c) (k : Nat) (now : Int)
    (led : ∀ i, ((c.step n svc (.answer k now)).nodes i).raft.state = .kLeader →
      E.led i ((c.step n svc (.answer k now)).nodes i).raft.currentTerm) :
    ∃ G', G.Le E G' ∧ Sound n svc E G' (c.step n svc (.answer k now)) := by
  dsimp only [Cluster.step] at led ⊢
  cases ha : c.answers[k]? with
  | none => exact ⟨G, Ghost.Le.refl E G, h⟩
  | some a =>
    refine h.on a.packet.src fun hi => ?_
    have hled := led a.packet.src
    rw [ha] at hled
    dsimp only at hled
    rw [nodes_on hi] at hled
    exact h.answer (h.answers a (List.mem_of_getElem? ha)) hi now hled

theorem Sound.readAt (h : Sound n svc E G c) (i : Nat) (now : Int) :
    ∃ G', G.Le E G' ∧ Sound n svc E G' (c.step n svc (.read i now)) := by
  have hcalls : ∀ calls, Sound n svc E G { c with calls := calls } := fun _ =>
    ⟨h.inv, h.ok, h.nodes, h.packets, h.answers, h.dispatched, h.installed, h.started, h.apart⟩
  dsimp only [Cluster.step]
  exact (hcalls _).on i fun hi => (hcalls _).read hi _ _ now

/-- Every event but a change of the members keeps the invariant. -/
theorem Sound.step (h : Sound n svc E G c) {e : Event} (hstatic : e.isStatic = true)
    (hc : Covers n svc E c e) : ∃ G', G.Le E G' ∧ Sound n svc E G' (c.step n svc e) := by
  cases e with
  | electionTimeout i now =>
    dsimp only [Cluster.step]
    exact h.on i fun hi => h.electionTimeout hi now
  | leaderTick i now =>
    dsimp only [Cluster.step]
    exact h.on i fun hi => h.leaderTick hi now
  | runTask i k now => exact h.runTaskAt i k now (hc.led i)
  | deliver k now =>
    dsimp only [Cluster.step]
    cases hp : c.packets[k]? with
    | none => exact ⟨G, Ghost.Le.refl E G, h⟩
    | some p =>
      exact h.on p.dst fun hi => h.deliver (h.packets p (List.mem_of_getElem? hp)) hi now
        (fun args hrpc => hc.relapsed k now p args rfl hp hrpc)
        fun args buf hrpc => hc.assembled k now p args buf rfl hp hrpc
  | answer k now => exact h.answerAt k now hc.led
  | fail k now =>
    dsimp only [Cluster.step]
    cases hp : c.packets[k]? with
    | none => exact ⟨G, Ghost.Le.refl E G, h⟩
    | some p => exact h.on p.src fun hi => h.fail (h.packets p (List.mem_of_getElem? hp)) hi now
  | replicate i s now =>
    dsimp only [Cluster.step]
    split_ifs
    · exact ⟨G, Ghost.Le.refl E G, h⟩
    · exact h.on i fun hi => h.replicate hi s now
  | start i command =>
    dsimp only [Cluster.step]
    exact h.on i fun hi => h.start hi command
  | proposeConf i server target => cases hstatic
  | applyLoop i now =>
    dsimp only [Cluster.step]
    exact h.on i fun hi => h.applyLoop hi now
  | consume i =>
    dsimp only [Cluster.step]
    exact h.on i fun hi => h.consume hi
  | takeSnapshot i index data =>
    dsimp only [Cluster.step]
    exact h.on i fun hi => h.takeSnapshot hi (hc.taken i index data rfl)
  | kill i =>
    dsimp only [Cluster.step]
    exact h.on i fun hi => h.kill hi
  | restart i now =>
    dsimp only [Cluster.step]
    exact h.on i fun hi => h.restart hi now
  | read i now => exact h.readAt i now
  | setLimits i m b =>
    dsimp only [Cluster.step]
    exact h.on i fun hi => h.setLimits hi m b

/-- Nothing has happened yet. -/
def Ghost.start : Ghost where
  L :=
    { floor := 0
      opened := fun _ => False
      hist := fun _ => []
      term := fun _ => 0
      acked := fun _ _ => 0
      log := fun _ => []
      base := fun _ => 0
      kept := fun _ => 0 }
  owner := fun _ => 0
  vote := fun _ _ => none
  asked := fun _ _ _ => False

theorem wf_start (n : Nat) : Ghost.start.L.WF (majority n) where
  above _ ho := ho.elim
  unopened _ _ := rfl
  hist_le _ _ _ he := by cases he
  ascending _ _ _ _ _ _ he := by cases he
  matching _ _ _ he := by cases he
  backed _ ho := ho.elim
  acked_le _ _ := le_rfl
  acked_term _ _ hlt := absurd hlt (lt_irrefl 0)
  safe _ _ _ ho := ho.elim
  holds _ _ _ _ hlt := absurd hlt (Nat.not_lt_zero _)
  canon _ _ _ _ he := by cases he
  settled _ := .inl rfl
  keeps _ := .inl rfl
  retains _ := rfl

/-- A node as it comes up for the first time. -/
theorem nodeInv_start (n i : Nat) : NodeInv n Ghost.start i (booted n i {} (firstState n)).toCore where
  shows := .initial
  term := rfl
  nonneg := le_rfl
  commit := ⟨0, rfl, .inl rfl⟩
  applied := ⟨le_rfl, le_rfl⟩
  votes hs := absurd rfl hs
  leads hs := by cases hs
  stands hs := by cases hs

theorem nodeOK_start (n i : Nat) (svc : Service σ) (E : Record) :
    NodeOK n svc E Ghost.start i (booted n i {} (firstState n)) where
  alive := rfl
  me := rfl
  peers := rfl
  members := rfl
  store := rfl
  sync := rfl
  disk := rfl
  blob b hb := by cases hb
  noBlob _ := rfl
  blobIndex := le_rfl
  data hlt := absurd hlt (lt_irrefl 0)
  crc h := by cases h
  pending m hm := by cases hm
  saved := ⟨rfl, rfl, rfl, .inl ⟨rfl, rfl, rfl⟩⟩

theorem inv_start {K : Nat → Core} (hK : ∀ i, K i = (booted n i {} (firstState n)).toCore) (E : Record) :
    Inv n E Ghost.start K where
  wf := wf_start n
  floor := rfl
  aligned _ := .nil
  noConf _ _ he := by cases he
  node i _ := by
    rw [hK i]
    exact nodeInv_start n i
  ownerTerm _ ho := ho.elim
  won _ ho := ho.elim
  ownLog _ ho := ho.elim
  voted _ _ _ hv := by cases hv
  backing _ _ _ hv := by cases hv
  asks _ _ _ ha := ha.elim
  ledBy _ ho := ho.elim
  relapse _ _ ho := ho.elim
  written _ ho := ho.elim

/-- All nodes are up with empty disks. -/
theorem sound_init (n : Nat) (svc : Service σ) (E : Record) : Sound n svc E Ghost.start (.init n svc) := by
  have hframe : ∀ i, (Raft.make n i {} 0).frame = booted n i {} (firstState n) :=
    fun i => frame_make_none rfl rfl [] 0
  have himg : ∀ i, (Cluster.init n svc).frames n i = booted n i {} (firstState n) := by
    intro i
    rw [Cluster.frames, Server.image_alive (fresh_make i {} 0).alive]
    exact hframe i
  have hinv : Inv n E Ghost.start ((Cluster.init n svc).cores n) :=
    inv_start (fun i => congrArg Frame.toCore (himg i)) E
  have hok : ∀ i, NodeOK n svc E Ghost.start i ((Cluster.init n svc).frames n i) := fun i => by
    rw [himg]
    exact nodeOK_start n i svc E
  refine ⟨hinv, fun i _ => hok i, fun i hi => ⟨by simp [Cluster.init], fun _ => ?_⟩, by simp [Cluster.init],
    by simp [Cluster.init], by simp [Cluster.init], by simp [Cluster.init], by simp [Cluster.init],
    by simp [Cluster.init]⟩
  have hat : At n svc E Ghost.start ((Cluster.init n svc).cores n) i (Raft.make n i {} 0).frame := by
    rw [hframe, ← himg]
    exact ⟨hinv, rfl, hi, hok i⟩
  have hsi : (Raft.make n i {} 0).snapshotIndex = 0 := congrArg (fun f : Frame => f.snapshotIndex) (hframe i)
  have hfeed := FeedOK.restarted hat (fresh_make i {} 0) 0 {}
  rw [hsi, if_neg (lt_irrefl 0)] at hfeed
  exact hfeed

/-- The record covers every event of the run from `c`. -/
def CoversAll (n : Nat) (svc : Service σ) (E : Record) (c : Cluster σ) : List Event → Prop
  | [] => True
  | e :: es => Covers n svc E c e ∧ CoversAll n svc E (c.step n svc e) es

/-- The rule for runs. -/
theorem Sound.steps {es : List Event} (h : Sound n svc E G c) (hstatic : ∀ e ∈ es, e.isStatic = true)
    (hc : CoversAll n svc E c es) :
    ∃ G', G.Le E G' ∧ Sound n svc E G' (es.foldl (Cluster.step n svc) c) := by
  induction es generalizing G c with
  | nil => exact ⟨G, Ghost.Le.refl E G, h⟩
  | cons e es ih =>
    obtain ⟨G₁, hle₁, h₁⟩ := h.step (hstatic e List.mem_cons_self) hc.1
    obtain ⟨G₂, hle₂, h₂⟩ := ih h₁ (fun e' he' => hstatic e' (List.mem_cons_of_mem e he')) hc.2
    exact ⟨G₂, hle₁.trans hle₂, h₂⟩

/-- A run up to a later event goes on from where it was. -/
theorem Cluster.run_take (svc : Service σ) (evs : List Event) {a b : Nat} (hab : a ≤ b) :
    Cluster.run n svc (evs.take b) =
      ((evs.take b).drop a).foldl (Cluster.step n svc) (Cluster.run n svc (evs.take a)) := by
  have hmin : (evs.take b).take a = evs.take a := by
    rw [List.take_take, Nat.min_eq_left hab]
  rw [← Cluster.run_append, ← hmin, List.take_append_drop]

theorem sound_run (svc : Service σ) (E : Record) {evs : List Event} (hstatic : ∀ e ∈ evs, e.isStatic = true)
    (hc : CoversAll n svc E (.init n svc) evs) : ∃ G, Sound n svc E G (Cluster.run n svc evs) := by
  obtain ⟨G, -, h⟩ := (sound_init n svc E).steps hstatic hc
  exact ⟨G, h⟩

end
end ChonKV
