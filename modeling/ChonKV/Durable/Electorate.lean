import ChonKV.Cluster.Quorum
import ChonKV.Durable.Stance

/-!
Elections among the processes of a static membership. Messages are arbitrary, save that a vote counts only
where it was given; what a node answers to `Raft.RequestVote` is on record from its decision on.
-/

set_option autoImplicit false

namespace ChonKV

open Raft
open Function (update)

namespace Process

/-- The request for a vote that the step decides over, and its answer. -/
def voteAnswer (p : Process) : ProcessEvent → Option (RequestVoteArgs × RequestVoteReply)
  | .requestVote args now =>
    if ¬ p.raft.killed ∧ p.raft.currentTerm < args.term then none
    else some (args, (p.raft.requestVote args now).2)
  | .resume k now =>
    match p.threads[k]? with
    | none => none
    | some t =>
      match t.stretch with
      | .vote args =>
        if p.ready t.version then
          some (args, (p.raft.decideVote args { term := p.raft.currentTerm } now).2)
        else none
      | _ => none
  | _ => none

end Process

/-- What is on record of elections: who answered which request for a vote, and who was leader in which
term. -/
structure Poll where
  answers : List (Nat × RequestVoteArgs × RequestVoteReply) := []
  led : List (Nat × Int) := []

/-- `j` has the vote of `i` in term `T`. -/
def Poll.Cast (v : Poll) (i : Nat) (T : Int) (j : Nat) : Prop :=
  ∃ args reply, (i, args, reply) ∈ v.answers ∧ reply.voteGranted = true ∧ reply.term = T ∧
    args.term = T ∧ args.candidateId = j

structure Electorate extends Poll where
  nodes : Nat → Process

namespace Electorate

def boot (n : Nat) (d : Nat → Disk) (now : Nat → Int) : Electorate where
  nodes i := Process.boot n i (d i) (now i)

def step (x : Electorate) (i : Nat) (e : ProcessEvent) : Electorate :=
  let p := (x.nodes i).step e
  { nodes := update x.nodes i p
    answers := x.answers ++ ((x.nodes i).voteAnswer e).toList.map fun a => (i, a)
    led := if p.raft.state = .kLeader then x.led.insert (i, p.raft.currentTerm) else x.led }

def run (x : Electorate) (es : List (Nat × ProcessEvent)) : Electorate :=
  es.foldl (fun x a => x.step a.1 a.2) x

def Meets (C : Electorate → Nat → ProcessEvent → Prop) (x : Electorate) :
    List (Nat × ProcessEvent) → Prop
  | [] => True
  | a :: es => C x a.1 a.2 ∧ Meets C (x.step a.1 a.2) es

def Leads (x : Electorate) (i : Nat) (T : Int) : Prop :=
  (x.nodes i).raft.state = .kLeader ∧ (x.nodes i).raft.currentTerm = T

/-- All `n` nodes are voters, wherever members are looked up. -/
def Static (n : Nat) (x : Electorate) : Prop :=
  ∀ i < n, (x.nodes i).raft.isMember = List.replicate n .kVoter

/-- A candidate hears of a vote that was given to it; a process that ends comes up again with its term and
its vote. -/
def Delivers (x : Electorate) (i : Nat) : ProcessEvent → Prop
  | .voteReply args s reply _ =>
    reply.voteGranted = true → args.candidateId = i ∧ (s, args, reply) ∈ x.answers
  | .restart now =>
    let r := (x.nodes i).raft
    (make r.peers r.me (x.nodes i).disk now).currentTerm = r.currentTerm ∧
      (make r.peers r.me (x.nodes i).disk now).votedFor = r.votedFor
  | _ => True

/-- A node that was leader in the term it is in is not asked there, by someone else, for a vote that it
may give. -/
def KeepsVote (x : Electorate) (i : Nat) (e : ProcessEvent) : Prop :=
  (i, (x.nodes i).raft.currentTerm) ∈ x.led → ∀ a, (x.nodes i).voteAnswer e = some a →
    a.1.term = (x.nodes i).raft.currentTerm → a.1.candidateId ≠ i → ¬ (x.nodes i).raft.MayGrant a.1

instance (x : Electorate) (i : Nat) (T : Int) : Decidable (x.Leads i T) := by
  unfold Leads
  infer_instance

instance (n : Nat) (x : Electorate) : Decidable (x.Static n) := by
  unfold Static
  infer_instance

instance (x : Electorate) (i : Nat) (e : ProcessEvent) : Decidable (x.Delivers i e) := by
  apply e.casesOn (motive := fun e => Decidable (x.Delivers i e)) <;> intros <;> dsimp only [Delivers] <;>
    infer_instance

instance (x : Electorate) (i : Nat) (e : ProcessEvent) : Decidable (x.KeepsVote i e) :=
  inferInstanceAs (Decidable (_ → ∀ a ∈ (x.nodes i).voteAnswer e, _ → _ → ¬ (x.nodes i).raft.MayGrant a.1))

/-- A step of a node with static members, on messages that exist. -/
def Occurs (n : Nat) (x : Electorate) (i : Nat) (e : ProcessEvent) : Prop :=
  i < n ∧ x.Static n ∧ x.Delivers i e

/-- Besides, no leader of before votes for someone else in the term it led. -/
def Orderly (n : Nat) (x : Electorate) (i : Nat) (e : ProcessEvent) : Prop :=
  Occurs n x i e ∧ x.KeepsVote i e

instance (n : Nat) (x : Electorate) (i : Nat) (e : ProcessEvent) : Decidable (Occurs n x i e) := by
  unfold Occurs
  infer_instance

instance (n : Nat) (x : Electorate) (i : Nat) (e : ProcessEvent) : Decidable (Orderly n x i e) := by
  unfold Orderly
  infer_instance

instance Meets.decidable (C : Electorate → Nat → ProcessEvent → Prop)
    [∀ x i e, Decidable (C x i e)] : ∀ (x : Electorate) (es : List (Nat × ProcessEvent)),
    Decidable (x.Meets C es)
  | _, [] => isTrue trivial
  | x, a :: es =>
    have := Meets.decidable C (x.step a.1 a.2) es
    inferInstanceAs (Decidable (_ ∧ _))

end Electorate

/-- Who leads a term has a quorum of votes, and has given its own to no other. -/
structure Poll.Sound (n : Nat) (v : Poll) : Prop where
  late : ∀ a ∈ v.answers, a.2.2.voteGranted = true → a.2.1.term ≤ a.2.2.term
  single : ∀ {i j k : Nat} {T : Int}, v.Cast i T j → v.Cast i T k → j ≠ i → k ≠ i → j = k
  elected : ∀ {i : Nat} {T : Int}, (i, T) ∈ v.led → (Ballot.majority n).IsQuorum {s | s = i ∨ v.Cast s T i}
  loyal : ∀ {i j : Nat} {T : Int}, (i, T) ∈ v.led → v.Cast i T j → j = i

/-- What node `i` knows of its votes fits the record. -/
structure Stance.Fair (v : Poll) (i : Nat) (s : Stance) : Prop where
  me : s.me = i
  own : s.state ≠ .kFollower → s.votedFor = i
  cast : ∀ {T : Int} {j : Nat}, v.Cast i T j → j ≠ i →
    T < s.currentTerm ∨ (s.currentTerm = T ∧ s.votedFor = j ∧ s.state = .kFollower)
  term : ∀ {T : Int}, (i, T) ∈ v.led → T ≤ s.currentTerm
  leads : s.state = .kLeader → (i, s.currentTerm) ∈ v.led
  fresh : s.state = .kCandidate → (i, s.currentTerm) ∉ v.led
  votes : s.state = .kCandidate → ∀ k, s.voteGranted.getD k 0 = 1 → k = i ∨ v.Cast k s.currentTerm i

section

variable {n i : Nat} {v v' : Poll} {s s' : Stance}

/-- Two leaders of a term would share a voter. -/
theorem Poll.Sound.unique (h : v.Sound n) {j : Nat} {T : Int} (hi : (i, T) ∈ v.led)
    (hj : (j, T) ∈ v.led) : i = j := by
  obtain ⟨q, hqi, hqj⟩ := (Ballot.majority n).meet (h.elected hi) (h.elected hj)
  rcases hqi with rfl | hqi
  · rcases hqj with rfl | hqj
    · rfl
    · exact (h.loyal hi hqj).symm
  · rcases hqj with rfl | hqj
    · exact h.loyal hj hqi
    · by_cases hqi' : i = q
      · subst hqi'
        exact (h.loyal hi hqj).symm
      · by_cases hqj' : j = q
        · subst hqj'
          exact h.loyal hj hqi
        · exact h.single hqi hqj hqi' hqj'

theorem Stance.Fair.sway (h : s.Fair v i) (hs : Sway s s') : s'.Fair v i := by
  cases hs with
  | down hle hback =>
    refine ⟨h.me, fun hne => absurd rfl hne, fun hc hne => .inl ?_, fun hl => (h.term hl).trans hle,
      fun hl => ?_, fun hc => ?_, fun hc => ?_⟩
    · obtain hlt | ⟨hterm, -, hstate⟩ := h.cast hc hne
      · exact hlt.trans_le hle
      · cases hback with
        | inl hlt => exact hterm ▸ hlt
        | inr hnot => exact absurd hstate hnot
    · cases hl
    · cases hc
    · cases hc
  | stand votes hvotes =>
    refine ⟨h.me, fun _ => congrArg Nat.cast h.me, fun hc hne => .inl ?_, fun hl => ?_, fun hl => ?_,
      fun _ hl => ?_, fun _ k hk => .inl ((hvotes k hk).trans h.me)⟩
    · dsimp only
      obtain hlt | ⟨hterm, -⟩ := h.cast hc hne <;> omega
    · dsimp only
      have hterm := h.term hl
      omega
    · cases hl
    · have hterm := h.term hl
      dsimp only at hterm
      omega

theorem Stance.Fair.sways (h : s.Fair v i) (hs : Relation.ReflTransGen Sway s s') : s'.Fair v i := by
  induction hs with
  | refl => exact h
  | tail _ hsway ih => exact ih.sway hsway

/-- What is on record of others. -/
theorem Stance.Fair.mono (h : s.Fair v i) (hcast : ∀ {j k T}, v.Cast j T k → v'.Cast j T k)
    (hown : ∀ {T k}, v'.Cast i T k → v.Cast i T k) (hled : ∀ {T}, (i, T) ∈ v'.led ↔ (i, T) ∈ v.led) :
    s.Fair v' i where
  me := h.me
  own := h.own
  cast hc hne := h.cast (hown hc) hne
  term hl := h.term (hled.mp hl)
  leads hl := hled.mpr (h.leads hl)
  fresh hc hl := h.fresh hc (hled.mp hl)
  votes hc k hk := (h.votes hc k hk).imp_right hcast

/-- One more answer. -/
def Poll.answer (v : Poll) (i : Nat) (args : RequestVoteArgs) (reply : RequestVoteReply) : Poll :=
  { v with answers := v.answers ++ [(i, args, reply)] }

/-- One more leader. -/
def Poll.elect (v : Poll) (i : Nat) (T : Int) : Poll := { v with led := v.led.insert (i, T) }

variable {args : RequestVoteArgs} {reply : RequestVoteReply}

theorem Poll.cast_answer {j k : Nat} {T : Int} : (v.answer i args reply).Cast j T k ↔
    v.Cast j T k ∨ (j = i ∧ reply.voteGranted = true ∧ reply.term = T ∧ args.term = T ∧
      args.candidateId = k) := by
  constructor
  · rintro ⟨args', reply', hmem, hcast⟩
    cases List.mem_append.mp hmem with
    | inl hold => exact .inl ⟨args', reply', hold, hcast⟩
    | inr hnew =>
      cases List.mem_singleton.mp hnew
      exact .inr ⟨rfl, hcast⟩
  · rintro (⟨args', reply', hmem, hcast⟩ | ⟨rfl, hcast⟩)
    · exact ⟨args', reply', List.mem_append_left _ hmem, hcast⟩
    · exact ⟨args, reply, List.mem_append_right _ (List.mem_singleton.mpr rfl), hcast⟩

/-- A vote is given in the term of the node, where it may go to the candidate; a node that led that term
gives it to itself only. -/
structure Stance.Gives (v : Poll) (i : Nat) (s : Stance) (args : RequestVoteArgs)
    (reply : RequestVoteReply) : Prop where
  term : reply.term = s.currentTerm
  late : args.term ≤ s.currentTerm
  nonneg : 0 ≤ args.candidateId
  free : s.votedFor = -1 ∨ s.votedFor = args.candidateId
  loyal : (i, s.currentTerm) ∈ v.led → args.term = s.currentTerm → args.candidateId = i

theorem Poll.Sound.give (hv : v.Sound n) (hs : s.Fair v i) (h : s.Gives v i args reply) :
    (v.answer i args reply).Sound n := by
  -- a vote that the node has given to another already went to the same candidate
  have hsame : ∀ {T : Int} {j k : Nat}, v.Cast i T j → j ≠ i → reply.term = T →
      args.candidateId = k → j = k := by
    intro T j k hcast hne hterm hk
    have hT := h.term.symm.trans hterm
    obtain hlt | ⟨-, hvoted, -⟩ := hs.cast hcast hne
    · omega
    · have hfree := h.free
      omega
  refine ⟨fun a ha hgranted => ?_, fun hj hk hne hne' => ?_, fun hl => ?_, fun hl hc => ?_⟩
  · cases List.mem_append.mp ha with
    | inl hold => exact hv.late a hold hgranted
    | inr hnew =>
      cases List.mem_singleton.mp hnew
      exact h.late.trans_eq h.term.symm
  · obtain hold | ⟨rfl, -, hterm, -, hid⟩ := Poll.cast_answer.mp hj
    · obtain hold' | ⟨rfl, -, hterm', -, hid'⟩ := Poll.cast_answer.mp hk
      · exact hv.single hold hold' hne hne'
      · exact hsame hold hne hterm' hid'
    · obtain hold' | ⟨-, -, -, -, hid'⟩ := Poll.cast_answer.mp hk
      · exact (hsame hold' hne' hterm hid).symm
      · omega
  · exact majority_mono (hv.elected hl) fun q hq => hq.imp_right fun hc => Poll.cast_answer.mpr (.inl hc)
  · obtain hc | ⟨rfl, -, hterm, hargs, hid⟩ := Poll.cast_answer.mp hc
    · exact hv.loyal hl hc
    · have hT := h.term.symm.trans hterm
      have hown := h.loyal (hT ▸ hl) (hargs.trans hT.symm)
      omega

theorem Stance.Fair.give (hs : s.Fair v i) (h : s.Gives v i args reply) :
    ({ s with votedFor := args.candidateId } : Stance).Fair (v.answer i args reply) i := by
  have hself : s.state ≠ .kFollower → args.candidateId = i := by
    intro hne
    have hown := hs.own hne
    have hfree := h.free
    omega
  refine ⟨hs.me, hself, fun {T j} hc hne => ?_, hs.term, hs.leads, hs.fresh, fun hc k hk => ?_⟩
  · obtain hc | ⟨-, -, hterm, -, hid⟩ := Poll.cast_answer.mp hc
    · obtain hlt | ⟨hT, hvoted, hstate⟩ := hs.cast hc hne
      · exact .inl hlt
      · refine .inr ⟨hT, ?_, hstate⟩
        have hfree := h.free
        dsimp only
        omega
    · refine .inr ⟨h.term.symm.trans hterm, hid, ?_⟩
      by_contra hstate
      have hown := hself hstate
      omega
  · exact (hs.votes hc k hk).imp_right fun hcast => Poll.cast_answer.mpr (.inl hcast)

/-- A refusal is no vote. -/
theorem Poll.cast_refuse (h : reply.voteGranted = false) {j k : Nat} {T : Int} :
    (v.answer i args reply).Cast j T k ↔ v.Cast j T k := by
  rw [Poll.cast_answer, h]
  simp

theorem Poll.Sound.refuse (hv : v.Sound n) (h : reply.voteGranted = false) :
    (v.answer i args reply).Sound n := by
  refine ⟨fun a ha hgranted => ?_, fun hj hk => ?_, fun hl => ?_, fun hl hc => ?_⟩
  · cases List.mem_append.mp ha with
    | inl hold => exact hv.late a hold hgranted
    | inr hnew =>
      cases List.mem_singleton.mp hnew
      rw [h] at hgranted
      cases hgranted
  · exact hv.single ((Poll.cast_refuse h).mp hj) ((Poll.cast_refuse h).mp hk)
  · exact majority_mono (hv.elected hl) fun q hq => hq.imp_right (Poll.cast_refuse h).mpr
  · exact hv.loyal hl ((Poll.cast_refuse h).mp hc)

theorem Poll.mem_elect {j : Nat} {T U : Int} :
    (j, U) ∈ (v.elect i T).led ↔ (j = i ∧ U = T) ∨ (j, U) ∈ v.led := by
  rw [Poll.elect, List.mem_insert_iff, Prod.mk.injEq]

/-- A candidate with a quorum of votes takes office. -/
theorem Poll.Sound.elect (hv : v.Sound n) (hs : s.Fair v i) (hc : s.state = .kCandidate)
    (hq : (Ballot.majority n).IsQuorum {k | s.voteGranted.getD k 0 = 1}) :
    (v.elect i s.currentTerm).Sound n := by
  refine ⟨hv.late, hv.single, fun hl => ?_, fun {j k T} hl hcast => ?_⟩
  · obtain ⟨rfl, rfl⟩ | hl := Poll.mem_elect.mp hl
    · exact majority_mono hq fun q hq => hs.votes hc q hq
    · exact hv.elected hl
  · obtain ⟨rfl, rfl⟩ | hl := Poll.mem_elect.mp hl
    · by_contra hne
      obtain hlt | ⟨-, -, hstate⟩ := hs.cast hcast hne
      · exact lt_irrefl _ hlt
      · rw [hc] at hstate
        cases hstate
    · exact hv.loyal hl hcast

theorem Stance.Fair.elect (hs : s.Fair v i) (hc : s.state = .kCandidate) :
    ({ s with state := .kLeader } : Stance).Fair (v.elect i s.currentTerm) i := by
  refine ⟨hs.me, fun _ => hs.own (by simp [hc]), fun hcast hne => ?_, fun hl => ?_,
    fun _ => Poll.mem_elect.mpr (.inl ⟨rfl, rfl⟩), fun hcand => ?_, fun hcand => ?_⟩
  · obtain hlt | ⟨-, -, hstate⟩ := hs.cast hcast hne
    · exact .inl hlt
    · rw [hc] at hstate
      cases hstate
  · obtain ⟨-, rfl⟩ | hl := Poll.mem_elect.mp hl
    · exact le_rfl
    · exact hs.term hl
  · cases hcand
  · cases hcand

/-- A vote that was given to the candidate counts. -/
theorem Stance.Fair.count (hs : s.Fair v i) {k : Nat} (hcast : v.Cast k s.currentTerm i) :
    ({ s with voteGranted := s.voteGranted.set k 1 } : Stance).Fair v i := by
  refine ⟨hs.me, hs.own, hs.cast, hs.term, hs.leads, hs.fresh, fun hc q hq => ?_⟩
  by_cases heq : q = k
  · exact .inr (heq ▸ hcast)
  · refine hs.votes hc q ?_
    dsimp only at hq
    rwa [List.getD_eq_getElem?_getD, List.getElem?_set_ne (Ne.symm heq),
      ← List.getD_eq_getElem?_getD] at hq

end

namespace Process

variable {p : Process} {e : ProcessEvent}

/-- A refusal changes nothing; or the node may give its vote, and does. -/
def Decides (r : Raft) (args : RequestVoteArgs) (r' : Raft) (reply : RequestVoteReply) : Prop :=
  (reply.voteGranted = false ∧ r'.stance = r.stance) ∨
    (reply.voteGranted = true ∧ r.MayGrant args ∧ reply.term = r.currentTerm ∧
      r'.stance = { r.stance with votedFor := args.candidateId })

theorem decides_decideVote (r : Raft) (args : RequestVoteArgs) (now : Int) :
    Decides r args (r.decideVote args { term := r.currentTerm } now).1
      (r.decideVote args { term := r.currentTerm } now).2 := by
  obtain heq | ⟨hmay, hreply, hstance⟩ := decideVote_cases r args { term := r.currentTerm } now
  · rw [heq]
    exact .inl ⟨rfl, rfl⟩
  · rw [hreply]
    exact .inr ⟨rfl, hmay, rfl, hstance⟩

/-- The request is for the term of the node, or for that of an earlier one of its waits. -/
theorem decides_step {args : RequestVoteArgs} {reply : RequestVoteReply}
    (h : p.voteAnswer e = some (args, reply)) : (∀ t ∈ (p.step e).threads, t ∈ p.threads) ∧
      Decides p.raft args (p.step e).raft reply ∧
      (reply.voteGranted = true → args.term = p.raft.currentTerm ∨
        ∃ t ∈ p.threads, t.stretch = .vote args) := by
  cases e with
  | requestVote args' now =>
    rw [voteAnswer] at h
    split_ifs at h with hwait
    cases h
    rw [step, Process.requestVote, if_neg hwait]
    refine ⟨fun t ht => ht, ?_⟩
    obtain heq | ⟨hterm, heq⟩ := requestVote_cases hwait now
    · rw [heq]
      exact ⟨.inl ⟨rfl, rfl⟩, fun hgranted => by cases hgranted⟩
    · rw [heq]
      exact ⟨decides_decideVote _ _ now, fun _ => .inl hterm⟩
  | resume k now =>
    rw [voteAnswer] at h
    rw [step, Process.resume]
    cases ht : p.threads[k]? with
    | none =>
      rw [ht] at h
      cases h
    | some t =>
      rw [ht] at h
      cases hst : t.stretch with
      | vote args' =>
        simp only [hst] at h
        split_ifs at h with hready
        cases h
        simp only [hready, ↓reduceIte, hst, runStretch]
        rw [decideVote_fst p.raft args {} { term := p.raft.currentTerm } now]
        exact ⟨fun t ht => List.mem_of_mem_eraseIdx ht, decides_decideVote _ _ now,
          fun _ => .inr ⟨t, List.mem_of_getElem? ht, hst⟩⟩
      | _ =>
        simp only [hst] at h
        cases h
  | _ => cases h

end Process

namespace Electorate

/-- The record is sound, every node fits it, and a request that waits is not for a later term. -/
structure Sound (n : Nat) (x : Electorate) : Prop where
  poll : x.toPoll.Sound n
  fair : ∀ i, (x.nodes i).raft.stance.Fair x.toPoll i
  timely : ∀ i, (x.nodes i).Timely

variable {n i : Nat} {x : Electorate} {e : ProcessEvent}

theorem boot_sound (n : Nat) (d : Nat → Disk) (now : Nat → Int) : (boot n d now).Sound n := by
  have hnone : ∀ {j k : Nat} {T : Int}, ¬ (boot n d now).Cast j T k := by
    rintro j k T ⟨args, reply, hmem, -⟩
    cases hmem
  have hled : ∀ {j : Nat} {T : Int}, (j, T) ∉ (boot n d now).led := fun hmem => by cases hmem
  refine ⟨⟨fun a ha _ => ?_, fun hj => absurd hj hnone, fun hl => absurd hl hled,
    fun hl => absurd hl hled⟩, fun i => ?_, fun i t ht => ?_⟩
  · cases ha
  · obtain ⟨hme, hstate⟩ := make_stance n i (d i) (now i)
    have hnot : ∀ {st : ServerState}, st ≠ .kFollower →
        ((boot n d now).nodes i).raft.stance.state ≠ st := fun hne heq => hne (heq.symm.trans hstate)
    exact ⟨hme, fun hne => absurd hstate hne, fun hc => absurd hc hnone, fun hl => absurd hl hled,
      fun hl => absurd hl (hnot (by decide)), fun hc => absurd hc (hnot (by decide)),
      fun hc => absurd hc (hnot (by decide))⟩
  · cases ht

/-- A leader stays on record as one. -/
theorem led_step
    (hl : ((x.nodes i).step e).raft.state = .kLeader → (i, ((x.nodes i).step e).raft.currentTerm) ∈ x.led) :
    (x.step i e).led = x.led := by
  rw [step]
  dsimp only
  split_ifs with hleader
  · exact List.insert_of_mem (hl hleader)
  · rfl

/-- Node `i` takes a step, and the record of the others stays what it was. -/
theorem Sound.node (h : x.Sound n) (hpoll : (x.step i e).toPoll.Sound n)
    (hfair : ((x.nodes i).step e).raft.stance.Fair (x.step i e).toPoll i)
    (hcast : ∀ {j k T}, x.Cast j T k → (x.step i e).Cast j T k)
    (hown : ∀ {j k T}, j ≠ i → (x.step i e).Cast j T k → x.Cast j T k)
    (hled : ∀ {j T}, j ≠ i → ((j, T) ∈ (x.step i e).led ↔ (j, T) ∈ x.led))
    (htimely : ((x.nodes i).step e).Timely) : (x.step i e).Sound n := by
  have hself : (x.step i e).nodes i = (x.nodes i).step e := Function.update_self ..
  have hother : ∀ j, j ≠ i → (x.step i e).nodes j = x.nodes j := fun j hne =>
    Function.update_of_ne hne ..
  refine ⟨hpoll, fun j => ?_, fun j => ?_⟩
  · by_cases hj : j = i
    · subst hj
      rw [hself]
      exact hfair
    · rw [hother j hj]
      exact (h.fair j).mono hcast (hown hj) (hled hj)
  · by_cases hj : j = i
    · subst hj
      rw [hself]
      exact htimely
    · rw [hother j hj]
      exact h.timely j

/-- A step without an answer that leaves the poll alone. -/
theorem Sound.quiet (h : x.Sound n) (hno : (x.nodes i).voteAnswer e = none)
    (hfair : ((x.nodes i).step e).raft.stance.Fair x.toPoll i)
    (htimely : ((x.nodes i).step e).Timely) : (x.step i e).Sound n := by
  have hanswers : (x.step i e).answers = x.answers := by
    rw [step, hno]
    exact List.append_nil _
  have hpoll : (x.step i e).toPoll = x.toPoll :=
    congrArg₂ Poll.mk hanswers (led_step hfair.leads)
  refine h.node ?_ ?_ ?_ ?_ ?_ htimely
  · rw [hpoll]
    exact h.poll
  · rw [hpoll]
    exact hfair
  · rw [hpoll]
    exact id
  · rw [hpoll]
    exact fun _ => id
  · rw [hpoll]
    exact fun _ => Iff.rfl

theorem Sound.rests (h : x.Sound n) (hno : (x.nodes i).voteAnswer e = none)
    (hq : (x.nodes i).Rests ((x.nodes i).step e)) : (x.step i e).Sound n :=
  h.quiet hno ((h.fair i).sways hq.raft) ((h.timely i).rests hq)

theorem Sound.decides (h : x.Sound n) (hkeeps : x.KeepsVote i e) {args : RequestVoteArgs}
    {reply : RequestVoteReply} (ha : (x.nodes i).voteAnswer e = some (args, reply)) :
    (x.step i e).Sound n := by
  obtain ⟨hthreads, hdecides, hasked⟩ := Process.decides_step ha
  have hanswers : (x.step i e).answers = x.answers ++ [(i, args, reply)] := by
    rw [step, ha]
    rfl
  have hfair := h.fair i
  have hsame : ((x.nodes i).step e).raft.state = (x.nodes i).raft.state ∧
      ((x.nodes i).step e).raft.currentTerm = (x.nodes i).raft.currentTerm := by
    obtain ⟨-, hstance⟩ | ⟨-, -, -, hstance⟩ := hdecides <;>
      exact ⟨congrArg Stance.state hstance, congrArg Stance.currentTerm hstance⟩
  have hpoll : (x.step i e).toPoll = x.toPoll.answer i args reply := by
    refine congrArg₂ Poll.mk hanswers (led_step fun hl => ?_)
    rw [hsame.2]
    exact hfair.leads (hsame.1.symm.trans hl)
  have htimely : ((x.nodes i).step e).Timely := (h.timely i).keep hthreads hsame.2.ge
  obtain ⟨hrefused, hstance⟩ | ⟨hgranted, hmay, hterm, hstance⟩ := hdecides
  · refine h.node ?_ ?_ ?_ ?_ ?_ htimely
    · rw [hpoll]
      exact h.poll.refuse hrefused
    · rw [hpoll, hstance]
      exact hfair.mono (Poll.cast_refuse hrefused).mpr (Poll.cast_refuse hrefused).mp Iff.rfl
    · rw [hpoll]
      exact (Poll.cast_refuse hrefused).mpr
    · rw [hpoll]
      exact fun _ => (Poll.cast_refuse hrefused).mp
    · rw [hpoll]
      exact fun _ => Iff.rfl
  · have hlate : args.term ≤ (x.nodes i).raft.currentTerm := by
      obtain heq | ⟨t, ht, hst⟩ := hasked hgranted
      · exact heq.le
      · exact h.timely i t ht args.term (by rw [hst]; rfl)
    have hgives : Stance.Gives x.toPoll i (x.nodes i).raft.stance args reply := by
      refine ⟨hterm, hlate, hmay.candidate_nonneg, hmay.2.1, fun hl heq => ?_⟩
      by_contra hne
      exact hkeeps hl _ ha heq hne hmay
    refine h.node ?_ ?_ ?_ ?_ ?_ htimely
    · rw [hpoll]
      exact h.poll.give hfair hgives
    · rw [hpoll, hstance]
      exact hfair.give hgives
    · rw [hpoll]
      exact fun hc => Poll.cast_answer.mpr (.inl hc)
    · rw [hpoll]
      intro j k T hne hc
      obtain hc | ⟨heq, -⟩ := Poll.cast_answer.mp hc
      · exact hc
      · exact absurd heq hne
    · rw [hpoll]
      exact fun _ => Iff.rfl

/-- Node `i` becomes leader, if it has a quorum; `r` is its state once all votes are counted. -/
theorem Sound.office (h : x.Sound n) (hno : (x.nodes i).voteAnswer e = none) {r : Raft} {now : Int}
    (hfair : r.stance.Fair x.toPoll i) (hmembers : r.isMember = List.replicate n .kVoter)
    (hraft : ((x.nodes i).step e).raft = r.becomeLeaderIfQuorumLocked now)
    (hterm : r.currentTerm = (x.nodes i).raft.currentTerm)
    (hthreads : ∀ t ∈ ((x.nodes i).step e).threads, t ∈ (x.nodes i).threads) :
    (x.step i e).Sound n := by
  obtain hsame | ⟨hcand, hquorum, hstance⟩ := becomeLeaderIfQuorumLocked_stance r now
  · refine h.quiet hno ?_ ((h.timely i).keep hthreads ?_)
    · rw [hraft, hsame]
      exact hfair
    · rw [hraft, ← hterm]
      exact (congrArg Stance.currentTerm hsame).ge
  · rw [← hraft] at hstance
    have hterm' : ((x.nodes i).step e).raft.currentTerm = r.currentTerm :=
      congrArg Stance.currentTerm hstance
    have hleader : ((x.nodes i).step e).raft.state = .kLeader := congrArg Stance.state hstance
    have hpoll : (x.step i e).toPoll = x.toPoll.elect i r.currentTerm := by
      rw [step, hno, hleader, hterm']
      exact congrArg₂ Poll.mk (List.append_nil _) (if_pos rfl)
    have hvotes : (Ballot.majority n).IsQuorum {k | r.voteGranted.getD k 0 = 1} := by
      rw [quorumSizeLocked, memberCountLocked, countGrantedVotesLocked, hmembers,
        countP_replicate_voter] at hquorum
      exact majority_of_votes hquorum
    refine h.node ?_ ?_ ?_ ?_ ?_ ((h.timely i).keep hthreads ?_)
    · rw [hpoll]
      exact h.poll.elect hfair hcand hvotes
    · rw [hpoll, hstance]
      exact hfair.elect hcand
    · rw [hpoll]
      exact id
    · rw [hpoll]
      exact fun _ => id
    · rw [hpoll]
      exact fun hne => Poll.mem_elect.trans (or_iff_right fun heq => hne heq.1)
    · rw [hterm', hterm]

theorem Sound.voteReply (h : x.Sound n) {args : RequestVoteArgs} {k : Nat} {reply : RequestVoteReply}
    {now : Int} (hmembers : (x.nodes i).raft.isMember = List.replicate n .kVoter)
    (hd : x.Delivers i (.voteReply args k reply now)) : (x.step i (.voteReply args k reply now)).Sound n := by
  obtain hsways | ⟨⟨hterm, hcand, hargs, hgranted⟩, heq⟩ :=
    voteReply_cases (x.nodes i).raft args k reply now
  · exact h.rests rfl (Process.rests_callback rfl rfl hsways)
  · have hstays : (x.nodes i).step (.voteReply args k reply now) =
        { x.nodes i with raft := ((x.nodes i).raft.counted k).becomeLeaderIfQuorumLocked now } := by
      rw [Process.step, Process.voteReply, Process.callback, if_neg fun hdown => absurd hdown.2 (by omega), heq]
    obtain ⟨hid, hmem⟩ := hd hgranted
    have hreply : reply.term = (x.nodes i).raft.currentTerm :=
      le_antisymm hterm (hargs ▸ h.poll.late _ hmem hgranted)
    have hfair : ((x.nodes i).raft.counted k).stance.Fair x.toPoll i :=
      (h.fair i).count ⟨args, reply, hmem, hgranted, hreply, hargs, hid⟩
    refine h.office rfl hfair hmembers (congrArg Process.raft hstays) rfl ?_
    rw [hstays]
    exact fun _ => id

theorem Sound.resume (h : x.Sound n) {k : Nat} {now : Int}
    (hmembers : (x.nodes i).raft.isMember = List.replicate n .kVoter)
    (hkeeps : x.KeepsVote i (.resume k now)) : (x.step i (.resume k now)).Sound n := by
  cases ha : (x.nodes i).voteAnswer (.resume k now) with
  | some a => exact h.decides hkeeps ha
  | none =>
    have hstep : (x.nodes i).step (.resume k now) = (x.nodes i).resume k now := rfl
    rw [Process.resume] at hstep
    cases ht : (x.nodes i).threads[k]? with
    | none =>
      rw [ht] at hstep
      refine h.rests ha ?_
      rw [hstep]
      exact Process.rests_refl _
    | some t =>
      rw [ht] at hstep
      dsimp only at hstep
      cases hready : (x.nodes i).ready t.version with
      | false =>
        rw [hready, if_neg Bool.false_ne_true] at hstep
        refine h.rests ha ?_
        rw [hstep]
        exact Process.rests_refl _
      | true =>
        rw [hready, if_pos rfl] at hstep
        by_cases hoffice : t.stretch = .takeOffice
        · rw [hoffice] at hstep
          refine h.office ha (h.fair i) hmembers ((congrArg Process.raft hstep).trans (takeOffice_eq _ now)) rfl ?_
          rw [hstep]
          exact fun _ => List.mem_of_mem_eraseIdx
        · refine h.rests ha ?_
          rw [hstep]
          refine (Process.rests_runStretch _ now (fun args hst => ?_) hoffice).of_erase
          simp [Process.voteAnswer, ht, hst, hready] at ha

/-- A request of a later term is decided over once the new term is saved. -/
theorem Sound.requestVote (h : x.Sound n) {args : RequestVoteArgs} {now : Int}
    (hkeeps : x.KeepsVote i (.requestVote args now)) : (x.step i (.requestVote args now)).Sound n := by
  cases ha : (x.nodes i).voteAnswer (.requestVote args now) with
  | some a => exact h.decides hkeeps ha
  | none =>
    have hwait : ¬ (x.nodes i).raft.killed ∧ (x.nodes i).raft.currentTerm < args.term := by
      by_contra hno
      rw [Process.voteAnswer, if_neg hno] at ha
      cases ha
    exact h.rests ha (Process.rests_requestVote _ args now hwait)

theorem Sound.restart (h : x.Sound n) {now : Int} (hd : x.Delivers i (.restart now)) :
    (x.step i (.restart now)).Sound n := by
  obtain ⟨hme, hstate⟩ := make_stance (x.nodes i).raft.peers (x.nodes i).raft.me (x.nodes i).disk now
  obtain ⟨hterm, hvote⟩ := hd
  have hfair := h.fair i
  refine h.quiet rfl ⟨hme.trans hfair.me, fun hne => absurd hstate hne, fun hc hne => ?_, fun hl => ?_,
    fun hl => ?_, fun hc => ?_, fun hc => ?_⟩ fun t ht => ?_
  · obtain hlt | ⟨hT, hvoted, -⟩ := hfair.cast hc hne
    · exact .inl (hlt.trans_eq hterm.symm)
    · exact .inr ⟨hterm.trans hT, hvote.trans hvoted, hstate⟩
  · exact (hfair.term hl).trans_eq hterm.symm
  · cases hstate.symm.trans hl
  · cases hstate.symm.trans hc
  · cases hstate.symm.trans hc
  · cases ht

theorem Sound.step (h : x.Sound n) (hstatic : (x.nodes i).raft.isMember = List.replicate n .kVoter)
    (hd : x.Delivers i e) (hkeeps : x.KeepsVote i e) : (x.step i e).Sound n := by
  cases e with
  | requestVote args now => exact h.requestVote hkeeps
  | voteReply args k reply now => exact h.voteReply hstatic hd
  | resume k now => exact h.resume hstatic hkeeps
  | restart now => exact h.restart hd
  | _ => exact h.rests rfl (Process.rests_step _ (by simp) (by simp) (by simp) (by simp))

theorem Sound.run (h : x.Sound n) {es : List (Nat × ProcessEvent)} (hes : x.Meets (Orderly n) es) :
    (x.run es).Sound n := by
  induction es generalizing x with
  | nil => exact h
  | cons a es ih =>
    obtain ⟨⟨⟨hi, hstatic, hd⟩, hkeeps⟩, hrest⟩ := hes
    exact ih (h.step (hstatic a.1 hi) hd hkeeps) hrest

theorem run_append (x : Electorate) (es₁ es₂ : List (Nat × ProcessEvent)) :
    x.run (es₁ ++ es₂) = (x.run es₁).run es₂ := List.foldl_append

theorem Meets.prefix {C : Electorate → Nat → ProcessEvent → Prop} {es₁ es₂ : List (Nat × ProcessEvent)}
    (h : x.Meets C (es₁ ++ es₂)) : x.Meets C es₁ := by
  induction es₁ generalizing x with
  | nil => trivial
  | cons a es₁ ih => exact ⟨h.1, ih h.2⟩

theorem led_mono (x : Electorate) (es : List (Nat × ProcessEvent)) {a : Nat × Int} (h : a ∈ x.led) :
    a ∈ (x.run es).led := by
  induction es generalizing x with
  | nil => exact h
  | cons b es ih =>
    refine ih (x.step b.1 b.2) ?_
    rw [step]
    dsimp only
    split_ifs
    · exact List.mem_insert_of_mem h
    · exact h

/-- A leader at any time of an orderly run is on record at its end. -/
theorem led_of_leads (h : x.Sound n) {es es' : List (Nat × ProcessEvent)} (hes : x.Meets (Orderly n) es)
    (hpre : es' <+: es) {T : Int} (hl : (x.run es').Leads i T) : (i, T) ∈ (x.run es).led := by
  obtain ⟨rest, rfl⟩ := hpre
  rw [run_append]
  refine led_mono _ rest ?_
  obtain ⟨hstate, hterm⟩ := hl
  have hleads := ((h.run hes.prefix).fair i).leads hstate
  rwa [Raft.stance, hterm] at hleads

/-- In a run in which no leader of a term votes there for someone else, a term has one leader. -/
theorem one_leader_per_term (n : Nat) (d : Nat → Disk) (now : Nat → Int)
    {es : List (Nat × ProcessEvent)} (hes : (boot n d now).Meets (Orderly n) es)
    {es₁ es₂ : List (Nat × ProcessEvent)} (h₁ : es₁ <+: es) (h₂ : es₂ <+: es) {i j : Nat} {T : Int}
    (hi : ((boot n d now).run es₁).Leads i T) (hj : ((boot n d now).run es₂).Leads j T) : i = j := by
  have h := boot_sound n d now
  exact (h.run hes).poll.unique (led_of_leads h hes h₁ hi) (led_of_leads h hes h₂ hj)

/-- Node `i` stands, with the pre-vote of `peer`. -/
def standing (i peer : Nat) : List (Nat × ProcessEvent) :=
  [(i, .electionTimeout 1000),
    (i, .prevoteReply { candidateId := i } peer { voteGranted := true } 1000),
    (i, .resume 0 1000), (i, .resume 0 1000)]

/-- A round of heartbeats of node 0 in term 1 that nobody answers. -/
def unheard (now : Int) : List (Nat × ProcessEvent) :=
  [(0, .replicate 1 now), (0, .replicate 2 now), (0, .appendReply { term := 1 } 1 false {} now),
    (0, .appendReply { term := 1 } 2 false {} now), (0, .leaderTick now)]

/-- Nodes 2 and 0 stand for term 1, and node 0 has the vote of node 1. -/
def firstLeader : List (Nat × ProcessEvent) :=
  standing 2 1 ++ standing 0 1 ++
    [(1, .requestVote { term := 1, candidateId := 0 } 1000), (1, .resume 0 1000),
      (0, .voteReply { term := 1, candidateId := 0 } 1 { term := 1, voteGranted := true } 1000)]

/-- CheckQuorum makes node 0 a follower, and the late request of node 2 finds its vote free. -/
def secondLeader : List (Nat × ProcessEvent) :=
  firstLeader ++ [1010, 1020, 1030, 1040, 1050].flatMap unheard ++
    [(0, .leaderTick 1200), (0, .requestVote { term := 1, candidateId := 2 } 1200),
      (2, .voteReply { term := 1, candidateId := 2 } 0 { term := 1, voteGranted := true } 1200)]

theorem one_leader_per_term_unheard :
    ((boot 3 (fun _ => {}) fun _ => 0).run firstLeader).Leads 0 1 ∧
      ((boot 3 (fun _ => {}) fun _ => 0).run (firstLeader ++ unheard 1010)).Leads 0 1 ∧ (0 : Nat) = 0 := by
  have hes : (boot 3 (fun _ => {}) fun _ => 0).Meets (Orderly 3) (firstLeader ++ unheard 1010) := by
    decide +kernel
  have hfirst : ((boot 3 (fun _ => {}) fun _ => 0).run firstLeader).Leads 0 1 := by decide +kernel
  have hlater : ((boot 3 (fun _ => {}) fun _ => 0).run (firstLeader ++ unheard 1010)).Leads 0 1 := by
    decide +kernel
  exact ⟨hfirst, hlater, one_leader_per_term 3 _ _ hes (List.prefix_append _ _) (List.prefix_refl _)
    hfirst hlater⟩

theorem two_leaders_of_one_term : ∃ es : List (Nat × ProcessEvent),
    (boot 3 (fun _ => {}) fun _ => 0).Meets (Occurs 3) es ∧ ∃ es₁ es₂, es₁ <+: es ∧ es₂ <+: es ∧
      ((boot 3 (fun _ => {}) fun _ => 0).run es₁).Leads 0 1 ∧
      ((boot 3 (fun _ => {}) fun _ => 0).run es₂).Leads 2 1 :=
  ⟨secondLeader, by decide +kernel, firstLeader, secondLeader, ⟨_, (List.append_assoc ..).symm⟩,
    List.prefix_refl _, by decide +kernel, by decide +kernel⟩

end Electorate

end ChonKV
