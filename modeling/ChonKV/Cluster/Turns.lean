import ChonKV.Cluster.Step

/-!
What an event is: a stretch of one node, if there is such a node and something for it to do.
-/

set_option autoImplicit false

namespace ChonKV

open Function (update)

section
variable {σ : Type}

/-- A client that calls `ReadIndex` is on record before the call begins. -/
def Cluster.called (c : Cluster σ) : Event → Cluster σ
  | .read i _ => { c with calls := c.calls ++ [{ node := i, floor := c.maxCommit }] }
  | _ => c

@[simp] theorem Cluster.called_nodes (c : Cluster σ) (e : Event) : (c.called e).nodes = c.nodes := by
  cases e <;> rfl

@[simp] theorem Cluster.called_packets (c : Cluster σ) (e : Event) : (c.called e).packets = c.packets := by
  cases e <;> rfl

@[simp] theorem Cluster.called_answers (c : Cluster σ) (e : Event) : (c.called e).answers = c.answers := by
  cases e <;> rfl

@[simp] theorem Cluster.called_maxCommit (c : Cluster σ) (e : Event) : (c.called e).maxCommit = c.maxCommit := by
  cases e <;> rfl

variable [DecidableEq σ] (n : Nat) (svc : Service σ)

/-- The stretch of node `i` that an event stands for, and what it leaves behind. -/
inductive Cluster.Turn (c : Cluster σ) : Event → Nat → Effect σ → Prop
  | electionTimeout (i : Nat) (now : Int) :
      Turn c (.electionTimeout i now) i ((c.nodes i).electionTimeout now)
  | leaderTick (i : Nat) (now : Int) : Turn c (.leaderTick i now) i ((c.nodes i).leaderTick now)
  | runTask (i k : Nat) (now : Int) (t : Task) (h : (c.nodes i).tasks[k]? = some t) :
      Turn c (.runTask i k now) i
        ({ c.nodes i with tasks := (c.nodes i).tasks.eraseIdx k }.runTask c.packets.length now t)
  | noTask (i k : Nat) (now : Int) : Turn c (.runTask i k now) i { node := c.nodes i }
  | deliver (k : Nat) (now : Int) (p : Packet) (h : c.packets[k]? = some p) :
      Turn c (.deliver k now) p.dst ((c.nodes p.dst).deliver p now)
  | answer (k : Nat) (now : Int) (a : Answer) (h : c.answers[k]? = some a) :
      Turn c (.answer k now) a.packet.src ((c.nodes a.packet.src).answer a.packet a.reply now)
  | fail (k : Nat) (now : Int) (p : Packet) (h : c.packets[k]? = some p) :
      Turn c (.fail k now) p.src ((c.nodes p.src).fail p now)
  | replicate (i s : Nat) (now : Int) (h : s ≠ i ∧ s < n) :
      Turn c (.replicate i s now) i ((c.nodes i).replicate s now)
  | start (i : Nat) (command : Command) : Turn c (.start i command) i ((c.nodes i).start command)
  | proposeConf (i : Nat) (server : Int) (target : MemberRole) :
      Turn c (.proposeConf i server target) i ((c.nodes i).proposeConf server target)
  | applyLoop (i : Nat) (now : Int) : Turn c (.applyLoop i now) i ((c.nodes i).applyLoop now)
  | consume (i : Nat) : Turn c (.consume i) i { node := (c.nodes i).consume svc }
  | takeSnapshot (i : Nat) (index : Int) (data : Bytes) :
      Turn c (.takeSnapshot i index data) i { node := (c.nodes i).takeSnapshot svc index data }
  | kill (i : Nat) : Turn c (.kill i) i { node := (c.nodes i).kill }
  | restart (i : Nat) (now : Int) : Turn c (.restart i now) i { node := (c.nodes i).restart svc n i now }
  | read (i : Nat) (now : Int) : Turn c (.read i now) i
      ((c.nodes i).openRead (.client c.calls.length) c.packets.length now)
  | setLimits (i : Nat) (m : Int) (b : Nat) : Turn c (.setLimits i m b) i { node := { c.nodes i with
      raft := { (c.nodes i).raft with maxUncommittedEntries := m, maxRaftStateBytes := b } } }

variable {n svc} {c : Cluster σ} {i : Nat} {f : Server σ → Effect σ} {e : Event}

theorem on_turn {d : Cluster σ} (h : i < n → Cluster.Turn n svc c e i (f (d.nodes i))) :
    d.on n i f = d ∨ ∃ j < n, ∃ ef, Cluster.Turn n svc c e j ef ∧ d.on n i f = d.put j ef := by
  unfold Cluster.on
  split_ifs with hi
  · exact .inr ⟨i, hi, _, h hi, rfl⟩
  · exact .inl rfl

/-- Nothing happens, or one node takes its turn. -/
theorem Cluster.step_cases (n : Nat) (svc : Service σ) (c : Cluster σ) (e : Event) :
    c.step n svc e = c.called e ∨
      ∃ i < n, ∃ ef, Turn n svc c e i ef ∧ c.step n svc e = (c.called e).put i ef := by
  cases e with
  | electionTimeout i now =>
    dsimp only [step, called]
    exact on_turn fun _ => .electionTimeout i now
  | leaderTick i now =>
    dsimp only [step, called]
    exact on_turn fun _ => .leaderTick i now
  | runTask i k now =>
    dsimp only [step, called]
    refine on_turn fun _ => ?_
    split
    · exact .noTask i k now
    · next t ht => exact .runTask i k now t ht
  | deliver k now =>
    dsimp only [step, called]
    cases hp : c.packets[k]? with
    | none => exact .inl rfl
    | some p =>
    dsimp only [step, called]
    exact on_turn fun _ => .deliver k now p hp
  | answer k now =>
    dsimp only [step, called]
    cases ha : c.answers[k]? with
    | none => exact .inl rfl
    | some a =>
    dsimp only [step, called]
    exact on_turn fun _ => .answer k now a ha
  | fail k now =>
    dsimp only [step, called]
    cases hp : c.packets[k]? with
    | none => exact .inl rfl
    | some p =>
    dsimp only [step, called]
    exact on_turn fun _ => .fail k now p hp
  | replicate i s now =>
    dsimp only [step, called]
    split_ifs with hs
    · exact .inl rfl
    · rw [not_or, not_le] at hs
      exact on_turn fun _ => .replicate i s now hs
  | start i command =>
    dsimp only [step, called]
    exact on_turn fun _ => .start i command
  | proposeConf i server target =>
    dsimp only [step, called]
    exact on_turn fun _ => .proposeConf i server target
  | applyLoop i now =>
    dsimp only [step, called]
    exact on_turn fun _ => .applyLoop i now
  | consume i =>
    dsimp only [step, called]
    exact on_turn fun _ => .consume i
  | takeSnapshot i index data =>
    dsimp only [step, called]
    exact on_turn fun _ => .takeSnapshot i index data
  | kill i =>
    dsimp only [step, called]
    exact on_turn fun _ => .kill i
  | restart i now =>
    dsimp only [step, called]
    exact on_turn fun _ => .restart i now
  | read i now =>
    dsimp only [step, called]
    exact on_turn fun _ => .read i now
  | setLimits i m b =>
    dsimp only [step, called]
    exact on_turn fun _ => .setLimits i m b

/-- What was committed is not forgotten. -/
theorem Cluster.maxCommit_step (n : Nat) (svc : Service σ) (c : Cluster σ) (e : Event) :
    c.maxCommit ≤ (c.step n svc e).maxCommit := by
  rcases Cluster.step_cases n svc c e with heq | ⟨i, -, ef, -, heq⟩
  · rw [heq, Cluster.called_maxCommit]
  · rw [heq, ← c.called_maxCommit e]
    exact le_max_left _ _

end
end ChonKV
