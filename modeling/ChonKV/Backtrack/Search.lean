import Mathlib.Algebra.GroupWithZero.Nat
import Mathlib.Data.List.Basic

/-!
A depth-first search that remembers the positions it has entered: what it has refuted at any time,
what its answer means, and how many turns it takes.
-/

set_option autoImplicit false

namespace Backtrack

/-- Each position has its options, and a move along one lowers the rank. -/
structure Problem (Pos Cand : Type) where
  options : Pos → List Cand
  move : Pos → Cand → Option Pos
  solved : Pos → Prop
  rank : Pos → Nat
  options_le : ∀ p, (options p).length ≤ rank p
  rank_lt : ∀ {p c q}, c ∈ options p → move p c = some q → rank q < rank p

variable {Pos Cand : Type} {P : Problem Pos Cand} {root p q : Pos} {c : Cand} {todo : List Cand}

inductive Problem.Solvable (P : Problem Pos Cand) : Pos → Prop where
  | solved {p : Pos} : P.solved p → P.Solvable p
  | move {p q : Pos} {c : Cand} : c ∈ P.options p → P.move p c = some q → P.Solvable q → P.Solvable p

def Problem.Refuted (P : Problem Pos Cand) (p : Pos) (c : Cand) : Prop :=
  ∀ q, P.move p c = some q → ¬ P.Solvable q

/-- A position that is being searched, and the options that are still to be tried there. -/
structure Level (Pos Cand : Type) where
  pos : Pos
  todo : List Cand

def Problem.level (P : Problem Pos Cand) (p : Pos) : Level Pos Cand := ⟨p, P.options p⟩

/-- The search: what it remembers, the level it is at, and the levels it goes back to. -/
structure Config (Pos Cand : Type) where
  memo : Pos → Prop
  top : Level Pos Cand
  below : List (Level Pos Cand)

variable {memo memo' : Pos → Prop} {top f : Level Pos Cand} {below : List (Level Pos Cand)}
  {a b : Config Pos Cand}

/-- The options that are no longer to be tried are refuted. -/
def Problem.Swept (P : Problem Pos Cand) (lv : Level Pos Cand) : Prop :=
  ∃ tried, P.options lv.pos = tried ++ lv.todo ∧ ∀ c ∈ tried, P.Refuted lv.pos c

/-- Each level was entered from the one below it, along the option before those still to try. -/
def Problem.Hangs (P : Problem Pos Cand) (root : Pos) : Pos → List (Level Pos Cand) → Prop
  | p, [] => p = root
  | p, f :: below =>
    (∃ c, P.Swept ⟨f.pos, c :: f.todo⟩ ∧ P.move f.pos c = some p) ∧ P.Hangs root f.pos below

/-- A remembered position is a dead end, or the search is inside it. -/
structure Problem.Sound (P : Problem Pos Cand) (root : Pos) (a : Config Pos Cand) : Prop where
  swept : P.Swept a.top
  hangs : P.Hangs root a.top.pos a.below
  memo : ∀ q, a.memo q → P.Solvable q → q = a.top.pos ∨ ∃ f ∈ a.below, q = f.pos

/-- One turn of the search. -/
inductive Problem.Turn (P : Problem Pos Cand) : Config Pos Cand → Config Pos Cand → Prop where
  | fail {memo : Pos → Prop} {p : Pos} {c : Cand} {todo : List Cand}
      {below : List (Level Pos Cand)} : P.move p c = none →
      P.Turn ⟨memo, ⟨p, c :: todo⟩, below⟩ ⟨memo, ⟨p, todo⟩, below⟩
  | prune {memo : Pos → Prop} {p q : Pos} {c : Cand} {todo : List Cand}
      {below : List (Level Pos Cand)} :
      P.move p c = some q → memo q →
      P.Turn ⟨memo, ⟨p, c :: todo⟩, below⟩ ⟨memo, ⟨p, todo⟩, below⟩
  | enter {memo memo' : Pos → Prop} {p q : Pos} {c : Cand} {todo : List Cand}
      {below : List (Level Pos Cand)} :
      P.move p c = some q → (∀ r, memo' r → memo r ∨ r = q) →
      P.Turn ⟨memo, ⟨p, c :: todo⟩, below⟩ ⟨memo', P.level q, ⟨p, todo⟩ :: below⟩
  | back {memo : Pos → Prop} {p : Pos} {f : Level Pos Cand} {below : List (Level Pos Cand)} :
      ¬ P.solved p →
      P.Turn ⟨memo, ⟨p, []⟩, f :: below⟩ ⟨memo, f, below⟩

/-- The search is over, with this answer. -/
inductive Problem.Ends (P : Problem Pos Cand) : Config Pos Cand → Bool → Prop where
  | found {memo : Pos → Prop} {top : Level Pos Cand} {below : List (Level Pos Cand)} :
      P.solved top.pos → P.Ends ⟨memo, top, below⟩ true
  | lost {memo : Pos → Prop} {p : Pos} : ¬ P.solved p → P.Ends ⟨memo, ⟨p, []⟩, []⟩ false

theorem Problem.Swept.option (h : P.Swept ⟨p, c :: todo⟩) : c ∈ P.options p := by
  obtain ⟨tried, ht, -⟩ := h
  simp only at ht
  simp [ht]

theorem Problem.Swept.next (h : P.Swept ⟨p, c :: todo⟩) (hc : P.Refuted p c) :
    P.Swept ⟨p, todo⟩ := by
  obtain ⟨tried, ht, hr⟩ := h
  refine ⟨tried ++ [c], by simpa using ht, fun b hb => ?_⟩
  rcases List.mem_append.mp hb with hb | hb
  · exact hr b hb
  · rw [List.mem_singleton.mp hb]
    exact hc

theorem Problem.Swept.dead (h : P.Swept ⟨p, []⟩) (hp : ¬ P.solved p) : ¬ P.Solvable p := by
  obtain ⟨tried, ht, hr⟩ := h
  intro hs
  cases hs with
  | solved hs => exact hp hs
  | move hc hq hs => exact hr _ (by simpa [ht] using hc) _ hq hs

theorem Problem.Hangs.rank_lt (h : P.Hangs root p below) (hf : f ∈ below) :
    P.rank p < P.rank f.pos := by
  induction below generalizing p with
  | nil => simp at hf
  | cons g below ih =>
    obtain ⟨⟨c, hg, hm⟩, hb⟩ := h
    have hlt := P.rank_lt hg.option hm
    rcases List.mem_cons.mp hf with rfl | hf
    · exact hlt
    · exact Nat.lt_trans hlt (ih hb hf)

/-- The answer at any level is the answer at the root. -/
theorem Problem.Hangs.solvable (h : P.Hangs root p below) (hp : P.Solvable p) : P.Solvable root := by
  induction below generalizing p with
  | nil => exact h ▸ hp
  | cons g below ih =>
    obtain ⟨⟨c, hg, hm⟩, hb⟩ := h
    exact ih hb (.move hg.option hm hp)

/-- What is remembered one move on is not on the path, which has a higher rank. -/
theorem Problem.Sound.refuted (h : P.Sound root ⟨memo, ⟨p, c :: todo⟩, below⟩)
    (hq : P.move p c = some q) (hm : memo q) : P.Refuted p c := by
  intro r hr hs
  rw [hq] at hr
  cases hr
  have hlt := P.rank_lt h.swept.option hq
  rcases h.memo q hm hs with hp | ⟨f, hf, hp⟩
  · simp only at hp
    rw [hp] at hlt
    exact absurd hlt (Nat.lt_irrefl _)
  · have hle := h.hangs.rank_lt hf
    rw [hp] at hlt
    exact absurd (Nat.lt_trans hlt hle) (Nat.lt_irrefl _)

theorem Problem.Sound.turn (h : P.Sound root a) (ht : P.Turn a b) : P.Sound root b := by
  cases ht with
  | fail hc =>
    refine ⟨h.swept.next fun q hq => ?_, h.hangs, h.memo⟩
    rw [hc] at hq
    cases hq
  | prune hq hm => exact ⟨h.swept.next (h.refuted hq hm), h.hangs, h.memo⟩
  | enter hq hm =>
    refine ⟨⟨[], rfl, by simp⟩, ⟨⟨_, h.swept, hq⟩, h.hangs⟩, fun r hr hs => ?_⟩
    rcases hm r hr with hr | rfl
    · rcases h.memo r hr hs with hp | ⟨f, hf, hp⟩
      · exact Or.inr ⟨_, List.mem_cons_self, hp⟩
      · exact Or.inr ⟨f, List.mem_cons_of_mem _ hf, hp⟩
    · exact Or.inl rfl
  | back hp =>
    have hdead := h.swept.dead hp
    obtain ⟨⟨c, hf, hm⟩, hb⟩ := h.hangs
    refine ⟨hf.next fun q hq => ?_, hb, fun r hr hs => ?_⟩
    · rw [hm] at hq
      cases hq
      exact hdead
    · rcases h.memo r hr hs with rfl | ⟨g, hg, rfl⟩
      · exact absurd hs hdead
      · rcases List.mem_cons.mp hg with rfl | hg
        · exact Or.inl rfl
        · exact Or.inr ⟨g, hg, rfl⟩

theorem Problem.Sound.ends {r : Bool} (h : P.Sound root a) (he : P.Ends a r) :
    r = true ↔ P.Solvable root := by
  cases he with
  | found hs => simpa using h.hangs.solvable (.solved hs)
  | lost hp =>
    have hdead := h.swept.dead hp
    have hroot : _ = root := h.hangs
    simpa [← hroot] using hdead

/-- How many turns a position of the rank takes, with everything that is entered from it. -/
def turns : Nat → Nat
  | 0 => 0
  | r + 1 => r * (1 + turns r) + 1

theorem turns_mono {r s : Nat} (h : r ≤ s) : turns r ≤ turns s := by
  induction s generalizing r with
  | zero => simp [Nat.le_zero.mp h]
  | succ s ih =>
    cases r with
    | zero => simp [turns]
    | succ r =>
      have hrs : r ≤ s := by omega
      have hmul : r * (1 + turns r) ≤ s * (1 + turns s) :=
        Nat.mul_le_mul hrs (Nat.add_le_add_left (ih hrs) 1)
      simpa [turns] using hmul

def Problem.effort (P : Problem Pos Cand) (lv : Level Pos Cand) : Nat :=
  lv.todo.length * (1 + turns (P.rank lv.pos)) + 1

def Problem.work (P : Problem Pos Cand) (a : Config Pos Cand) : Nat :=
  P.effort a.top + (a.below.map P.effort).sum

theorem Problem.effort_level : P.effort (P.level p) ≤ turns (P.rank p + 1) := by
  have h := Nat.mul_le_mul_right (1 + turns (P.rank p)) (P.options_le p)
  simpa [effort, level, turns] using h

theorem Problem.effort_cons :
    P.effort ⟨p, c :: todo⟩ = P.effort ⟨p, todo⟩ + (1 + turns (P.rank p)) := by
  simp only [effort, List.length_cons, Nat.succ_mul]
  omega

theorem Problem.Turn.work_lt (h : P.Sound root a) (ht : P.Turn a b) : P.work b < P.work a := by
  cases ht with
  | fail _ | prune _ _ =>
    simp only [work, effort_cons]
    omega
  | enter hq _ =>
    have hlevel := Nat.le_trans P.effort_level (turns_mono (P.rank_lt h.swept.option hq))
    simp only [work, effort_cons, List.map_cons, List.sum_cons]
    omega
  | back _ =>
    simp only [work, List.map_cons, List.sum_cons, effort]
    omega

/-- A loop that answers or goes on, cut off after so many turns. -/
def iterate {σ : Type} (step : σ → σ ⊕ Bool) : Nat → σ → Option Bool
  | 0, _ => none
  | fuel + 1, s =>
    match step s with
    | .inl s => iterate step fuel s
    | .inr r => some r

/-- A loop whose turns are turns of the search gives the answer. -/
theorem iterate_search {σ : Type} {step : σ → σ ⊕ Bool} {R : σ → Config Pos Cand → Prop}
    (hstep : ∀ s a, R s a → P.Sound root a →
      (∃ s' b, step s = .inl s' ∧ R s' b ∧ P.Turn a b) ∨ ∃ r, step s = .inr r ∧ P.Ends a r)
    {s : σ} (hs : R s a) (ha : P.Sound root a) {fuel : Nat} (hf : P.work a ≤ fuel) :
    ∃ r, iterate step fuel s = some r ∧ (r = true ↔ P.Solvable root) := by
  induction fuel generalizing s a with
  | zero => simp [Problem.work, Problem.effort] at hf
  | succ fuel ih =>
    rcases hstep s a hs ha with ⟨s', b, hb, hR, ht⟩ | ⟨r, hr, he⟩
    · have hlt := ht.work_lt ha
      simpa [iterate, hb] using ih hR (ha.turn ht) (by omega)
    · exact ⟨r, by simp [iterate, hr], ha.ends he⟩

/-- The search at its start. -/
theorem Problem.Sound.start (P : Problem Pos Cand) (root : Pos) : P.Sound root ⟨fun _ => False, P.level root, []⟩ :=
  ⟨⟨[], rfl, by simp⟩, rfl, by simp⟩

theorem Problem.work_start (P : Problem Pos Cand) (memo : Pos → Prop) (root : Pos) :
    P.work ⟨memo, P.level root, []⟩ ≤ turns (P.rank root + 1) := by
  simpa [work] using P.effort_level

end Backtrack
