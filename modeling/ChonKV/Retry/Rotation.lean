import Mathlib.Tactic.Common
import Mathlib.Tactic.Ring

/-!
Loops that try again until a turn gives a result, and the cursors of such a loop over `n` places: a
place that does not answer is left for the one behind it, a place that refuses is left for a second
cursor that goes round, and only once for a place that it names.
-/

set_option autoImplicit false

namespace Retry

/-- The result of the first turn that has one, and how many turns were taken. -/
def loop {σ ρ : Type} (turn : Nat → σ → σ ⊕ ρ) : Nat → Nat → σ → Option (ρ × Nat)
  | 0, _, _ => none
  | fuel+1, k, s =>
    match turn k s with
    | .inl s' => loop turn fuel (k+1) s'
    | .inr r => some (r, k+1)

/-- A loop ends when every turn that gives no result lowers a measure. -/
theorem loop_ends {σ ρ : Type} {turn : Nat → σ → σ ⊕ ρ} (Inv : σ → Prop) (Good : ρ → Prop)
    (measure : σ → Nat)
    (hturn : ∀ k s, Inv s → (∃ s', turn k s = .inl s' ∧ Inv s' ∧ measure s' < measure s) ∨
      ∃ r, turn k s = .inr r ∧ Good r)
    {fuel k : Nat} {s : σ} (hs : Inv s) (hfuel : measure s < fuel) :
    ∃ r m, loop turn fuel k s = some (r, m) ∧ m ≤ k + measure s + 1 ∧ Good r := by
  induction fuel generalizing k s with
  | zero => exact absurd hfuel (Nat.not_lt_zero _)
  | succ fuel ih =>
    obtain ⟨s', hs', hinv, hlt⟩ | ⟨r, hr, hgood⟩ := hturn k s hs
    · obtain ⟨r, m, hloop, hm, hgood⟩ := ih (k := k+1) hinv (by omega)
      exact ⟨r, m, by simp [loop, hs', hloop], by omega, hgood⟩
    · exact ⟨r, k+1, by simp [loop, hr], by omega, hgood⟩

/-- How many places lie from `i` on to `g`. -/
def away (n g i : Nat) : Nat := (g + n - i) % n

section Ring
variable {n g i : Nat}

theorem away_lt (hn : 0 < n) : away n g i < n := Nat.mod_lt _ hn

theorem away_of_le (hg : g < n) (hi : i ≤ g) : away n g i = g - i := by
  have hsum : g + n - i = g - i + n := by omega
  rw [away, hsum, Nat.add_mod_right, Nat.mod_eq_of_lt (by omega)]

theorem away_of_lt (hi : i < n) (hgi : g < i) : away n g i = g + n - i :=
  Nat.mod_eq_of_lt (by omega)

/-- The place behind is one nearer. -/
theorem away_next (hg : g < n) (hi : i < n) (hne : i ≠ g) :
    away n g ((i+1) % n) + 1 = away n g i := by
  obtain hlt | hwrap : i + 1 < n ∨ i + 1 = n := by omega
  · rw [Nat.mod_eq_of_lt hlt]
    obtain hgi | hgi : g < i ∨ i + 1 ≤ g := by omega
    · rw [away_of_lt hi hgi, away_of_lt hlt (by omega)]
      omega
    · rw [away_of_le hg hgi, away_of_le hg (by omega)]
      omega
  · rw [hwrap, Nat.mod_self, away_of_le hg (Nat.zero_le g), away_of_lt hi (by omega)]
    omega

end Ring

/-- The place whose turn it is, the cursor that goes round, and whether a named place was tried. -/
structure Cursors where
  here : Nat
  round : Nat
  jumped : Bool
  deriving DecidableEq, Repr

namespace Cursors

def InRange (n : Nat) (c : Cursors) : Prop := c.here < n ∧ c.round < n

/-- The place does not answer. -/
def skip (n : Nat) (c : Cursors) : Cursors := { c with here := (c.here + 1) % n }

/-- The place refuses, and the next one comes from the cursor that goes round. -/
def turn (n : Nat) (c : Cursors) : Cursors :=
  { c with here := c.round, round := (c.round + 1) % n }

/-- The place refuses and names another. -/
def jump (n next : Nat) : Cursors := ⟨next, (next + 1) % n, true⟩

theorem InRange.skip {n : Nat} {c : Cursors} (h : c.InRange n) : (c.skip n).InRange n :=
  ⟨Nat.mod_lt _ (by have := h.1; omega), h.2⟩

theorem InRange.turn {n : Nat} {c : Cursors} (h : c.InRange n) : (c.turn n).InRange n :=
  ⟨h.2, Nat.mod_lt _ (by have := h.1; omega)⟩

theorem jump_inRange {n next : Nat} (h : next < n) : (jump n next).InRange n :=
  ⟨h, Nat.mod_lt _ (by omega)⟩

/-- A round of the ring for every place that the cursor still has to pass before `g`, and a round
of rounds while a place may still be named. -/
def toGo (n g : Nat) (c : Cursors) : Nat :=
  if c.here = g then 0
  else n * (away n g c.round + 1) + away n g c.here + if c.jumped then 0 else n * (n + 1)

theorem toGo_arrived {n g : Nat} {c : Cursors} (h : c.here = g) : c.toGo n g = 0 := if_pos h

theorem toGo_away {n g : Nat} {c : Cursors} (h : c.here ≠ g) :
    c.toGo n g = n * (away n g c.round + 1) + away n g c.here +
      if c.jumped then 0 else n * (n + 1) := if_neg h

section Progress
variable {n g : Nat} {c : Cursors}

theorem toGo_pos (hg : g < n) (hne : c.here ≠ g) : 0 < c.toGo n g := by
  have hround : n * 1 ≤ n * (away n g c.round + 1) := Nat.mul_le_mul_left n (by omega)
  rw [toGo_away hne]
  omega

theorem toGo_lt (hg : g < n) : c.toGo n g < 2 * n * (n + 1) := by
  have hn : 0 < n := by omega
  have hround : n * (away n g c.round + 1) ≤ n * n := Nat.mul_le_mul_left n (away_lt hn)
  have hhere : away n g c.here < n := away_lt hn
  have htotal : 2 * n * (n + 1) = n * n + n + n * (n + 1) := by ring
  rw [toGo, htotal]
  split_ifs <;> omega

theorem skip_lowers (hg : g < n) (hc : c.InRange n) (hne : c.here ≠ g) :
    (c.skip n).toGo n g < c.toGo n g := by
  by_cases hnext : (c.here + 1) % n = g
  · rw [toGo_arrived hnext]
    exact toGo_pos hg hne
  · have hstep := away_next hg hc.1 hne
    have hafter : (c.skip n).toGo n g = n * (away n g c.round + 1) +
        away n g ((c.here + 1) % n) + if c.jumped then 0 else n * (n + 1) := toGo_away hnext
    rw [toGo_away hne, hafter]
    omega

theorem turn_lowers (hg : g < n) (hc : c.InRange n) (hne : c.here ≠ g) :
    (c.turn n).toGo n g < c.toGo n g := by
  by_cases hround : c.round = g
  · rw [toGo_arrived hround]
    exact toGo_pos hg hne
  · have hstep := away_next hg hc.2 hround
    have hlt : away n g c.round < n := away_lt (by omega)
    have hmul : n * (away n g c.round + 1) = n * away n g c.round + n := by ring
    have hafter : (c.turn n).toGo n g = n * (away n g ((c.round + 1) % n) + 1) +
        away n g c.round + if c.jumped then 0 else n * (n + 1) := toGo_away hround
    rw [toGo_away hne, hafter, hstep, hmul]
    omega

theorem jump_lowers {next : Nat} (hg : g < n) (hnext : next < n) (hne : c.here ≠ g)
    (hfirst : c.jumped = false) : (jump n next).toGo n g < c.toGo n g := by
  by_cases hthere : next = g
  · rw [toGo_arrived hthere]
    exact toGo_pos hg hne
  · have hstep := away_next hg hnext hthere
    have hlt : away n g next < n := away_lt (by omega)
    have hround : n * away n g next ≤ n * n := Nat.mul_le_mul_left n (by omega)
    have hmul : n * (away n g c.round + 1) = n * away n g c.round + n := by ring
    have hbonus : n * (n + 1) = n * n + n := by ring
    have hafter : (jump n next).toGo n g = n * (away n g ((next + 1) % n) + 1) +
        away n g next + 0 := toGo_away hthere
    have hbefore : c.toGo n g = n * (away n g c.round + 1) + away n g c.here + n * (n + 1) := by
      rw [toGo_away hne, hfirst]
      rfl
    rw [hbefore, hafter, hstep, hmul, hbonus]
    omega

end Progress
end Cursors
end Retry
