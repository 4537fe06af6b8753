import Mathlib.Data.List.Sort
import Mathlib.Order.Basic

/-!
The `k`-th greatest element of a sorted list is the greatest bound that `k` elements reach.
-/

set_option autoImplicit false

namespace Assoc

variable {α : Type} [LinearOrder α] {l : List α} {k i : Nat} {n : α}

/-- How many elements reach `n`. -/
def reach (l : List α) (n : α) : Nat := l.countP fun a => decide (n ≤ a)

theorem reach_perm {m : List α} (h : l.Perm m) (n : α) : reach l n = reach m n := h.countP_eq _

theorem reach_le_drop (hi : ∀ a ∈ l.take i, a < n) : reach l n ≤ l.length - i := by
  have hnone : (l.take i).countP (fun a => decide (n ≤ a)) = 0 :=
    List.countP_eq_zero.mpr fun a ha => by simpa using hi a ha
  have hsplit : reach l n = (l.take i).countP (fun a => decide (n ≤ a)) +
      (l.drop i).countP (fun a => decide (n ≤ a)) := by
    rw [reach, ← List.countP_append, List.take_append_drop]
  have hle := List.countP_le_length (p := fun a => decide (n ≤ a)) (l := l.drop i)
  rw [List.length_drop] at hle
  omega

theorem drop_le_reach (hi : ∀ a ∈ l.drop i, n ≤ a) : l.length - i ≤ reach l n := by
  have hall : (l.drop i).countP (fun a => decide (n ≤ a)) = (l.drop i).length :=
    List.countP_eq_length.mpr fun a ha => by simpa using hi a ha
  have hsub := (List.drop_sublist i l).countP_le (p := fun a => decide (n ≤ a))
  rw [hall, List.length_drop] at hsub
  exact hsub

/-- In an ascending list `k` elements reach `n` when the `k`-th from the end does. -/
theorem le_reach_iff (hs : l.Pairwise (· ≤ ·)) (hk : 0 < k) (hkl : k ≤ l.length) (d : α) :
    k ≤ reach l n ↔ n ≤ l.getD (l.length - k) d := by
  have hlt : l.length - k < l.length := by omega
  have hget : l.getD (l.length - k) d = l[l.length - k] := by
    rw [List.getD_eq_getElem?_getD, List.getElem?_eq_getElem hlt, Option.getD_some]
  rw [hget]
  constructor
  · intro h
    by_contra hn
    have hall : ∀ a ∈ l.take (l.length - k + 1), a < n := by
      intro a ha
      obtain ⟨j, hj, rfl⟩ := List.mem_take_iff_getElem.mp ha
      refine lt_of_le_of_lt ?_ (not_le.mp hn)
      obtain hji | hji := Nat.lt_or_eq_of_le (Nat.le_of_lt_succ (lt_of_lt_of_le hj (min_le_left _ _)))
      · exact List.pairwise_iff_getElem.mp hs j (l.length - k) _ hlt hji
      · simp [hji]
    have hle := reach_le_drop hall
    omega
  · intro h
    have hall : ∀ a ∈ l.drop (l.length - k), n ≤ a := by
      intro a ha
      obtain ⟨j, hj, rfl⟩ := List.mem_drop_iff_getElem.mp ha
      refine h.trans ?_
      obtain _ | j := j
      · simp
      · exact List.pairwise_iff_getElem.mp hs (l.length - k) _ hlt _ (by omega)
    have hge := drop_le_reach hall
    omega

end Assoc
