import Mathlib.Data.List.Nodup
import Mathlib.Data.List.Perm.Basic
import Mathlib.Tactic.Common

/-!
Association lists with distinct keys: lookup, removal, and `bump`, which puts a key in front of the
others with a new value.
-/

set_option autoImplicit false

namespace Assoc

variable {κ ν : Type} [DecidableEq κ]

abbrev keys (l : List (κ × ν)) : List κ := l.map Prod.fst

def find (k : κ) : List (κ × ν) → Option ν
  | [] => none
  | (a, v) :: l => if a = k then some v else find k l

def remove (k : κ) (l : List (κ × ν)) : List (κ × ν) := l.filter fun p => decide (p.1 ≠ k)

def bump (k : κ) (v : ν) (l : List (κ × ν)) : List (κ × ν) := (k, v) :: remove k l

theorem find_eq_none {k : κ} : ∀ {l : List (κ × ν)}, find k l = none ↔ k ∉ keys l
  | [] => by simp [find]
  | (a, v) :: l => by
    by_cases ha : a = k
    · simp [find, ha]
    · simp [find, ha, find_eq_none (l := l), Ne.symm ha]

theorem mem_of_find {k : κ} {v : ν} : ∀ {l : List (κ × ν)}, find k l = some v → (k, v) ∈ l
  | (a, w) :: l, h => by
    by_cases ha : a = k
    · rw [find, if_pos ha] at h
      rw [← ha, ← Option.some_inj.mp h]
      exact List.mem_cons_self
    · rw [find, if_neg ha] at h
      exact List.mem_cons_of_mem _ (mem_of_find h)

theorem find_of_mem {k : κ} {v : ν} : ∀ {l : List (κ × ν)}, (keys l).Nodup → (k, v) ∈ l →
    find k l = some v
  | (a, w) :: l, hn, h => by
    obtain ⟨hout, hn⟩ := List.nodup_cons.mp hn
    rcases List.mem_cons.mp h with heq | h
    · cases heq
      exact if_pos rfl
    · have hne : a ≠ k := by
        rintro rfl
        exact hout (List.mem_map.mpr ⟨_, h, rfl⟩)
      rw [find, if_neg hne]
      exact find_of_mem hn h

/-- With distinct keys, the order of the list does not matter to a lookup. -/
theorem find_perm {k : κ} {l l' : List (κ × ν)} (hn : (keys l).Nodup) (h : l.Perm l') :
    find k l' = find k l := by
  cases hf : find k l with
  | none =>
    rw [find_eq_none] at hf ⊢
    exact fun hm => hf ((h.map Prod.fst).mem_iff.mpr hm)
  | some v => exact find_of_mem ((h.map Prod.fst).nodup_iff.mp hn) (h.mem_iff.mp (mem_of_find hf))

theorem find_append {k : κ} (l' : List (κ × ν)) : ∀ (l : List (κ × ν)),
    find k (l ++ l') = (find k l).or (find k l')
  | [] => rfl
  | (a, v) :: l => by
    by_cases ha : a = k
    · simp [find, ha]
    · simp [find, ha, find_append l' l]

@[simp] theorem find_remove_self (k : κ) (l : List (κ × ν)) : find k (remove k l) = none :=
  find_eq_none.mpr (by simp [remove])

theorem find_remove {j k : κ} (hne : k ≠ j) : ∀ (l : List (κ × ν)), find j (remove k l) = find j l
  | [] => rfl
  | (a, v) :: l => by
    by_cases ha : a = k
    · subst ha
      rw [remove, List.filter_cons_of_neg (by simp), find, if_neg hne]
      exact find_remove hne l
    · rw [remove, List.filter_cons_of_pos (by simpa using ha), find, find]
      exact congrArg _ (find_remove hne l)

theorem find_of_remove {j k : κ} {v : ν} {l : List (κ × ν)} (h : find j (remove k l) = some v) :
    find j l = some v := by
  by_cases hk : k = j
  · simp [hk] at h
  · rwa [find_remove hk] at h

theorem find_bump {j k : κ} {v : ν} {l : List (κ × ν)} :
    find j (bump k v l) = if k = j then some v else find j l := by
  by_cases h : k = j
  · rw [bump, find, if_pos h, if_pos h]
  · rw [bump, find, if_neg h, if_neg h, find_remove h]

theorem nodup_bump {k : κ} {v : ν} {l : List (κ × ν)} (h : (keys l).Nodup) :
    (keys (bump k v l)).Nodup :=
  List.nodup_cons.mpr ⟨by simp [remove], h.sublist (List.filter_sublist.map _)⟩

theorem remove_of_notMem {k : κ} {l : List (κ × ν)} (h : k ∉ keys l) : remove k l = l := by
  refine List.filter_eq_self.mpr fun p hp => ?_
  exact decide_eq_true fun heq => h (heq ▸ List.mem_map_of_mem hp)

end Assoc
