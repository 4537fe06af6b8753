import Mathlib.Algebra.Order.Group.Int
import Mathlib.Data.List.Basic
import Mathlib.Data.List.Induction

/-!
Lists whose elements carry consecutive numbers: where a bound on the number cuts them.
-/

set_option autoImplicit false

namespace Assoc

variable {α : Type}

/-- The elements carry the numbers `first`, `first+1` and so on. -/
def Numbered (f : α → Int) (first : Int) : List α → Prop
  | [] => True
  | a :: l => f a = first ∧ Numbered f (first+1) l

instance decNumbered (f : α → Int) : ∀ (first : Int) (l : List α), Decidable (Numbered f first l)
  | _, [] => isTrue trivial
  | first, a :: l =>
    have := decNumbered f (first+1) l
    inferInstanceAs (Decidable (f a = first ∧ Numbered f (first+1) l))

variable {f : α → Int} {first : Int} {l m : List α} {a b : α}

@[simp] theorem numbered_nil : Numbered f first [] := trivial

@[simp] theorem numbered_cons :
    Numbered f first (a :: l) ↔ f a = first ∧ Numbered f (first+1) l := Iff.rfl

theorem numbered_append :
    Numbered f first (l ++ m) ↔ Numbered f first l ∧ Numbered f (first + l.length) m := by
  induction l generalizing first with
  | nil => simp
  | cons a l ih =>
    have hlen : first + 1 + (l.length : Int) = first + ((l.length + 1 : Nat) : Int) := by omega
    simp [ih, hlen, and_assoc]

theorem Numbered.push (h : Numbered f first l) (ha : f a = first + l.length) :
    Numbered f first (l ++ [a]) :=
  numbered_append.mpr ⟨h, ha, trivial⟩

theorem Numbered.take (h : Numbered f first l) (k : Nat) : Numbered f first (l.take k) := by
  rw [← List.take_append_drop k l] at h
  exact (numbered_append.mp h).1

theorem Numbered.drop (h : Numbered f first l) (k : Nat) : Numbered f (first + k) (l.drop k) := by
  induction l generalizing first k with
  | nil => simp
  | cons a l ih =>
    cases k with
    | zero => simpa using h
    | succ k =>
      have hlen : first + 1 + (k : Int) = first + ((k + 1 : Nat) : Int) := by omega
      simpa [hlen] using ih h.2 k

theorem Numbered.get (h : Numbered f first l) {k : Nat} (hk : l[k]? = some a) : f a = first + k := by
  induction l generalizing first k with
  | nil => simp at hk
  | cons b l ih =>
    cases k with
    | zero =>
      simp only [List.getElem?_cons_zero, Option.some.injEq] at hk
      simp [← hk, h.1]
    | succ k =>
      have hget := ih h.2 (k := k) (by simpa using hk)
      push_cast
      omega

theorem Numbered.getLast (h : Numbered f first l) (hl : l.getLast? = some a) :
    f a = first + l.length - 1 := by
  have hne : l ≠ [] := by
    intro hnil
    simp [hnil] at hl
  have hpos := List.length_pos_iff.mpr hne
  rw [List.getLast?_eq_getElem?] at hl
  have hget := h.get hl
  omega

/-- How many elements are not above the bound. -/
theorem Numbered.takeWhile_le (h : Numbered f first l) (i : Int) :
    (l.takeWhile fun a => decide (f a ≤ i)).length = min l.length (i + 1 - first).toNat := by
  induction l generalizing first with
  | nil => simp
  | cons a l ih =>
    have hf := h.1
    by_cases hle : first ≤ i
    · have hlen := ih h.2
      simp only [List.takeWhile_cons, hf, hle, decide_true, ↓reduceIte, List.length_cons, hlen]
      omega
    · simp only [List.takeWhile_cons, hf, hle, decide_false, Bool.false_eq_true, ↓reduceIte,
        List.length_nil, List.length_cons]
      omega

/-- The elements above the bound stand behind the others. -/
theorem Numbered.filter_gt (h : Numbered f first l) (i : Int) :
    (l.filter fun a => decide (i < f a)) = l.drop (i + 1 - first).toNat := by
  induction l generalizing first with
  | nil => simp
  | cons a l ih =>
    have hf := h.1
    by_cases hlt : i < first
    · have hzero : (i + 1 - first).toNat = 0 := by omega
      have hzero' : (i - first).toNat = 0 := by omega
      simp [hf, hlt, ih h.2, hzero, hzero']
    · have hsucc : (i + 1 - first).toNat = (i + 1 - (first + 1)).toNat + 1 := by omega
      simp [hf, hlt, ih h.2, hsucc]

theorem Numbered.lower (h : Numbered f first l) (ha : a ∈ l) : first ≤ f a := by
  induction l generalizing first with
  | nil => cases ha
  | cons b l ih =>
    cases ha with
    | head => exact h.1.ge
    | tail _ ha =>
      have hle := ih h.2 ha
      omega

/-- The last element of a kind carries the greatest number of its kind. -/
theorem Numbered.le_last (h : Numbered f first l) {p : α → Bool}
    (hb : (l.filter p).getLast? = some b) (ha : a ∈ l) (hp : p a = true) : f a ≤ f b := by
  induction l using List.reverseRecOn with
  | nil => cases ha
  | append_singleton l c ih =>
    have hsplit := numbered_append.mp h
    rw [List.filter_append] at hb
    by_cases hc : p c
    · have hbc : b = c := by simpa [hc, eq_comm] using hb
      subst hbc
      cases List.mem_append.mp ha with
      | inl ha =>
        obtain ⟨k, hk⟩ := List.mem_iff_getElem?.mp ha
        have hidx := hsplit.1.get hk
        have hlt := (List.getElem?_eq_some_iff.mp hk).1
        have hlast := hsplit.2.1
        omega
      | inr ha => rw [List.mem_singleton.mp ha]
    · simp only [List.filter_cons, hc, Bool.false_eq_true, ↓reduceIte, List.filter_nil,
        List.append_nil] at hb
      refine ih hsplit.1 hb ?_
      cases List.mem_append.mp ha with
      | inl ha => exact ha
      | inr ha =>
        rw [List.mem_singleton.mp ha] at hp
        exact absurd hp hc

theorem Numbered.isChain (h : Numbered f first l) : List.IsChain (fun a b => f b = f a + 1) l := by
  induction l generalizing first with
  | nil => exact .nil
  | cons a l ih =>
    cases l with
    | nil => exact .singleton a
    | cons b l =>
      refine .cons_cons ?_ (ih h.2)
      rw [h.2.1, h.1]

end Assoc
