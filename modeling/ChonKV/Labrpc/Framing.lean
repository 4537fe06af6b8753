import Mathlib.Data.List.Basic
import Mathlib.Tactic.Common

/-!
Readers that consume the front of a list of symbols. A reader frames a word when it takes exactly
that word off any input, and refuses every input that ends inside it. Symbols and values are
arbitrary.
-/

set_option autoImplicit false

namespace Framing

variable {β α γ : Type}

/-- A reader takes a value off the front of its input, or fails. -/
abbrev Reader (β α : Type) := StateT (List β) Option α

/-- `d` reads the word `w` as `a`, whatever follows, and nothing that stops before its end. -/
structure Frames (w : List β) (d : Reader β α) (a : α) : Prop where
  reads : ∀ rest, d (w ++ rest) = some (a, rest)
  cut : ∀ p, p <+: w → p ≠ w → d p = none

theorem Frames.pure (a : α) : Frames ([] : List β) (Pure.pure a) a where
  reads _ := rfl
  cut _ hp hne := absurd (List.prefix_nil.mp hp) hne

/-- A part of a word that is longer than its first half ends inside the second one. -/
theorem prefix_append_cases {p w w' : List β} (h : p <+: w ++ w') (hne : p ≠ w ++ w') :
    (p <+: w ∧ p ≠ w) ∨ ∃ q, p = w ++ q ∧ q <+: w' ∧ q ≠ w' := by
  rcases List.prefix_or_prefix_of_prefix h (List.prefix_append w w') with hp | ⟨q, rfl⟩
  · by_cases heq : p = w
    · refine .inr ⟨[], by simp [heq], List.nil_prefix, ?_⟩
      rintro rfl
      exact hne (by simp [heq])
    · exact .inl ⟨hp, heq⟩
  · refine .inr ⟨q, rfl, (List.prefix_append_right_inj w).mp h, ?_⟩
    rintro rfl
    exact hne rfl

theorem bind_eq_none {d : Reader β α} {s : List β} (h : d s = none) (f : α → Reader β γ) :
    (d >>= f) s = none := by
  show (d s).bind (fun x => f x.1 x.2) = none
  rw [h]
  rfl

/-- Where two readers in a row succeed, each of them does. -/
theorem bind_eq_some {d : Reader β α} {f : α → Reader β γ} {s s' : List β} {c : γ} (h : (d >>= f) s = some (c, s')) :
    ∃ a r, d s = some (a, r) ∧ f a r = some (c, s') := by
  cases hd : d s with
  | none =>
    rw [bind_eq_none hd] at h
    cases h
  | some x =>
    refine ⟨x.1, x.2, rfl, ?_⟩
    have hbind : (d >>= f) s = (d s).bind fun x => f x.1 x.2 := rfl
    rwa [hbind, hd] at h

theorem Frames.bind_reads {w : List β} {d : Reader β α} {a : α} (h : Frames w d a)
    (f : α → Reader β γ) (rest : List β) : (d >>= f) (w ++ rest) = f a rest := by
  show (d (w ++ rest)).bind (fun x => f x.1 x.2) = _
  rw [h.reads]
  rfl

/-- What is read one after the other is framed one after the other. -/
theorem Frames.bind {w w' : List β} {d : Reader β α} {f : α → Reader β γ} {a : α} {b : γ}
    (h : Frames w d a) (h' : Frames w' (f a) b) : Frames (w ++ w') (d >>= f) b where
  reads rest := by
    rw [List.append_assoc, h.bind_reads]
    exact h'.reads rest
  cut p hp hne := by
    rcases prefix_append_cases hp hne with ⟨hp', hne'⟩ | ⟨q, rfl, hq, hneq⟩
    · exact bind_eq_none (h.cut p hp' hne') f
    · rw [h.bind_reads]
      exact h'.cut q hq hneq

/-- A reader that ends with the value it found. -/
theorem Frames.bind_pure {w : List β} {d : Reader β α} {f : α → Reader β γ} {a : α} {b : γ}
    (h : Frames w d a) (hf : f a = Pure.pure b) : Frames w (d >>= f) b := by
  have hb := h.bind (f := f) (hf ▸ Frames.pure b)
  rwa [List.append_nil] at hb

/-- A word that is a list of fields is read field by field. -/
theorem Frames.next {w : List β} {l : List (List β)} {d : Reader β α} {f : α → Reader β γ} {a : α}
    {b : γ} (h : Frames w d a) (h' : Frames l.flatten (f a) b) :
    Frames (w :: l).flatten (d >>= f) b := h.bind h'

theorem Frames.last {w : List β} {d : Reader β α} {f : α → Reader β γ} {a : α} {b : γ}
    (h : Frames w d a) (hf : f a = Pure.pure b) : Frames [w].flatten (d >>= f) b :=
  h.bind (hf ▸ Frames.pure b)

/-- `k` values in a row. -/
def readN (d : Reader β α) : Nat → Reader β (List α)
  | 0 => Pure.pure []
  | k+1 => do
    let a ← d
    let l ← readN d k
    Pure.pure (a :: l)

theorem Frames.readN {w : α → List β} {d : Reader β α} : ∀ {l : List α},
    (∀ a ∈ l, Frames (w a) d a) → Frames (l.flatMap w) (readN d l.length) l
  | [], _ => Frames.pure []
  | a :: l, h => by
    have hl := Frames.readN (l := l) fun b hb => h b (List.mem_cons_of_mem a hb)
    exact (h a List.mem_cons_self).bind (hl.bind_pure rfl)

/-- The whole input as one value. -/
def readAll (d : Reader β α) (s : List β) : Option α :=
  match d s with
  | some (a, []) => some a
  | _ => none

theorem Frames.readAll_eq {w : List β} {d : Reader β α} {a : α} (h : Frames w d a) :
    readAll d w = some a := by
  have hr := h.reads []
  rw [List.append_nil] at hr
  simp [readAll, hr]

theorem Frames.readAll_cut {w p : List β} {d : Reader β α} {a : α} (h : Frames w d a)
    (hp : p <+: w) (hne : p ≠ w) : readAll d p = none := by
  simp [readAll, h.cut p hp hne]

theorem Frames.readAll_longer {w x : List β} {d : Reader β α} {a : α} (h : Frames w d a)
    (hx : x ≠ []) : readAll d (w ++ x) = none := by
  obtain ⟨b, bs, rfl⟩ := List.exists_cons_of_ne_nil hx
  simp [readAll, h.reads]

end Framing
