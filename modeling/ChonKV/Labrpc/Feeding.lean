import ChonKV.Labrpc.Framing
import Mathlib.Data.List.Infix

/-!
A reader that is run again and again, on a whole input and on one that comes in pieces. When more input
does not change what was read, the pieces make no difference.
-/

set_option autoImplicit false

namespace Framing

variable {β α γ : Type} {d : Reader β α} {s t b : List β} {a : α}

/-- What was read stays when more follows. -/
def Stable (d : Reader β α) : Prop :=
  ∀ s t a r, d s = some (a, r) → d (s ++ t) = some (a, r ++ t)

/-- Whatever is read takes something off. -/
def Consumes (d : Reader β α) : Prop := ∀ s a r, d s = some (a, r) → r.length < s.length

/-- The values that are read one after the other, `k` of them at most. -/
def loop (d : Reader β α) : Nat → List β → List α
  | 0, _ => []
  | k+1, s =>
    match d s with
    | none => []
    | some (a, r) => a :: loop d k r

/-- All the values up to the first failure. -/
def values (d : Reader β α) (s : List β) : List α := loop d s.length s

theorem Consumes.nil (hc : Consumes d) : d [] = none := by
  cases h : d [] with
  | none => rfl
  | some p => exact absurd (hc _ _ _ h) (Nat.not_lt_zero _)

theorem values_none (h : d s = none) : values d s = [] := by
  unfold values
  cases s with
  | nil => rfl
  | cons c s => simp [loop, h]

theorem loop_eq (hc : Consumes d) {k k' : Nat} (hk : s.length ≤ k) (hk' : s.length ≤ k') :
    loop d k s = loop d k' s := by
  have hnil : ∀ k, loop d k ([] : List β) = [] := by
    intro k
    cases k with
    | zero => rfl
    | succ k => simp [loop, hc.nil]
  induction k generalizing k' s with
  | zero =>
    obtain rfl := List.eq_nil_of_length_eq_zero (Nat.le_zero.mp hk)
    simp [hnil]
  | succ k ih =>
    cases k' with
    | zero =>
      obtain rfl := List.eq_nil_of_length_eq_zero (Nat.le_zero.mp hk')
      simp [hnil]
    | succ k' =>
      unfold loop
      cases h : d s with
      | none => rfl
      | some p =>
        have hlt := hc _ _ _ h
        exact congrArg (p.1 :: ·) (ih (by omega) (by omega))

theorem values_some (hc : Consumes d) {r : List β} (h : d s = some (a, r)) :
    values d s = a :: values d r := by
  have hlt := hc _ _ _ h
  obtain ⟨k, hk⟩ : ∃ k, s.length = k+1 := ⟨s.length - 1, by omega⟩
  rw [values, hk, loop, h]
  exact congrArg (a :: ·) (loop_eq hc (by omega) le_rfl)

/-- The pieces of an input, and the attempts to read that come in between. -/
inductive Feed (β : Type) where
  | append (data : List β)
  | next

/-- All that is fed. -/
def stream : List (Feed β) → List β
  | [] => []
  | .append data :: calls => data ++ stream calls
  | .next :: calls => stream calls

/-- The buffer and what was read of it. -/
def feed (d : Reader β α) (p : List β × List α) : Feed β → List β × List α
  | .append data => (p.1 ++ data, p.2)
  | .next =>
    match d p.1 with
    | some (a, r) => (r, p.2 ++ [a])
    | none => p

/-- What was read, and what a reader would read from the buffer on, is what is read of the whole. -/
theorem values_feed (hs : Stable d) (hc : Consumes d) (calls : List (Feed β)) (p : List β × List α)
    (t : List β) : p.2 ++ values d (p.1 ++ (stream calls ++ t)) =
      (calls.foldl (feed d) p).2 ++ values d ((calls.foldl (feed d) p).1 ++ t) := by
  induction calls generalizing p with
  | nil => rfl
  | cons call calls ih =>
    cases call with
    | append data => simpa [stream, feed] using ih (p.1 ++ data, p.2)
    | next =>
      rw [List.foldl_cons, ← ih, stream, feed]
      cases h : d p.1 with
      | none => rfl
      | some q =>
        rw [values_some hc (hs _ (stream calls ++ t) _ _ h)]
        simp

theorem feed_length_le (hc : Consumes d) (calls : List (Feed β)) (p : List β × List α) :
    (calls.foldl (feed d) p).1.length ≤ p.1.length + (stream calls).length := by
  induction calls generalizing p with
  | nil => simp [stream]
  | cons call calls ih =>
    rw [List.foldl_cons]
    refine (ih _).trans ?_
    cases call with
    | append data => simp [stream, feed, Nat.add_assoc]
    | next =>
      rw [stream, feed]
      cases h : d p.1 with
      | none => exact le_rfl
      | some q =>
        have hlt := hc _ _ _ h
        simp only
        omega

/-- As many attempts as there are symbols read the buffer out. -/
theorem feed_drained (hc : Consumes d) (k : Nat) (p : List β × List α) (hk : p.1.length ≤ k) :
    d ((List.replicate k .next).foldl (feed d) p).1 = none := by
  induction k generalizing p with
  | zero =>
    have hnil : p.1 = [] := List.eq_nil_of_length_eq_zero (Nat.le_zero.mp hk)
    simp [hnil, hc.nil]
  | succ k ih =>
    rw [List.replicate_succ, List.foldl_cons]
    cases h : d p.1 with
    | none =>
      have hstay : ∀ j, (List.replicate j .next).foldl (feed d) p = p := by
        intro j
        induction j with
        | zero => rfl
        | succ j ihj => simpa [List.replicate_succ, feed, h] using ihj
      have hfeed : feed d p .next = p := by simp [feed, h]
      rw [hfeed, hstay, h]
    | some q =>
      have hlt := hc _ _ _ h
      have hfeed : feed d p .next = (q.2, p.2 ++ [q.1]) := by simp [feed, h]
      rw [hfeed]
      exact ih _ (by simp only; omega)

/-- The values that a decoder accepts, up to the first that it refuses. -/
def decodeWhile (f : α → Option γ) : List α → List γ
  | [] => []
  | a :: l =>
    match f a with
    | some c => c :: decodeWhile f l
    | none => []

theorem decodeWhile_append (f : α → Option γ) (l m : List α) :
    decodeWhile f l <+: decodeWhile f (l ++ m) := by
  induction l with
  | nil => exact List.nil_prefix
  | cons a l ih =>
    simp only [decodeWhile, List.cons_append]
    cases f a with
    | none => exact List.nil_prefix
    | some c => exact (List.prefix_cons_inj c).mpr ih

/-- The reader that decodes what another one read. -/
def andDecode (d : Reader β α) (f : α → Option γ) : Reader β γ := fun s =>
  (d s).bind fun p => (f p.1).map fun c => (c, p.2)

theorem Consumes.andDecode (hc : Consumes d) (f : α → Option γ) : Consumes (andDecode d f) := by
  intro s c r h
  simp only [Framing.andDecode, Option.bind_eq_some_iff, Option.map_eq_some_iff, Prod.mk.injEq] at h
  obtain ⟨p, hp, _, _, _, rfl⟩ := h
  exact hc _ _ _ hp

/-- To decode each value where it is read, or all of them afterwards, comes to the same. -/
theorem values_andDecode (hc : Consumes d) (f : α → Option γ) (s : List β) :
    values (andDecode d f) s = decodeWhile f (values d s) := by
  induction hn : s.length using Nat.strong_induction_on generalizing s with
  | _ n ih =>
    cases h : d s with
    | none => rw [values_none (by simp [andDecode, h]), values_none h, decodeWhile]
    | some p =>
      rw [values_some hc h, decodeWhile]
      cases hf : f p.1 with
      | none => rw [values_none (by simp [andDecode, h, hf])]
      | some c =>
        rw [values_some (hc.andDecode f) (r := p.2) (a := c) (by simp [andDecode, h, hf])]
        exact congrArg (c :: ·) (ih _ (hn ▸ hc _ _ _ h) _ rfl)

/-- Words that are framed one by one are read one by one. -/
theorem values_flatMap (hc : Consumes d) {w : γ → List β} {v : γ → α} (l : List γ)
    (h : ∀ c ∈ l, ∀ rest, d (w c ++ rest) = some (v c, rest)) :
    values d (l.flatMap w) = l.map v := by
  induction l with
  | nil => exact values_none hc.nil
  | cons c l ih =>
    rw [List.flatMap_cons, values_some hc (h c (by simp) _), ih fun c hc => h c (by simp [hc])]
    rfl

end Framing
