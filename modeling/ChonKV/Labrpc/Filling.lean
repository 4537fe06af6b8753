import ChonKV.Labrpc.Framing

/-!
Readers that fill in a record as they go, so that a record stays behind when the input runs out: what was
read is in its fields, the others are as they were.
-/

set_option autoImplicit false

namespace Framing

variable {β α A B : Type}

/-- A record, and what is left of the input unless a field has failed. -/
abbrev Filling (β A : Type) := A × Option (List β)

/-- One field: it is set when it can be read, and nothing is read any more when it cannot. -/
def fillField (d : Reader β α) (set : α → A → A) : Filling β A → Filling β A
  | (a, none) => (a, none)
  | (a, some s) =>
    match d s with
    | none => (a, none)
    | some (x, rest) => (set x a, some rest)

/-- Filling in the rest of `a` is reading it with `d`. -/
def Agrees (fill : Filling β A → Filling β A) (a : A) (d : Reader β A) : Prop :=
  ∀ s, (d s = none ∧ (fill (a, some s)).2 = none) ∨
    ∃ b rest, d s = some (b, rest) ∧ fill (a, some s) = (b, some rest)

theorem agrees_done (a : A) : Agrees (β := β) id a (pure a) := fun s => .inr ⟨a, s, rfl, rfl⟩

theorem Agrees.field {fill : Filling β A → Filling β A} {a : A} {d : Reader β α} {set : α → A → A}
    {k : α → Reader β A} (hnone : ∀ a, (fill (a, none)).2 = none)
    (h : ∀ x, Agrees fill (set x a) (k x)) :
    Agrees (fun st => fill (fillField d set st)) a (d >>= k) := by
  intro s
  have hbind : (d >>= k) s = (d s).bind fun x => k x.1 x.2 := rfl
  cases hd : d s with
  | none =>
    refine .inl ⟨by rw [hbind, hd]; rfl, ?_⟩
    simp only [fillField, hd]
    exact hnone a
  | some x =>
    simp only [hbind, hd, fillField, Option.bind_some]
    exact h x.1 x.2

/-- `n` values in a row, each set as it is read. -/
def fillTimes (d : Reader β α) (set : α → A → A) : Nat → Filling β A → Filling β A
  | 0, st => st
  | n+1, st => fillTimes d set n (fillField d set st)

/-- A count, and as many values. -/
def fillLoop (count : Reader β Nat) (d : Reader β α) (set : α → A → A) : Filling β A → Filling β A
  | (a, none) => (a, none)
  | (a, some s) =>
    match count s with
    | none => (a, none)
    | some (n, rest) => fillTimes d set n (a, some rest)

theorem fillTimes_none (d : Reader β α) (set : α → A → A) (n : Nat) (a : A) :
    fillTimes d set n (a, none) = (a, none) := by
  induction n with
  | zero => rfl
  | succ n ih => exact ih

theorem agrees_times (d : Reader β α) (set : α → A → A) (n : Nat) (a : A) :
    Agrees (fillTimes d set n) a (do
      let l ← readN d n
      pure (l.foldl (fun a x => set x a) a)) := by
  induction n generalizing a with
  | zero => exact agrees_done a
  | succ n ih =>
    have hfield := Agrees.field (d := d) (fun a => by rw [fillTimes_none]) fun x => ih (set x a)
    refine fun s => (hfield s).imp (fun h => ⟨?_, h.2⟩) fun ⟨b, rest, hd, hfill⟩ => ⟨b, rest, ?_, hfill⟩
    · rw [← h.1]
      simp [readN]
    · rw [← hd]
      simp [readN]

theorem Agrees.loop {count : Reader β Nat} {d : Reader β α} {set : α → A → A} {a : A}
    {k : List α → A} (hk : ∀ l, k l = l.foldl (fun a x => set x a) a) :
    Agrees (fillLoop count d set) a (do
      let n ← count
      let l ← readN d n
      pure (k l)) := by
  intro s
  obtain rfl : k = fun l => l.foldl (fun a x => set x a) a := funext hk
  cases hc : count s with
  | none =>
    refine .inl ⟨bind_eq_none hc _, ?_⟩
    simp [fillLoop, hc]
  | some x =>
    have hbind : ∀ f : Nat → Reader β A, (count >>= f) s = f x.1 x.2 := by
      intro f
      show (count s).bind (fun x => f x.1 x.2) = _
      rw [hc]
      rfl
    rw [hbind]
    simp only [fillLoop, hc]
    exact agrees_times d set x.1 a x.2

/-- The whole input is read when every field is filled in and nothing is left. -/
theorem Agrees.readAll_iff {fill : Filling β A → Filling β A} {a b : A} {d : Reader β A}
    (h : Agrees fill a d) (s : List β) : readAll d s = some b ↔ fill (a, some s) = (b, some []) := by
  rcases h s with ⟨hd, hfill⟩ | ⟨c, rest, hd, hfill⟩
  · simp only [readAll, hd]
    refine iff_of_false (by simp) fun heq => ?_
    rw [heq] at hfill
    cases hfill
  · rw [readAll, hd, hfill]
    cases rest <;> simp

theorem readAll_map (f : A → B) (d : Reader β A) (s : List β) :
    readAll (f <$> d) s = (readAll d s).map f := by
  have hd : (f <$> d) s = (d s).map fun x => (f x.1, x.2) := by
    show (d s).bind (fun x => some (f x.1, x.2)) = _
    cases d s <;> rfl
  rw [readAll, hd, readAll]
  rcases d s with _ | ⟨a, _ | ⟨b, rest⟩⟩ <;> rfl

end Framing
