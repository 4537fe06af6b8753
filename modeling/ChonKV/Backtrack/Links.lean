import Mathlib.Data.List.Nodup
import Mathlib.Logic.Function.Basic

/-!
Doubly linked lists whose elements keep their own links while they are out, so that the last one
taken out can be put back where it was.
-/

set_option autoImplicit false

namespace Backtrack

structure Links (α : Type) where
  next : α → Option α
  prev : α → Option α

variable {α : Type}

/-- The links run through the elements of the list in order, and end there. -/
def Links.Threads (ls : Links α) : List α → Prop
  | [] => True
  | [a] => ls.next a = none
  | a :: b :: l => ls.next a = some b ∧ ls.prev b = some a ∧ ls.Threads (b :: l)

variable {ls ks : Links α} {l A C : List α} {a b x : α}

@[simp] theorem Links.threads_singleton : ls.Threads [a] ↔ ls.next a = none := Iff.rfl

@[simp] theorem Links.threads_cons_cons :
    ls.Threads (a :: b :: l) ↔ ls.next a = some b ∧ ls.prev b = some a ∧ ls.Threads (b :: l) :=
  Iff.rfl

theorem Links.Threads.next_eq (h : ls.Threads (a :: l)) : ls.next a = l.head? := by
  cases l with
  | nil => exact h
  | cons b l => exact h.1

/-- A list is read by the links of its elements alone. -/
theorem Links.Threads.congr (h : ls.Threads (a :: l)) (hn : ∀ y ∈ a :: l, ks.next y = ls.next y)
    (hp : ∀ y ∈ l, ks.prev y = ls.prev y) : ks.Threads (a :: l) := by
  induction l generalizing a with
  | nil => simpa [hn a] using h
  | cons b l ih =>
    obtain ⟨hab, hba, hl⟩ := h
    refine ⟨by rw [hn a (by simp), hab], by rw [hp b (by simp), hba], ?_⟩
    exact ih hl (fun y hy => hn y (List.mem_cons_of_mem _ hy))
      (fun y hy => hp y (List.mem_cons_of_mem _ hy))

theorem Links.Threads.right (h : ls.Threads (A ++ l)) : ls.Threads l := by
  induction A with
  | nil => exact h
  | cons a A ih =>
    refine ih ?_
    cases A with
    | nil =>
      cases l with
      | nil => trivial
      | cons b l => exact h.2.2
    | cons c A => exact h.2.2

/-- The end of a list is replaced where the links before it stay. -/
theorem Links.Threads.replace (h : ls.Threads (A ++ a :: l)) (hC : ks.Threads (a :: C))
    (hn : ∀ y ∈ A, ks.next y = ls.next y) (hp : ∀ y ∈ A ++ [a], ks.prev y = ls.prev y) :
    ks.Threads (A ++ a :: C) := by
  induction A with
  | nil => exact hC
  | cons d A ih =>
    have ih' := fun h' => ih h' (fun y hy => hn y (List.mem_cons_of_mem _ hy))
      (fun y hy => hp y (List.mem_cons_of_mem _ hy))
    cases A with
    | nil =>
      obtain ⟨hda, had, -⟩ := h
      exact ⟨by rw [hn d (by simp), hda], by rw [hp a (by simp), had], hC⟩
    | cons e A =>
      obtain ⟨hde, hed, htail⟩ := h
      exact ⟨by rw [hn d (by simp), hde], by rw [hp e (by simp), hed], ih' htail⟩

/-- What is before an element ends with a neighbour of it. -/
theorem exists_before (a : α) (A : List α) : ∃ B b, ∀ C, a :: (A ++ C) = B ++ b :: C := by
  induction A generalizing a with
  | nil => exact ⟨[], a, fun C => rfl⟩
  | cons c A ih =>
    obtain ⟨B, b, hB⟩ := ih c
    exact ⟨a :: B, b, fun C => by rw [List.cons_append, hB, List.cons_append]⟩

/-- The links on both sides of an element inside the list. -/
theorem Links.Threads.around (h : ls.Threads (A ++ a :: x :: C)) :
    ls.next a = some x ∧ ls.prev x = some a ∧ ls.next x = C.head? ∧
      ∀ c ∈ C.head?, ls.prev c = some x := by
  obtain ⟨hax, hxa, hx⟩ := h.right
  refine ⟨hax, hxa, hx.next_eq, ?_⟩
  cases C with
  | nil => simp
  | cons c C => simpa using hx.2.1

variable [DecidableEq α]

/-- `a->next = v`; through the null pointer nothing is written. -/
def Links.setNext (ls : Links α) (a v : Option α) : Links α :=
  match a with
  | none => ls
  | some a => { ls with next := Function.update ls.next a v }

/-- `a->prev = v`; through the null pointer nothing is written. -/
def Links.setPrev (ls : Links α) (a v : Option α) : Links α :=
  match a with
  | none => ls
  | some a => { ls with prev := Function.update ls.prev a v }

@[simp] theorem Links.setNext_prev (a v : Option α) : (ls.setNext a v).prev = ls.prev := by
  cases a <;> rfl

@[simp] theorem Links.setPrev_next (a v : Option α) : (ls.setPrev a v).next = ls.next := by
  cases a <;> rfl

theorem Links.setNext_next (p v : Option α) (y : α) :
    (ls.setNext p v).next y = if p = some y then v else ls.next y := by
  cases p with
  | none => simp [setNext]
  | some p =>
    simp only [setNext, Function.update_apply, Option.some.injEq]
    exact if_congr eq_comm rfl rfl

theorem Links.setPrev_prev (p v : Option α) (y : α) :
    (ls.setPrev p v).prev y = if p = some y then v else ls.prev y := by
  cases p with
  | none => simp [setPrev]
  | some p =>
    simp only [setPrev, Function.update_apply, Option.some.injEq]
    exact if_congr eq_comm rfl rfl

/-- Both neighbours are tied past the element, which keeps its own links. -/
def Links.unlink (ls : Links α) (x : α) : Links α :=
  (ls.setNext (ls.prev x) (ls.next x)).setPrev (ls.next x) (ls.prev x)

/-- Both neighbours are tied to the element again. -/
def Links.relink (ls : Links α) (x : α) : Links α :=
  (ls.setPrev (ls.next x) (some x)).setNext (ls.prev x) (some x)

theorem Links.unlink_next (x y : α) :
    (ls.unlink x).next y = if ls.prev x = some y then ls.next x else ls.next y := by
  simp [unlink, setNext_next]

theorem Links.unlink_prev (x y : α) :
    (ls.unlink x).prev y = if ls.next x = some y then ls.prev x else ls.prev y := by
  simp [unlink, setPrev_prev]

theorem Links.Threads.unlink (h : ls.Threads (A ++ a :: x :: C)) (hnd : (A ++ a :: x :: C).Nodup) :
    (ls.unlink x).Threads (A ++ a :: C) := by
  obtain ⟨-, hprev, hnext, -⟩ := h.around
  obtain ⟨-, hnd', hA⟩ := List.nodup_append.mp hnd
  have haC : a ∉ C := fun ha => (List.nodup_cons.mp hnd').1 (List.mem_cons_of_mem _ ha)
  have htail : (ls.unlink x).Threads (a :: C) := by
    obtain ⟨-, -, hx⟩ := h.right
    cases C with
    | nil =>
      have hx' : ls.next x = none := hx
      simp [unlink_next, hprev, hx']
    | cons c C =>
      simp only [List.head?_cons] at hnext
      refine ⟨by simp [unlink_next, hprev, hnext], by simp [unlink_prev, hprev, hnext], ?_⟩
      refine hx.2.2.congr (fun y hy => ?_) (fun y hy => ?_)
      · have hay : a ≠ y := fun hay => haC (hay ▸ hy)
        simp [unlink_next, hprev, hay]
      · have hcy : c ≠ y := by
          rintro rfl
          simp [hy] at hnd'
        simp [unlink_prev, hnext, hcy]
  refine h.replace htail (fun y hy => ?_) (fun y hy => ?_)
  · have hay : a ≠ y := fun hay => hA y hy a (by simp) hay.symm
    simp [unlink_next, hprev, hay]
  · have hyC : C.head? ≠ some y := by
      intro hC
      have hyC : y ∈ C := List.mem_of_mem_head? (by simp [hC])
      rcases List.mem_append.mp hy with hyA | hya
      · exact hA y hyA y (by simp [hyC]) rfl
      · exact haC (List.mem_singleton.mp hya ▸ hyC)
    rw [unlink_prev, hnext, if_neg hyC]

/-- An element inside the list is not its own neighbour. -/
theorem Links.Threads.apart (h : ls.Threads (A ++ a :: x :: C)) (hnd : (A ++ a :: x :: C).Nodup) :
    ls.next x ≠ some x ∧ ls.prev x ≠ some x := by
  obtain ⟨-, hxa, hxc, -⟩ := h.around
  obtain ⟨-, hnd, -⟩ := List.nodup_append.mp hnd
  constructor
  · rw [hxc]
    intro hC
    have hmem : x ∈ C := List.mem_of_mem_head? (by simp [hC])
    simp [hmem] at hnd
  · rw [hxa]
    rintro ⟨⟩
    simp at hnd

theorem Links.Threads.unlink_own (h : ls.Threads (A ++ a :: x :: C))
    (hnd : (A ++ a :: x :: C).Nodup) :
    (ls.unlink x).next x = ls.next x ∧ (ls.unlink x).prev x = ls.prev x := by
  obtain ⟨hn, hp⟩ := h.apart hnd
  rw [unlink_next, if_neg hp, unlink_prev, if_neg hn]
  exact ⟨rfl, rfl⟩

/-- The last element taken out goes back where it was. -/
theorem Links.Threads.relink_unlink (h : ls.Threads (A ++ a :: x :: C))
    (hnd : (A ++ a :: x :: C).Nodup) : (ls.unlink x).relink x = ls := by
  obtain ⟨hax, hxa, hxc, hcx⟩ := h.around
  obtain ⟨hnx, hpx⟩ := h.unlink_own hnd
  have hn : ((ls.unlink x).relink x).next = ls.next := by
    funext y
    rw [relink, setNext_next, setPrev_next, hpx, unlink_next, hxa]
    split_ifs with hy
    · rw [← Option.some.inj hy, hax]
    · rfl
  have hp : ((ls.unlink x).relink x).prev = ls.prev := by
    funext y
    rw [relink, setNext_prev, setPrev_prev, hnx, unlink_prev, hxc]
    split_ifs with hy
    · exact (hcx y (by simp [hy])).symm
    · rfl
  cases ls
  exact congrArg₂ Links.mk hn hp

/-- The writes of `unlink` one after the other, each reading what the one before it left. -/
theorem Links.unlink_next_first (hp : ls.prev x ≠ some x) :
    (let ks := ls.setNext (ls.prev x) (ls.next x)
     ks.setPrev (ks.next x) (ks.prev x)) = ls.unlink x := by
  simp [unlink, setNext_next, hp]

theorem Links.setNext_setPrev (p q v w : Option α) :
    (ls.setPrev p v).setNext q w = (ls.setNext q w).setPrev p v := by
  cases p <;> cases q <;> rfl

theorem Links.unlink_prev_first (hn : ls.next x ≠ some x) :
    (let ks := ls.setPrev (ls.next x) (ls.prev x)
     ks.setNext (ks.prev x) (ks.next x)) = ls.unlink x := by
  simp [unlink, setPrev_prev, hn, setNext_setPrev]

theorem Links.relink_writes (hn : ls.next x ≠ some x) :
    (let ks := ls.setPrev (ls.next x) (some x)
     ks.setNext (ks.prev x) (some x)) = ls.relink x := by
  simp [relink, setPrev_prev, hn]

end Backtrack
