import ChonKV.Porcupine.Search
import Mathlib.Data.List.Perm.Basic

/-!
What the search decides, said of the history: there is an order of its operations that the times allow
and that runs through.
-/

set_option autoImplicit false

namespace ChonKV.Porcupine

open Backtrack

/-- The steps succeed one after the other. -/
def Runs {σ α : Type} (step : σ → α → Bool × σ) : σ → List α → Prop
  | _, [] => True
  | s, a :: l => (step s a).1 = true ∧ Runs step (step s a).2 l

/-- Each call stands before its return. -/
structure Paired (L : List Addr) : Prop where
  nodup : L.Nodup
  mem : ∀ a ∈ L, ∃ i, a = .call i ∨ a = .ret i
  mate : ∀ i, Addr.call i ∈ L ↔ Addr.ret i ∈ L
  order : ∀ i, ¬ [Addr.ret i, .call i].Sublist L

/-- An order of the calls in which none is put behind one that was called after its return. -/
structure Orders (L : List Addr) (is : List Nat) : Prop where
  nodup : is.Nodup
  mem : ∀ i, i ∈ is ↔ Addr.call i ∈ L
  after : is.Pairwise fun i j => ¬ [Addr.ret j, .call i].Sublist L

variable {Input Output State : Type} {node : Addr → Node Input Output} {L A C : List Addr}
  {is : List Nat} {i j : Nat} {a b : Addr} {model : Model Input Output State} {s : State}

theorem runs_map {σ α β : Type} {f : α → β} {step : σ → β → Bool × σ} {s : σ} {l : List α} :
    Runs step s (l.map f) ↔ Runs (fun s a => step s (f a)) s l := by
  induction l generalizing s with
  | nil => rfl
  | cons a l ih => exact and_congr_right fun _ => ih

theorem runs_congr {σ α : Type} {step step' : σ → α → Bool × σ} {s : σ} {l : List α}
    (h : ∀ s, ∀ a ∈ l, step s a = step' s a) : Runs step s l ↔ Runs step' s l := by
  induction l generalizing s with
  | nil => rfl
  | cons a l ih =>
    simp only [Runs, h s a (by simp)]
    exact and_congr_right fun _ => ih fun s b hb => h s b (by simp [hb])

theorem leading_iff : i ∈ leading L ↔ ∃ A C, L = A ++ .call i :: C ∧ ∀ a ∈ A, a.isCall := by
  induction L with
  | nil => simp [leading]
  | cons a L ih =>
    cases a with
    | call j =>
      simp only [leading, List.mem_cons, ih]
      constructor
      · rintro (rfl | ⟨A, C, rfl, hA⟩)
        · exact ⟨[], L, rfl, by simp⟩
        · refine ⟨.call j :: A, C, rfl, fun a ha => ?_⟩
          rcases List.mem_cons.mp ha with rfl | ha
          · trivial
          · exact hA a ha
      · rintro ⟨A, C, hL, hA⟩
        cases A with
        | nil =>
          simp only [List.nil_append, List.cons.injEq, Addr.call.injEq] at hL
          exact Or.inl hL.1.symm
        | cons a A =>
          simp only [List.cons_append, List.cons.injEq] at hL
          exact Or.inr ⟨A, C, hL.2, fun b hb => hA b (by simp [hb])⟩
    | headSentinel | ret j =>
      simp only [leading, List.not_mem_nil, false_iff]
      rintro ⟨A, C, hL, hA⟩
      cases A with
      | nil => simp at hL
      | cons a A =>
        simp only [List.cons_append, List.cons.injEq] at hL
        have ha := hA a (by simp)
        rw [← hL.1] at ha
        exact ha

/-- In a list without repetition, what stands before an element is in front of it. -/
theorem mem_of_before (hnd : (A ++ b :: C).Nodup) (h : [a, b].Sublist (A ++ b :: C)) : a ∈ A := by
  obtain ⟨-, hnd', hA⟩ := List.nodup_append.mp hnd
  obtain ⟨l₁, l₂, heq, h₁, h₂⟩ := List.sublist_append_iff.mp h
  cases l₁ with
  | nil =>
    simp only [List.nil_append] at heq
    rw [← heq] at h₂
    have hb : b ∈ C := by
      cases h₂ with
      | cons _ h₂ => exact h₂.subset (by simp)
      | cons_cons _ h₂ => exact h₂.subset (by simp)
    exact absurd hb (List.nodup_cons.mp hnd').1
  | cons c l₁ =>
    simp only [List.cons_append, List.cons.injEq] at heq
    rw [heq.1]
    exact h₁.subset (by simp)

theorem before_remove (h : [Addr.ret j, .call i].Sublist L) {k : Nat} (hj : j ≠ k) (hi : i ≠ k) :
    [Addr.ret j, .call i].Sublist (remove k L) := by
  have hsub := h.filter fun a => decide (a ≠ .call k ∧ a ≠ .ret k)
  have hkeep : [Addr.ret j, .call i].filter (fun a => decide (a ≠ .call k ∧ a ≠ .ret k)) =
      [.ret j, .call i] := by
    simp [List.filter_cons, hj, hi]
  rw [hkeep] at hsub
  exact hsub

theorem mem_remove {k : Nat} : a ∈ remove k L ↔ a ∈ L ∧ a ≠ .call k ∧ a ≠ .ret k := by
  simp [remove]

theorem Paired.remove (h : Paired L) (k : Nat) : Paired (remove k L) where
  nodup := h.nodup.filter _
  mem a ha := h.mem a (mem_remove.mp ha).1
  mate i := by simp [mem_remove, h.mate]
  order i hi := h.order i (hi.trans List.filter_sublist)

theorem Paired.eq_nil (h : Paired L) (hL : ∀ i, Addr.call i ∉ L) : L = [] := by
  refine List.eq_nil_iff_forall_not_mem.mpr fun a ha => ?_
  obtain ⟨i, rfl | rfl⟩ := h.mem a ha
  · exact hL i ha
  · exact hL i ((h.mate i).mpr ha)

/-- The search succeeds exactly if some order of the calls runs through. -/
theorem solvable_iff (h : Paired L) :
    (callProblem model node).Solvable (L, s) ↔ ∃ is, Orders L is ∧
      Runs (fun s i => model.step s (node (.call i)).input (node (.ret i)).output) s is := by
  constructor
  · intro hs
    generalize hp : (L, s) = p at hs
    induction hs generalizing L s with
    | solved hp' =>
      subst hp
      have hnil : L = [] := hp'
      exact ⟨[], ⟨by simp, by simp [hnil], by simp⟩, trivial⟩
    | @move p q i hi hq _ ih =>
      subst hp
      simp only [callProblem, Option.ite_none_right_eq_some, Option.some.injEq] at hq
      obtain ⟨is, ho, hr⟩ := ih (h.remove i) hq.2
      have hi' : i ∈ leading L := hi
      obtain ⟨A, C, hL, hA⟩ := leading_iff.mp hi'
      have hnot : i ∉ is := fun hm => by simpa [mem_remove] using (ho.mem i).mp hm
      refine ⟨i :: is, ⟨List.nodup_cons.mpr ⟨hnot, ho.nodup⟩, fun j => ?_, ?_⟩, hq.1, hr⟩
      · by_cases hji : j = i
        · simp [hji, hL]
        · simp [hji, ho.mem j, mem_remove]
      · refine List.pairwise_cons.mpr ⟨fun j _ hb => ?_, ?_⟩
        · have hnd := h.nodup
          rw [hL] at hb hnd
          exact hA _ (mem_of_before hnd hb)
        · refine ho.after.imp_of_mem fun {k j} hk hj hn hb => hn (before_remove hb ?_ ?_)
          · rintro rfl
            exact hnot hj
          · rintro rfl
            exact hnot hk
  · rintro ⟨is, ho, hr⟩
    induction is generalizing L s with
    | nil =>
      have hnil := h.eq_nil fun i hi => by simpa using (ho.mem i).mpr hi
      exact .solved hnil
    | cons i is ih =>
      obtain ⟨hnot, hnd⟩ := List.nodup_cons.mp ho.nodup
      obtain ⟨hfirst, hafter⟩ := List.pairwise_cons.mp ho.after
      obtain ⟨A, C, hL⟩ := List.append_of_mem ((ho.mem i).mp (by simp))
      have hi : i ∈ leading L := by
        refine leading_iff.mpr ⟨A, C, hL, fun a ha => ?_⟩
        obtain ⟨j, rfl | rfl⟩ := h.mem a (by simp [hL, ha])
        · trivial
        · have hb : [Addr.ret j, .call i].Sublist L := by
            rw [hL]
            exact (List.singleton_sublist.mpr ha).append (List.singleton_sublist.mpr (by simp))
          have hj : Addr.call j ∈ L := (h.mate j).mpr (by simp [hL, ha])
          rcases List.mem_cons.mp ((ho.mem j).mpr hj) with rfl | hj
          · exact absurd hb (h.order j)
          · exact absurd hb (hfirst j hj)
      refine .move hi (by simp [callProblem, hr.1]) (ih (h.remove i) ⟨hnd, fun j => ?_, ?_⟩ hr.2)
      · have hm := ho.mem j
        by_cases hji : j = i
        · simp [hji, hnot, mem_remove]
        · simpa [hji, mem_remove] using hm
      · exact hafter.imp fun hn hb => hn (hb.trans List.filter_sublist)

section Times
variable [Inhabited Input] [Inhabited Output]
  {sort : StdSort (TimeEntry Input Output) TimeEntry.before}
  {history : List (Operation Input Output)} {o p : Operation Input Output}

theorem pair_total {α : Type} {l : List α} {a b : α} (ha : a ∈ l) (hb : b ∈ l) (hab : a ≠ b) :
    [a, b].Sublist l ∨ [b, a].Sublist l := by
  induction l with
  | nil => simp at ha
  | cons c l ih =>
    rcases List.mem_cons.mp ha with rfl | ha'
    · have hb' : b ∈ l := (List.mem_cons.mp hb).resolve_left (Ne.symm hab)
      exact Or.inl ((List.singleton_sublist.mpr hb').cons_cons _)
    · rcases List.mem_cons.mp hb with rfl | hb'
      · exact Or.inr ((List.singleton_sublist.mpr ha').cons_cons _)
      · exact (ih ha' hb').imp (·.cons _) (·.cons _)

theorem mem_sorted {e : TimeEntry Input Output} :
    e ∈ sort.sort (timeEntries history) ↔ e ∈ timeEntries history :=
  (sort.perm _).mem_iff

/-- What the order of two nodes says of the times. -/
theorem times_of_before (hi : history[i]? = some o) (hj : history[j]? = some p)
    (h : [Addr.ret j, .call i].Sublist (entryOrder sort history)) :
    [p.retEntry j, o.callEntry i].Sublist (sort.sort (timeEntries history)) := by
  obtain ⟨l, hl, heq⟩ := List.sublist_map_iff.mp h
  obtain ⟨e, f, rfl⟩ : ∃ e f, l = [e, f] := List.length_eq_two.mp (by
    simpa using (congrArg List.length heq).symm)
  simp only [List.map_cons, List.map_nil, List.cons.injEq, and_true] at heq
  have hmem : ∀ x ∈ [e, f], x ∈ timeEntries history := fun x hx =>
    mem_sorted.mp (hl.subset hx)
  obtain ⟨k, q, hk, he⟩ := mem_timeEntries.mp (hmem e (by simp))
  obtain ⟨k', q', hk', hf⟩ := mem_timeEntries.mp (hmem f (by simp))
  have he' : e = p.retEntry j := by
    rcases he with rfl | rfl
    · cases heq.1
    · obtain rfl : j = k := Addr.ret.inj heq.1
      rw [hj] at hk
      cases hk
      rfl
  have hf' : f = o.callEntry i := by
    rcases hf with rfl | rfl
    · obtain rfl : i = k' := Addr.call.inj heq.2
      rw [hi] at hk'
      cases hk'
      rfl
    · cases heq.2
  rwa [he', hf'] at hl

theorem before_of_not_after (hi : history[i]? = some o) (hj : history[j]? = some p)
    (h : ¬ [o.callEntry i, p.retEntry j].Sublist (sort.sort (timeEntries history))) :
    [Addr.ret j, .call i].Sublist (entryOrder sort history) := by
  have hret : p.retEntry j ∈ sort.sort (timeEntries history) :=
    mem_sorted.mpr (mem_timeEntries.mpr ⟨j, p, hj, Or.inr rfl⟩)
  have hcall : o.callEntry i ∈ sort.sort (timeEntries history) :=
    mem_sorted.mpr (mem_timeEntries.mpr ⟨i, o, hi, Or.inl rfl⟩)
  have hne : p.retEntry j ≠ o.callEntry i := fun h => by
    have hc := congrArg TimeEntry.isCall h
    cases hc
  exact ((pair_total hret hcall hne).resolve_right h).map TimeEntry.addr

/-- One that returned before the other was called stands in front of it. -/
theorem before_of_times (hi : history[i]? = some o) (hj : history[j]? = some p)
    (h : p.returnTimeNs < o.callTimeNs) :
    [Addr.ret j, .call i].Sublist (entryOrder sort history) := by
  refine before_of_not_after hi hj fun hsub => ?_
  have hs := List.pairwise_iff_forall_sublist.mp (sort.sorted _) hsub
  exact absurd h (of_decide_eq_false hs)

theorem returned_le (hi : history[i]? = some o) (hj : history[j]? = some p)
    (h : [Addr.ret j, .call i].Sublist (entryOrder sort history)) :
    p.returnTimeNs ≤ o.callTimeNs := by
  have hs := List.pairwise_iff_forall_sublist.mp (sort.sorted _) (times_of_before hi hj h)
  have hnot : ¬ o.callTimeNs < p.returnTimeNs := of_decide_eq_false hs
  omega

theorem entryOrder_paired (hE : Entries history node (entryOrder sort history))
    (hw : ∀ o ∈ history, o.callTimeNs < o.returnTimeNs) : Paired (entryOrder sort history) where
  nodup := hE.nodup
  mem a ha := by
    obtain ⟨i, -, h⟩ := (hE.mem a).mp ha
    exact ⟨i, h⟩
  mate i := by
    rw [hE.mem, hE.mem]
    simp
  order i h := by
    obtain ⟨k, hk, heq⟩ := (hE.mem (.ret i)).mp (h.subset (by simp))
    obtain rfl : k = i := by
      rcases heq with heq | heq
      · cases heq
      · exact (Addr.ret.inj heq).symm
    have hget := List.getElem?_eq_getElem hk
    have hle := returned_le hget hget h
    have hlt := hw _ (List.getElem_mem hk)
    omega

instance : Inhabited (Operation Input Output) := ⟨{ input := default, output := default }⟩

/-- The operation at an index. -/
def opAt (history : List (Operation Input Output)) (i : Nat) : Operation Input Output :=
  history[i]?.getD default

theorem opAt_eq (hi : i < history.length) : history[i]? = some (opAt history i) := by
  simp [opAt, List.getElem?_eq_getElem hi]

theorem map_opAt : (List.range history.length).map (opAt history) = history := by
  refine List.ext_getElem (by simp) fun i h₁ h₂ => ?_
  simp [opAt, List.getElem?_eq_getElem h₂]

/-- Orders of the indices are orders of the operations. -/
theorem runs_opAt (hE : Entries history node L) (his : ∀ i ∈ is, i < history.length) :
    Runs (fun s i => model.step s (node (.call i)).input (node (.ret i)).output) s is ↔
      Runs (fun s (o : Operation Input Output) => model.step s o.input o.output) s
        (is.map (opAt history)) := by
  rw [runs_map]
  refine runs_congr fun s i hi => ?_
  have hget := opAt_eq (his i hi)
  rw [(hE.call i _ hget).1, (hE.ret i _ hget).1]

/-- The orders of a history that a relation allows, in which each operation follows on the state. -/
def Explained (model : Model Input Output State)
    (prec : Operation Input Output → Operation Input Output → Prop) (s : State)
    (history : List (Operation Input Output)) : Prop :=
  ∃ os : List (Operation Input Output), os.Perm history ∧ os.Pairwise (fun a b => ¬ prec b a) ∧
    Runs (fun s (o : Operation Input Output) => model.step s o.input o.output) s os

variable {prec : Operation Input Output → Operation Input Output → Prop}

theorem explained_of_solvable (hE : Entries history node (entryOrder sort history))
    (hw : ∀ o ∈ history, o.callTimeNs < o.returnTimeNs)
    (hprec : ∀ i j o p, history[i]? = some o → history[j]? = some p → prec p o →
      [Addr.ret j, .call i].Sublist (entryOrder sort history))
    (hs : (callProblem model node).Solvable (entryOrder sort history, s)) :
    Explained model prec s history := by
  obtain ⟨is, ho, hr⟩ := (solvable_iff (entryOrder_paired hE hw)).mp hs
  have his : ∀ i, i ∈ is ↔ i < history.length := fun i => by
    rw [ho.mem, hE.mem]
    simp
  have hperm : is.Perm (List.range history.length) :=
    (List.perm_ext_iff_of_nodup ho.nodup List.nodup_range).mpr fun i => by simp [his]
  refine ⟨is.map (opAt history), ?_, ?_, (runs_opAt hE fun i hi => (his i).mp hi).mp hr⟩
  · have hmap := hperm.map (opAt history)
    rwa [map_opAt] at hmap
  · refine List.pairwise_map.mpr (ho.after.imp_of_mem fun {i j} hi hj hn hp => hn ?_)
    exact hprec i j _ _ (opAt_eq ((his i).mp hi)) (opAt_eq ((his j).mp hj)) hp

theorem solvable_of_explained (hE : Entries history node (entryOrder sort history))
    (hw : ∀ o ∈ history, o.callTimeNs < o.returnTimeNs)
    (hprec : ∀ i j o p, history[i]? = some o → history[j]? = some p →
      [Addr.ret j, .call i].Sublist (entryOrder sort history) → prec p o)
    (hs : Explained model prec s history) :
    (callProblem model node).Solvable (entryOrder sort history, s) := by
  obtain ⟨os, hperm, hord, hr⟩ := hs
  have hcomp : Relation.Comp (· = List.map (opAt history) ·) List.Perm os
      (List.range history.length) := by
    rw [List.eq_map_comp_perm]
    simpa [map_opAt] using hperm
  obtain ⟨is, rfl, his⟩ := hcomp
  have hlt : ∀ i, i ∈ is ↔ i < history.length := fun i => by rw [his.mem_iff, List.mem_range]
  refine (solvable_iff (entryOrder_paired hE hw)).mpr ⟨is, ⟨?_, fun i => ?_, ?_⟩, ?_⟩
  · exact his.nodup_iff.mpr List.nodup_range
  · rw [hlt, hE.mem]
    simp
  · refine (List.pairwise_map.mp hord).imp_of_mem fun {i j} hi hj hn hb => hn ?_
    exact hprec i j _ _ (opAt_eq ((hlt i).mp hi)) (opAt_eq ((hlt j).mp hj)) hb
  · exact (runs_opAt hE fun i hi => (hlt i).mp hi).mpr hr

end Times

end ChonKV.Porcupine
