import Mathlib.Data.List.Dedup
import Mathlib.Data.List.Perm.Basic
import Mathlib.Order.Lattice

/-!
Orders of the elements of each key, merged into one order of all of them. Each element has a start and
a stop, and one that stopped before another started is not put behind it.
-/

set_option autoImplicit false

namespace Assoc

variable {α κ : Type} [DecidableEq κ] {key : α → κ} {start stop : α → Int} {l : List α} {m : Int}
  {a : α}

/-- No element stopped before one in front of it started. -/
def Timely (start stop : α → Int) (l : List α) : Prop :=
  l.Pairwise fun a b => start a ≤ stop b

/-- The latest start so far: a point inside each element that never goes back. -/
def points (start : α → Int) (m : Int) : List α → List (α × Int)
  | [] => []
  | a :: l => (a, max m (start a)) :: points start (max m (start a)) l

theorem points_fst : (points start m l).map (·.1) = l := by
  induction l generalizing m with
  | nil => rfl
  | cons a l ih => simp [points, ih]

theorem points_ge {p : α × Int} (hp : p ∈ points start m l) : m ≤ p.2 ∧ start p.1 ≤ p.2 := by
  induction l generalizing m with
  | nil => simp [points] at hp
  | cons a l ih =>
    rcases List.mem_cons.mp hp with rfl | hp
    · exact ⟨le_max_left _ _, le_max_right _ _⟩
    · have h := ih hp
      exact ⟨(le_max_left _ _).trans h.1, h.2⟩

theorem points_pairwise : (points start m l).Pairwise fun p q => p.2 ≤ q.2 := by
  induction l generalizing m with
  | nil => simp [points]
  | cons a l ih => exact List.pairwise_cons.mpr ⟨fun q hq => (points_ge hq).1, ih⟩

theorem points_le (ht : Timely start stop l) (hl : ∀ a ∈ l, start a ≤ stop a)
    (hm : ∀ a ∈ l, m ≤ stop a) {p : α × Int} (hp : p ∈ points start m l) : p.2 ≤ stop p.1 := by
  induction l generalizing m with
  | nil => simp [points] at hp
  | cons a l ih =>
    obtain ⟨ha, ht'⟩ := List.pairwise_cons.mp ht
    rcases List.mem_cons.mp hp with rfl | hp
    · exact max_le (hm a (by simp)) (hl a (by simp))
    · exact ih ht' (fun b hb => hl b (by simp [hb]))
        (fun b hb => max_le (hm b (by simp [hb])) (ha b hb)) hp

/-- The elements, key by key. -/
theorem flatMap_keys_perm {keys : List κ} (hnd : keys.Nodup) (hk : ∀ a ∈ l, key a ∈ keys) :
    (keys.flatMap fun k => l.filter (key · = k)).Perm l := by
  induction keys generalizing l with
  | nil =>
    cases l with
    | nil => simp
    | cons a l => simpa using hk a (by simp)
  | cons k keys ih =>
    obtain ⟨hnot, hnd'⟩ := List.nodup_cons.mp hnd
    have hrest := ih (l := l.filter fun a => !decide (key a = k)) hnd' fun a ha => by
      obtain ⟨hal, hak⟩ := List.mem_filter.mp ha
      exact (List.mem_cons.mp (hk a hal)).resolve_left (by simpa using hak)
    have heq : (keys.flatMap fun j => (l.filter fun a => !decide (key a = k)).filter (key · = j)) =
        keys.flatMap fun j => l.filter (key · = j) := by
      refine List.flatMap_congr fun j hj => ?_
      rw [List.filter_filter]
      refine List.filter_congr fun a _ => ?_
      have hjk : j ≠ k := fun h => hnot (h ▸ hj)
      by_cases haj : key a = j
      · simp [haj, hjk]
      · simp [haj]
    rw [heq] at hrest
    rw [List.flatMap_cons]
    exact (hrest.append_left _).trans (List.filter_append_perm _ l)

theorem exists_le (f : α → Int) (l : List α) : ∃ m, ∀ a ∈ l, m ≤ f a := by
  induction l with
  | nil => exact ⟨0, by simp⟩
  | cons a l ih =>
    obtain ⟨m, hm⟩ := ih
    refine ⟨min m (f a), fun b hb => ?_⟩
    rcases List.mem_cons.mp hb with rfl | hb
    · exact min_le_right _ _
    · exact (min_le_left _ _).trans (hm b hb)

/-- Timely orders of the keys are the parts of a timely order: the points of all elements are sorted,
and elements of one point stay in the order they have. -/
theorem exists_merge (key : α → κ) (hl : ∀ a ∈ l, start a ≤ stop a) (per : κ → List α)
    (hper : ∀ k, (per k).Perm (l.filter (key · = k))) (ht : ∀ k, Timely start stop (per k)) :
    ∃ o : List α, o.Perm l ∧ (∀ k, o.filter (key · = k) = per k) ∧ Timely start stop o := by
  obtain ⟨m, hm⟩ := exists_le stop l
  have hmem : ∀ {k a}, a ∈ per k → a ∈ l ∧ key a = k := fun ha => by
    have h := (hper _).mem_iff.mp ha
    simpa using h
  let keys := (l.map key).dedup
  have hkeys : ∀ a ∈ l, key a ∈ keys := fun a ha => List.mem_dedup.mpr (List.mem_map_of_mem ha)
  let big := keys.flatMap fun k => points start m (per k)
  let le : α × Int → α × Int → Bool := fun p q => decide (p.2 ≤ q.2)
  have htrans : ∀ p q r, le p q → le q r → le p r := fun p q r hpq hqr =>
    decide_eq_true ((of_decide_eq_true hpq).trans (of_decide_eq_true hqr))
  have htotal : ∀ p q, le p q || le q p := fun p q => by
    rcases Int.le_total p.2 q.2 with h | h <;> simp [le, h]
  have hperm := List.mergeSort_perm big le
  have hbig : (big.map (·.1)).Perm l := by
    have hflat : big.map (·.1) = keys.flatMap per := by
      simp only [big, List.map_flatMap, points_fst]
    rw [hflat]
    exact (List.Perm.flatMap_left _ fun k _ => hper k).trans
      (flatMap_keys_perm (List.nodup_dedup _) hkeys)
  refine ⟨(big.mergeSort le).map (·.1), (hperm.map _).trans hbig, fun k => ?_, ?_⟩
  · have hpart := (((hperm.map (·.1)).trans hbig).filter (key · = k)).trans (hper k).symm
    by_cases hnil : per k = []
    · rw [hnil] at hpart ⊢
      exact hpart.eq_nil
    · obtain ⟨a, ha⟩ := List.exists_mem_of_ne_nil _ hnil
      have hk : k ∈ keys := (hmem ha).2 ▸ hkeys a (hmem ha).1
      have hsub : (points start m (per k)).Sublist big := by
        exact List.sublist_flatten_of_mem (List.mem_map_of_mem hk)
      have hsort := ((List.sublist_mergeSort htrans htotal
        (points_pairwise.imp fun h => decide_eq_true h) hsub).map (·.1)).filter (key · = k)
      have hself : (per k).filter (key · = k) = per k :=
        List.filter_eq_self.mpr fun b hb => by simp [(hmem hb).2]
      rw [points_fst, hself] at hsort
      exact (hsort.eq_of_length hpart.length_eq.symm).symm
  · rw [Timely, List.pairwise_map]
    have hin : ∀ p ∈ big.mergeSort le, start p.1 ≤ p.2 ∧ p.2 ≤ stop p.1 := fun p hp => by
      obtain ⟨k, -, hpk⟩ := List.mem_flatMap.mp (hperm.mem_iff.mp hp)
      exact ⟨(points_ge hpk).2, points_le (ht k) (fun a ha => hl a (hmem ha).1)
        (fun a ha => hm a (hmem ha).1) hpk⟩
    refine (List.pairwise_mergeSort htrans htotal big).imp_of_mem fun {p q} hp hq hpq => ?_
    have hpq' : p.2 ≤ q.2 := of_decide_eq_true hpq
    exact (hin p hp).1.trans (hpq'.trans (hin q hq).2)

/-- A relation that holds inside each key. -/
theorem pairwise_of_keys {R : α → α → Prop} (key : α → κ) (h : ∀ k, (l.filter (key · = k)).Pairwise R) :
    l.Pairwise fun a b => key a = key b → R a b := by
  rw [List.pairwise_iff_forall_sublist]
  intro a b hab hk
  have hsub := hab.filter (key · = key b)
  simp only [List.filter_cons, hk, decide_true, if_true, List.filter_nil] at hsub
  exact List.pairwise_iff_forall_sublist.mp (h (key b)) hsub

end Assoc
