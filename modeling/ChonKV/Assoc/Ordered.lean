import ChonKV.Assoc.Keyed
import Mathlib.Order.Defs.Unbundled

/-!
Maps as association lists whose keys ascend: one list for each map.
-/

set_option autoImplicit false

namespace Assoc

variable {κ ν : Type} [LT κ]

/-- A map whose keys are listed in ascending order. -/
structure OrderedMap (κ ν : Type) [LT κ] where
  entries : List (κ × ν)
  sorted : (keys entries).Pairwise (· < ·)

namespace OrderedMap

def empty : OrderedMap κ ν := ⟨[], List.Pairwise.nil⟩

@[ext] theorem ext {m m' : OrderedMap κ ν} (h : m.entries = m'.entries) : m = m' := by
  cases m
  cases m'
  cases h
  rfl

variable [DecidableEq κ] [DecidableLT κ]

def get (m : OrderedMap κ ν) (k : κ) : Option ν := find k m.entries

def insertInto (k : κ) (v : ν) : List (κ × ν) → List (κ × ν)
  | [] => [(k, v)]
  | (a, w) :: l =>
    if k < a then (k, v) :: (a, w) :: l
    else if k = a then (k, v) :: l
    else (a, w) :: insertInto k v l

theorem mem_keys_insertInto {k j : κ} {v : ν} : ∀ {l : List (κ × ν)},
    j ∈ keys (insertInto k v l) → j = k ∨ j ∈ keys l
  | [], h => by simpa [insertInto] using h
  | (a, w) :: l, h => by
    rw [insertInto] at h
    split_ifs at h with hlt heq
    · simpa using h
    · subst heq
      simpa using h
    · rcases List.mem_cons.mp h with rfl | h
      · simp
      · rcases mem_keys_insertInto h with h | h
        · exact .inl h
        · exact .inr (List.mem_cons_of_mem _ h)

theorem length_insertInto {k : κ} {v : ν} : ∀ {l : List (κ × ν)}, k ∉ keys l →
    (insertInto k v l).length = l.length + 1
  | [], _ => rfl
  | (a, w) :: l, h => by
    have hne : k ≠ a := fun heq => h (heq ▸ List.mem_cons_self)
    rw [insertInto, if_neg hne]
    split_ifs
    · rfl
    · rw [List.length_cons, length_insertInto fun hm => h (List.mem_cons_of_mem a hm),
        List.length_cons]

/-- Beyond the last key, an insertion is at the end. -/
theorem insertInto_last {k : κ} {v : ν} [Std.Asymm (· < · : κ → κ → Prop)] : ∀ {l : List (κ × ν)},
    (∀ a ∈ keys l, a < k) → insertInto k v l = l ++ [(k, v)]
  | [], _ => rfl
  | (a, w) :: l, h => by
    have hlt := h a List.mem_cons_self
    have hne : k ≠ a := by
      rintro rfl
      exact Std.Asymm.asymm _ _ hlt hlt
    rw [insertInto, if_neg (Std.Asymm.asymm _ _ hlt), if_neg hne, List.cons_append,
      insertInto_last fun b hb => h b (List.mem_cons_of_mem a hb)]

variable [IsTrans κ (· < ·)] [Std.Trichotomous (· < · : κ → κ → Prop)]

theorem sorted_insertInto {k : κ} {v : ν} : ∀ {l : List (κ × ν)}, (keys l).Pairwise (· < ·) →
    (keys (insertInto k v l)).Pairwise (· < ·)
  | [], _ => by simp [insertInto]
  | (a, w) :: l, h => by
    obtain ⟨ha, hl⟩ := List.pairwise_cons.mp h
    rw [insertInto]
    split_ifs with hlt heq
    · refine List.pairwise_cons.mpr ⟨fun j hj => ?_, h⟩
      rcases List.mem_cons.mp hj with rfl | hj
      · exact hlt
      · exact IsTrans.trans _ _ _ hlt (ha j hj)
    · subst heq
      exact h
    · refine List.pairwise_cons.mpr ⟨fun j hj => ?_, sorted_insertInto hl⟩
      rcases mem_keys_insertInto hj with rfl | hj
      · by_contra hlt'
        exact heq (Std.Trichotomous.trichotomous _ _ hlt hlt')
      · exact ha j hj

def insert (m : OrderedMap κ ν) (k : κ) (v : ν) : OrderedMap κ ν :=
  ⟨insertInto k v m.entries, sorted_insertInto m.sorted⟩

/-- `store[k] = v` for each pair in turn. -/
def insertAll (m : OrderedMap κ ν) (l : List (κ × ν)) : OrderedMap κ ν :=
  l.foldl (fun m p => m.insert p.1 p.2) m

theorem insertAll_append [Std.Asymm (· < · : κ → κ → Prop)] : ∀ {l : List (κ × ν)}
    {m m' : OrderedMap κ ν}, m'.entries = m.entries ++ l → m.insertAll l = m'
  | [], m, m', h => by
    rw [List.append_nil] at h
    exact OrderedMap.ext h.symm
  | (k, v) :: l, m, m', h => by
    have hlast : (m.insert k v).entries = m.entries ++ [(k, v)] := by
      refine insertInto_last fun a ha => ?_
      have hs := m'.sorted
      rw [h, keys, List.map_append, List.pairwise_append] at hs
      exact hs.2.2 a ha k List.mem_cons_self
    refine insertAll_append (m := m.insert k v) ?_
    rw [h, hlast, List.append_assoc]
    rfl

/-- A map is rebuilt from its entries. -/
theorem insertAll_entries [Std.Asymm (· < · : κ → κ → Prop)] (m : OrderedMap κ ν) :
    empty.insertAll m.entries = m := insertAll_append rfl

end OrderedMap
end Assoc
