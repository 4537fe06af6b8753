import Mathlib.Data.List.Basic
import Mathlib.Data.Nat.Bitwise
import Mathlib.Data.List.Induction
import Mathlib.Tactic.Common

/-!
Reflected checksums that a table of 256 words drives, one byte after the other. Where the top
bytes of the table are pairwise different, the state before a byte and up to four bytes in a row
can be told from the state after them. The table is arbitrary.
-/

set_option autoImplicit false

namespace Checksum

def index (c : UInt32) (b : UInt8) : UInt32 := (c ^^^ b.toUInt32) &&& 0xff

def feed (table : UInt32 → UInt32) (c : UInt32) (b : UInt8) : UInt32 :=
  table (index c b) ^^^ (c >>> 8)

def run (table : UInt32 → UInt32) (c : UInt32) (data : List UInt8) : UInt32 :=
  data.foldl (feed table) c

/-- The top byte of an entry tells which entry it is. -/
def TopDistinct (table : UInt32 → UInt32) : Prop :=
  ∀ i j : UInt32, i.toNat < 256 → j.toNat < 256 →
    (table i).toNat >>> 24 = (table j).toNat >>> 24 → i = j

theorem index_toNat (c : UInt32) (b : UInt8) :
    (index c b).toNat = (c.toNat % 256) ^^^ b.toNat := by
  have hb : b.toNat % 2 ^ 8 = b.toNat := Nat.mod_eq_of_lt b.toNat_lt
  have hand : (index c b).toNat = (c.toNat ^^^ b.toNat) &&& (2 ^ 8 - 1) := by simp [index]
  rw [hand, Nat.and_two_pow_sub_one_eq_mod, Nat.xor_mod_two_pow, hb]

theorem index_lt (c : UInt32) (b : UInt8) : (index c b).toNat < 256 := by
  rw [index_toNat]
  exact Nat.xor_lt_two_pow (n := 8) (Nat.mod_lt _ (by decide)) b.toNat_lt

theorem index_byte_inj {c : UInt32} {b b' : UInt8} (h : index c b = index c b') : b = b' := by
  have hn := congrArg UInt32.toNat h
  rw [index_toNat, index_toNat] at hn
  exact UInt8.toNat_inj.mp (Nat.xor_right_injective hn)

theorem index_state_inj {c c' : UInt32} {b : UInt8} (h : index c b = index c' b) :
    c.toNat % 256 = c'.toNat % 256 := by
  have hn := congrArg UInt32.toNat h
  rw [index_toNat, index_toNat] at hn
  exact Nat.xor_left_injective hn

theorem feed_toNat (table : UInt32 → UInt32) (c : UInt32) (b : UInt8) :
    (feed table c b).toNat = (table (index c b)).toNat ^^^ (c.toNat >>> 8) := by
  simp [feed]

variable {table : UInt32 → UInt32}

/-- The bits of the state after a byte from `k` on tell the entry that was used and the bits of the
state before it from `k + 8` on. -/
theorem feed_inv (ht : TopDistinct table) {c c' : UInt32} {b b' : UInt8} {k : Nat} (hk : k ≤ 24)
    (h : (feed table c b).toNat >>> k = (feed table c' b').toNat >>> k) :
    index c b = index c' b' ∧ c.toNat >>> (8+k) = c'.toNat >>> (8+k) := by
  have htop : ∀ (c : UInt32) (b : UInt8), (feed table c b).toNat >>> k >>> (24-k) =
      (table (index c b)).toNat >>> 24 := by
    intro c b
    have hc : c.toNat >>> 32 = 0 := by
      rw [Nat.shiftRight_eq_div_pow]
      exact Nat.div_eq_of_lt c.toNat_lt
    rw [feed_toNat, ← Nat.shiftRight_add, Nat.add_sub_cancel' hk, Nat.shiftRight_xor_distrib,
      ← Nat.shiftRight_add, hc, Nat.xor_zero]
  have hi : index c b = index c' b' := by
    refine ht _ _ (index_lt c b) (index_lt c' b') ?_
    rw [← htop, ← htop, h]
  refine ⟨hi, ?_⟩
  rw [feed_toNat, feed_toNat, hi, Nat.shiftRight_xor_distrib, Nat.shiftRight_xor_distrib] at h
  rw [Nat.shiftRight_add, Nat.shiftRight_add]
  exact Nat.xor_right_injective h

theorem feed_inj (ht : TopDistinct table) {c c' : UInt32} {b : UInt8}
    (h : feed table c b = feed table c' b) : c = c' := by
  have h0 : (feed table c b).toNat >>> 0 = (feed table c' b).toNat >>> 0 := by rw [h]
  obtain ⟨hi, hs⟩ := feed_inv ht (by decide) h0
  have hlow := index_state_inj hi
  simp only [Nat.add_zero, Nat.shiftRight_eq_div_pow] at hs
  exact UInt32.toNat_inj.mp (by omega)

@[simp] theorem run_nil (c : UInt32) : run table c [] = c := rfl

@[simp] theorem run_append (c : UInt32) (a b : List UInt8) :
    run table c (a ++ b) = run table (run table c a) b := List.foldl_append

theorem run_inj (ht : TopDistinct table) {c c' : UInt32} (data : List UInt8)
    (h : run table c data = run table c' data) : c = c' := by
  induction data generalizing c c' with
  | nil => exact h
  | cons b data ih => exact feed_inj ht (ih h)

/-- From one state on, words that leave the same bits from `k` on are equal as long as they fit
into the bits above `k`. -/
theorem run_shift_inj (ht : TopDistinct table) {c : UInt32} {w w' : List UInt8} {k : Nat}
    (hlen : w.length = w'.length) (hk : 8 * w.length + k ≤ 32)
    (h : (run table c w).toNat >>> k = (run table c w').toNat >>> k) : w = w' := by
  induction w using List.reverseRecOn generalizing w' k with
  | nil => exact (List.length_eq_zero_iff.mp hlen.symm).symm
  | append_singleton v b ih =>
    obtain rfl | ⟨v', b', rfl⟩ := List.eq_nil_or_concat' w'
    · simp at hlen
    · simp only [List.length_append, List.length_singleton] at hlen hk
      simp only [run_append] at h
      obtain ⟨hi, hs⟩ := feed_inv ht (by omega) h
      obtain rfl : v = v' := ih (by omega) (by omega) hs
      rw [index_byte_inj hi]

/-- A change of at most four bytes in a row changes the checksum. -/
theorem run_burst (ht : TopDistinct table) {c : UInt32} (a : List UInt8) {w w' : List UInt8}
    (z : List UInt8) (hlen : w.length = w'.length) (h4 : w.length ≤ 4)
    (h : run table c (a ++ w ++ z) = run table c (a ++ w' ++ z)) : w = w' := by
  simp only [run_append] at h
  exact run_shift_inj ht (k := 0) hlen (by omega) (by rw [run_inj ht z h])

/-- `s'` is `s` with bytes from `lo` to `hi` changed, all of them within four in a row. -/
structure Burst (lo hi : Nat) (s s' : List UInt8) : Prop where
  length_eq : s'.length = s.length
  changed : s' ≠ s
  window : ∃ j, ∀ i, s'[i]? ≠ s[i]? → (lo ≤ i ∧ i < hi) ∧ j ≤ i ∧ i < j + 4

theorem Burst.get {lo hi : Nat} {s s' : List UInt8} (h : Burst lo hi s s') {i : Nat}
    (hi : i < lo ∨ hi ≤ i) : s'[i]? = s[i]? := by
  obtain ⟨j, hj⟩ := h.window
  by_contra hne
  obtain ⟨hin, -⟩ := hj i hne
  omega

theorem Burst.take {lo hi k : Nat} {s s' : List UInt8} (h : Burst lo hi s s') (hk : k ≤ lo) :
    s'.take k = s.take k := by
  apply List.ext_getElem?
  intro i
  by_cases hik : i < k
  · simp [hik, h.get (Or.inl (Nat.lt_of_lt_of_le hik hk))]
  · simp [List.getElem?_take, hik]

theorem Burst.drop {lo hi k : Nat} {s s' : List UInt8} (h : Burst lo hi s s') (hk : hi ≤ k) :
    s'.drop k = s.drop k := by
  apply List.ext_getElem?
  intro i
  simp [h.get (Or.inr (Nat.le_trans hk (Nat.le_add_right k i)))]

theorem Burst.of_take {lo hi k : Nat} {s s' : List UInt8} (h : Burst lo hi s s') (hk : hi ≤ k) :
    Burst lo hi (s.take k) (s'.take k) := by
  obtain ⟨j, hj⟩ := h.window
  refine ⟨by simp [h.length_eq], ?_, j, fun i hne => hj i ?_⟩
  · intro htake
    apply h.changed
    rw [← List.take_append_drop k s', htake, h.drop hk, List.take_append_drop]
  · by_cases hik : i < k
    · simpa [List.getElem?_take, hik] using hne
    · simp [List.getElem?_take, hik] at hne

theorem Burst.of_drop {lo hi k : Nat} {s s' : List UInt8} (h : Burst lo hi s s') (hk : k ≤ lo) :
    Burst (lo-k) (hi-k) (s.drop k) (s'.drop k) := by
  obtain ⟨j, hj⟩ := h.window
  refine ⟨by simp [h.length_eq], ?_, j-k, fun i hne => ?_⟩
  · intro hdrop
    apply h.changed
    rw [← List.take_append_drop k s', hdrop, h.take hk, List.take_append_drop]
  · obtain ⟨hin, hwin⟩ := hj (k+i) (by simpa using hne)
    omega

theorem Burst.run_ne (ht : TopDistinct table) {c : UInt32} {lo hi : Nat} {s s' : List UInt8}
    (h : Burst lo hi s s') : run table c s' ≠ run table c s := by
  obtain ⟨j, hj⟩ := h.window
  have hjw : Burst j (j+4) s s' := ⟨h.length_eq, h.changed, j, fun i hi => ⟨(hj i hi).2, (hj i hi).2⟩⟩
  have hcut : ∀ t : List UInt8, t = t.take j ++ (t.drop j).take 4 ++ t.drop (j+4) := by
    intro t
    simp [← List.drop_drop]
  intro heq
  have hw : (s'.drop j).take 4 = (s.drop j).take 4 := by
    refine run_burst ht (s.take j) (s.drop (j+4)) (by simp [h.length_eq]) (List.length_take_le 4 _) ?_ (c := c)
    rw [← hcut s, ← hjw.take (Nat.le_refl j), ← hjw.drop (Nat.le_refl _), ← hcut s', heq]
  apply h.changed
  rw [hcut s', hcut s, hw, hjw.take (Nat.le_refl j), hjw.drop (Nat.le_refl _)]

end Checksum
