import ChonKV.Labrpc.Framing
import Mathlib.Data.Nat.Bitwise

/-!
The encoder and the decoder of `codec.h`. An encoder returns what it appends to its buffer, a decoder
reads from the position it stands at.
-/

set_option autoImplicit false

namespace ChonKV

open Framing

namespace Encoder

/-- Ten groups of seven bits hold 64 bits. -/
def varintLoop : Nat → UInt64 → List UInt8
  | 0, _ => []
  | k+1, v => if 0x80 ≤ v then ((v &&& 0x7f) ||| 0x80).toUInt8 :: varintLoop k (v >>> 7)
    else [v.toUInt8]

def varint (v : UInt64) : List UInt8 := varintLoop 10 v

def bool (v : Bool) : List UInt8 := varint (if v then 1 else 0)

def zigzag (v : Int64) : List UInt8 := varint ((v.toUInt64 <<< 1) ^^^ (v >>> 63).toUInt64)

def bytes (s : List UInt8) : List UInt8 := varint (UInt64.ofNat s.length) ++ s

def int (v : Int32) : List UInt8 := zigzag v.toInt64

end Encoder

namespace Decoder

/-- The loop of `Varint`: what was read so far, and the place of the next group. -/
def varintLoop (result : UInt64) (shift : Nat) : Reader UInt8 UInt64
  | [] => none
  | b :: rest =>
    if 64 ≤ shift then none
    else
      let result := result ||| ((b &&& 0x7f).toUInt64 <<< UInt64.ofNat shift)
      if b &&& 0x80 = 0 then some (result, rest) else varintLoop result (shift+7) rest

def varint : Reader UInt8 UInt64 := varintLoop 0 0

def bool : Reader UInt8 Bool := do
  let x ← varint
  pure (decide (x ≠ 0))

def zigzag : Reader UInt8 Int64 := do
  let x ← varint
  pure ((x >>> 1).toInt64 ^^^ -(x &&& 1).toInt64)

/-- `n` bytes, if there are as many. -/
def take (n : UInt64) : Reader UInt8 (List UInt8) := fun s =>
  if s.length < n.toNat then none else some (s.take n.toNat, s.drop n.toNat)

def bytes : Reader UInt8 (List UInt8) := do
  let n ← varint
  take n

def int : Reader UInt8 Int32 := do
  let x ← zigzag
  pure x.toInt32

end Decoder

theorem toNat_group {v : UInt64} : (((v &&& 0x7f) ||| 0x80).toUInt8).toNat = v.toNat % 128 + 128 := by
  have hlow : (v &&& 0x7f).toNat = v.toNat % 128 := by
    rw [UInt64.toNat_and]
    exact Nat.and_two_pow_sub_one_eq_mod v.toNat 7
  have hlt := Nat.mod_lt v.toNat (by decide : 0 < 128)
  have hor : ((v &&& 0x7f) ||| 0x80).toNat = v.toNat % 128 + 128 := by
    rw [UInt64.toNat_or, hlow, Nat.or_comm]
    exact (Nat.two_pow_add_eq_or_of_lt (i := 7) hlt 1).symm.trans (by omega)
  rw [UInt64.toNat_toUInt8, hor]
  omega

/-- The low bits of a byte, put in their place above those read so far. -/
theorem toNat_place {result : UInt64} {b : UInt8} {shift : Nat} (hs : shift < 64)
    (hr : result.toNat < 2^shift) (hb : b.toNat % 128 * 2^shift < 2^64) :
    (result ||| ((b &&& 0x7f).toUInt64 <<< UInt64.ofNat shift)).toNat =
      result.toNat + b.toNat % 128 * 2^shift := by
  have hlow : (b &&& 0x7f).toNat = b.toNat % 128 := by
    rw [UInt8.toNat_and]
    exact Nat.and_two_pow_sub_one_eq_mod b.toNat 7
  have hshift : (UInt64.ofNat shift).toNat = shift := UInt64.toNat_ofNat_of_lt' (by
    exact Nat.lt_trans hs (by decide))
  have hplace : ((b &&& 0x7f).toUInt64 <<< UInt64.ofNat shift).toNat = b.toNat % 128 * 2^shift := by
    rw [UInt64.toNat_shiftLeft, hshift, UInt8.toNat_toUInt64, hlow, Nat.mod_eq_of_lt hs,
      Nat.shiftLeft_eq, Nat.mod_eq_of_lt hb]
  rw [UInt64.toNat_or, hplace, Nat.or_comm, Nat.mul_comm]
  rw [← Nat.two_pow_add_eq_or_of_lt hr]
  omega

theorem continues_iff {b : UInt8} : b &&& 0x80 = 0 ↔ b.toNat < 128 := by
  rw [← UInt8.toNat_inj, UInt8.toNat_and]
  have hlt := b.toNat_lt
  have h : b.toNat &&& 128 = 128 * (b.toNat / 128 % 2) := by
    rw [show (128 : Nat) = 2^7 from rfl, Nat.and_two_pow, Nat.testBit_eq_decide_div_mod_eq]
    rcases Nat.mod_two_eq_zero_or_one (b.toNat / 128) with hz | hz <;> simp [hz]
  show b.toNat &&& 128 = 0 ↔ _
  rw [h]
  omega

theorem frames_last {b : UInt8} {result : UInt64} {shift : Nat} (hb : b.toNat < 128)
    (hs : shift < 64) : Frames [b] (Decoder.varintLoop result shift)
      (result ||| ((b &&& 0x7f).toUInt64 <<< UInt64.ofNat shift)) where
  reads rest := by
    rw [List.singleton_append, Decoder.varintLoop, if_neg (by omega)]
    exact if_pos (continues_iff.mpr hb)
  cut p hp hne := by
    rcases List.prefix_cons_iff.mp hp with rfl | ⟨t, rfl, ht⟩
    · rfl
    · exact absurd (by rw [List.prefix_nil.mp ht]) hne

theorem frames_group {b : UInt8} {result x : UInt64} {shift : Nat} {w : List UInt8}
    (hb : 128 ≤ b.toNat) (hs : shift < 64)
    (h : Frames w (Decoder.varintLoop
      (result ||| ((b &&& 0x7f).toUInt64 <<< UInt64.ofNat shift)) (shift+7)) x) :
    Frames (b :: w) (Decoder.varintLoop result shift) x := by
  have hgo : b &&& 0x80 ≠ 0 := fun hz => by
    have := continues_iff.mp hz
    omega
  refine ⟨fun rest => ?_, fun p hp hne => ?_⟩
  · rw [List.cons_append, Decoder.varintLoop, if_neg (by omega)]
    exact (if_neg hgo).trans (h.reads rest)
  · rcases List.prefix_cons_iff.mp hp with rfl | ⟨t, rfl, ht⟩
    · rfl
    · rw [Decoder.varintLoop, if_neg (by omega)]
      refine (if_neg hgo).trans (h.cut t ht ?_)
      rintro rfl
      exact hne rfl

/-- The loop of the decoder reads what the loop of the encoder wrote, at the same place. -/
theorem frames_varintLoop : ∀ (k : Nat) (v result : UInt64) (shift : Nat), v.toNat < 128^(k+1) →
    v.toNat * 2^shift < 2^64 → shift < 64 → result.toNat < 2^shift →
    Frames (Encoder.varintLoop (k+1) v) (Decoder.varintLoop result shift)
      (UInt64.ofNat (result.toNat + v.toNat * 2^shift)) := by
  -- a value below 128 is one byte
  have hsmall : ∀ (k : Nat) (v result : UInt64) (shift : Nat), v.toNat < 128 →
      v.toNat * 2^shift < 2^64 → shift < 64 → result.toNat < 2^shift →
      Frames (Encoder.varintLoop (k+1) v) (Decoder.varintLoop result shift)
        (UInt64.ofNat (result.toNat + v.toNat * 2^shift)) := by
    intro k v result shift hv hplace hs hr
    have hb : v.toUInt8.toNat = v.toNat := by
      rw [UInt64.toNat_toUInt8]
      omega
    have hmod : v.toUInt8.toNat % 128 = v.toNat := by omega
    have hval := toNat_place (b := v.toUInt8) hs hr (by rwa [hmod])
    rw [hmod] at hval
    rw [Encoder.varintLoop, if_neg (by rw [UInt64.le_iff_toNat_le]; exact Nat.not_le.mpr hv), ← hval,
      UInt64.ofNat_toNat]
    exact frames_last (by omega) hs
  intro k
  induction k with
  | zero => exact fun v result shift hv => hsmall 0 v result shift (by omega)
  | succ k ih =>
    intro v result shift hv hplace hs hr
    by_cases hlt : v.toNat < 128
    · exact hsmall _ v result shift hlt hplace hs hr
    have hb : (((v &&& 0x7f) ||| 0x80).toUInt8).toNat = v.toNat % 128 + 128 := toNat_group
    have hmod : (((v &&& 0x7f) ||| 0x80).toUInt8).toNat % 128 = v.toNat % 128 := by omega
    have hshr : (v >>> 7).toNat = v.toNat / 128 := by
      rw [UInt64.toNat_shiftRight]
      exact Nat.shiftRight_eq_div_pow v.toNat 7
    have hsplit : v.toNat = v.toNat / 128 * 128 + v.toNat % 128 := by omega
    have hpow : 2^(shift+7) = 128 * 2^shift := by rw [Nat.pow_add, Nat.mul_comm]
    have hsum : v.toNat % 128 * 2^shift + v.toNat / 128 * 2^(shift+7) = v.toNat * 2^shift := by
      rw [hpow, ← Nat.mul_assoc, ← Nat.add_mul, Nat.add_comm, ← hsplit]
    have hval := toNat_place (b := ((v &&& 0x7f) ||| 0x80).toUInt8) hs hr (by rw [hmod]; omega)
    rw [hmod] at hval
    have hhigh : 2^(shift+7) ≤ v.toNat / 128 * 2^(shift+7) :=
      Nat.le_mul_of_pos_left _ (Nat.div_pos (by omega) (by decide))
    have hshift : shift + 7 < 64 := by
      by_contra hge
      have := Nat.pow_le_pow_right (show 0 < 2 by decide) (Nat.not_lt.mp hge)
      omega
    have hrest := ih (v >>> 7) _ (shift+7) (by
        rw [hshr]
        rw [Nat.pow_succ] at hv
        exact Nat.div_lt_of_lt_mul (by rwa [Nat.mul_comm] at hv))
      (by rw [hshr]; omega) hshift (by
        rw [hval, hpow]
        have hle : v.toNat % 128 * 2^shift ≤ 127 * 2^shift := Nat.mul_le_mul_right _ (by omega)
        omega)
    rw [hval, hshr, Nat.add_assoc, hsum] at hrest
    rw [Encoder.varintLoop, if_pos (by rw [UInt64.le_iff_toNat_le]; exact Nat.not_lt.mp hlt)]
    exact frames_group (by omega) hs hrest

theorem frames_varint (v : UInt64) : Frames (Encoder.varint v) Decoder.varint v := by
  have hlt := v.toNat_lt
  have h := frames_varintLoop 9 v 0 0 (Nat.lt_trans hlt (by decide)) (by simpa using hlt) (by decide)
    (by decide)
  simp only [UInt64.toNat_zero, Nat.pow_zero, Nat.mul_one, Nat.zero_add, UInt64.ofNat_toNat] at h
  exact h

theorem frames_bool (v : Bool) : Frames (Encoder.bool v) Decoder.bool v :=
  (frames_varint _).bind_pure (by cases v <;> rfl)

theorem zigzag_low (v : BitVec 64) :
    ((v <<< 1) ^^^ v.sshiftRight 63) &&& 1 = if v.msb then 1 else 0 := by
  ext i hi
  by_cases h0 : i = 0
  · subst h0
    cases hm : v.msb <;> simpa [BitVec.getElem_sshiftRight, BitVec.msb_eq_getLsbD_last] using hm
  · cases hm : v.msb <;> simp [h0]

/-- Zigzag on 64 bits: the sign goes to the lowest bit, and inverts the others. -/
theorem zigzag_bits (v : BitVec 64) : (((v <<< 1) ^^^ v.sshiftRight 63) >>> 1) ^^^
    -(((v <<< 1) ^^^ v.sshiftRight 63) &&& 1) = v := by
  rw [zigzag_low]
  ext i hi
  cases hm : v.msb with
  | false =>
    simp
    grind
  | true =>
    have hones : (-(1 : BitVec 64))[i] = true := by
      have h := BitVec.getElem_allOnes (v := 64) i hi
      rwa [show BitVec.allOnes 64 = -1 from rfl] at h
    rw [if_pos rfl, BitVec.getElem_xor, hones]
    simp
    grind

theorem frames_zigzag (v : Int64) : Frames (Encoder.zigzag v) Decoder.zigzag v :=
  (frames_varint _).bind_pure (congrArg pure (Int64.toBitVec.inj (zigzag_bits v.toBitVec)))

theorem frames_int (v : Int32) : Frames (Encoder.int v) Decoder.int v :=
  (frames_zigzag _).bind_pure (congrArg pure (Int32.toInt32_toInt64 v))

theorem frames_take {s : List UInt8} {n : UInt64} (hn : n.toNat = s.length) :
    Frames s (Decoder.take n) s where
  reads rest := by simp [Decoder.take, hn]
  cut p hp hne := by
    refine if_pos ?_
    rw [hn]
    by_contra hle
    exact hne (hp.eq_of_length_le (by omega))

/-- A byte string of `size_t` length. -/
theorem frames_bytes {s : List UInt8} (hs : s.length < 2^64) :
    Frames (Encoder.bytes s) Decoder.bytes s :=
  (frames_varint _).bind (frames_take (UInt64.toNat_ofNat_of_lt' hs))

example : Encoder.zigzag (-2) = [3] := by decide

example : readAll Decoder.zigzag [0x80, 0x02] = some (128 : Int64) := by decide

end ChonKV
