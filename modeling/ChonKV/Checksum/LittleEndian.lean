import Mathlib.Data.List.Basic
import Mathlib.Data.Nat.Bitwise
import Mathlib.Tactic.Common

/-!
Little-endian words: the value of a list of bytes, and the shifts by which it is put together and
taken apart again.
-/

set_option autoImplicit false

namespace LittleEndian

def value : List UInt8 → Nat
  | [] => 0
  | b :: s => b.toNat + 256 * value s

@[simp] theorem value_nil : value [] = 0 := rfl

@[simp] theorem value_cons (b : UInt8) (s : List UInt8) :
    value (b :: s) = b.toNat + 256 * value s := rfl

theorem value_append (s t : List UInt8) : value (s ++ t) = value s + 256 ^ s.length * value t := by
  induction s with
  | nil => simp
  | cons b s ih => simp [ih, Nat.mul_add, Nat.pow_succ, Nat.mul_comm, Nat.mul_left_comm, Nat.add_assoc]

theorem value_lt (s : List UInt8) : value s < 256 ^ s.length := by
  induction s with
  | nil => simp
  | cons b s ih =>
    have hb := b.toNat_lt
    rw [List.length_cons, Nat.pow_succ, value_cons]
    omega

theorem value_inj {s t : List UInt8} (hlen : s.length = t.length) (h : value s = value t) :
    s = t := by
  induction s generalizing t with
  | nil => exact (List.length_eq_zero_iff.mp hlen.symm).symm
  | cons b s ih =>
    obtain _ | ⟨c, t⟩ := t
    · simp at hlen
    · have hb := b.toNat_lt
      have hc := c.toNat_lt
      simp only [value_cons] at h
      obtain rfl : s = t := ih (Nat.succ.inj hlen) (by omega)
      obtain rfl : b = c := UInt8.toNat_inj.mp (by omega)
      rfl

/-- A byte moved in from below a 32-bit word. -/
theorem push32 (u : UInt32) (b : UInt8) :
    ((u <<< 8) ||| b.toUInt32).toNat = (u.toNat * 256 + b.toNat) % 2 ^ 32 := by
  have hb : b.toNat < 2 ^ 8 := b.toNat_lt
  have hu : u.toNat <<< 8 % 2 ^ 32 = (u.toNat % 2 ^ 24) <<< 8 := by
    simp only [Nat.shiftLeft_eq]
    omega
  have hor : ((u <<< 8) ||| b.toUInt32).toNat = (u.toNat <<< 8 % 2 ^ 32) ||| b.toNat := by simp
  rw [hor, hu, ← Nat.shiftLeft_add_eq_or_of_lt hb, Nat.shiftLeft_eq]
  omega

theorem push64 (u : UInt64) (b : UInt8) :
    ((u <<< 8) ||| b.toUInt64).toNat = (u.toNat * 256 + b.toNat) % 2 ^ 64 := by
  have hb : b.toNat < 2 ^ 8 := b.toNat_lt
  have hu : u.toNat <<< 8 % 2 ^ 64 = (u.toNat % 2 ^ 56) <<< 8 := by
    simp only [Nat.shiftLeft_eq]
    omega
  have hor : ((u <<< 8) ||| b.toUInt64).toNat = (u.toNat <<< 8 % 2 ^ 64) ||| b.toNat := by simp
  rw [hor, hu, ← Nat.shiftLeft_add_eq_or_of_lt hb, Nat.shiftLeft_eq]
  omega

/-- The bytes of a 32-bit word, moved in from the top down. -/
def word32 (s : List UInt8) : UInt32 :=
  s.foldr (fun b u => (u <<< 8) ||| b.toUInt32) 0

def word64 (s : List UInt8) : UInt64 :=
  s.foldr (fun b u => (u <<< 8) ||| b.toUInt64) 0

theorem word32_toNat (s : List UInt8) : (word32 s).toNat = value s % 2 ^ 32 := by
  induction s with
  | nil => rfl
  | cons b s ih =>
    have hb := b.toNat_lt
    rw [word32, List.foldr_cons, ← word32, push32, ih, value_cons]
    omega

theorem word64_toNat (s : List UInt8) : (word64 s).toNat = value s % 2 ^ 64 := by
  induction s with
  | nil => rfl
  | cons b s ih =>
    have hb := b.toNat_lt
    rw [word64, List.foldr_cons, ← word64, push64, ih, value_cons]
    omega

/-- The byte of a 32-bit word at bit `k`. -/
def byte32 (u : UInt32) (k : Nat) : UInt8 := ((u >>> UInt32.ofNat k) &&& 0xff).toUInt8

def byte64 (u : UInt64) (k : Nat) : UInt8 := ((u >>> UInt64.ofNat k) &&& 0xff).toUInt8

theorem byte32_toNat (u : UInt32) {k : Nat} (hk : k < 32) :
    (byte32 u k).toNat = u.toNat / 2 ^ k % 256 := by
  have hand : (byte32 u k).toNat = (u.toNat >>> k % 2 ^ 8) &&& (2 ^ 8 - 1) := by
    simp [byte32, Nat.mod_eq_of_lt (Nat.lt_trans hk (by decide : 32 < 4294967296)),
      Nat.mod_eq_of_lt hk]
  rw [hand, Nat.and_two_pow_sub_one_eq_mod, Nat.mod_mod, Nat.shiftRight_eq_div_pow]
  rfl

theorem byte64_toNat (u : UInt64) {k : Nat} (hk : k < 64) :
    (byte64 u k).toNat = u.toNat / 2 ^ k % 256 := by
  have hand : (byte64 u k).toNat = (u.toNat >>> k % 2 ^ 8) &&& (2 ^ 8 - 1) := by
    simp [byte64, Nat.mod_eq_of_lt (Nat.lt_trans hk (by decide : 64 < 18446744073709551616)),
      Nat.mod_eq_of_lt hk]
  rw [hand, Nat.and_two_pow_sub_one_eq_mod, Nat.mod_mod, Nat.shiftRight_eq_div_pow]
  rfl

def bytes32 (u : UInt32) : List UInt8 := (List.range 4).map fun i => byte32 u (i*8)

def bytes64 (u : UInt64) : List UInt8 := (List.range 8).map fun i => byte64 u (i*8)

@[simp] theorem bytes32_length (u : UInt32) : (bytes32 u).length = 4 := rfl
@[simp] theorem bytes64_length (u : UInt64) : (bytes64 u).length = 8 := rfl

theorem value_bytes32 (u : UInt32) : value (bytes32 u) = u.toNat := by
  have h := u.toNat_lt
  simp [bytes32, List.range_succ, byte32_toNat]
  omega

theorem value_bytes64 (u : UInt64) : value (bytes64 u) = u.toNat := by
  have h := u.toNat_lt
  simp [bytes64, List.range_succ, byte64_toNat]
  omega

@[simp] theorem word32_bytes32 (u : UInt32) : word32 (bytes32 u) = u := by
  apply UInt32.toNat_inj.mp
  rw [word32_toNat, value_bytes32, Nat.mod_eq_of_lt u.toNat_lt]

@[simp] theorem word64_bytes64 (u : UInt64) : word64 (bytes64 u) = u := by
  apply UInt64.toNat_inj.mp
  rw [word64_toNat, value_bytes64, Nat.mod_eq_of_lt u.toNat_lt]

theorem word32_inj {s t : List UInt8} (hs : s.length = 4) (ht : t.length = 4)
    (h : word32 s = word32 t) : s = t := by
  have hv := congrArg UInt32.toNat h
  have hls := value_lt s
  have hlt := value_lt t
  rw [hs] at hls
  rw [ht] at hlt
  rw [word32_toNat, word32_toNat] at hv
  exact value_inj (hs.trans ht.symm) (by omega)

/-- A 64-bit word is its low half followed by its high half. -/
theorem bytes64_eq (u : UInt64) :
    bytes64 u = bytes32 u.toUInt32 ++ bytes32 (u >>> 32).toUInt32 := by
  have h := u.toNat_lt
  have hhigh : (u >>> 32).toUInt32.toNat = u.toNat / 2 ^ 32 := by
    simp [Nat.shiftRight_eq_div_pow]
    omega
  apply value_inj (by simp)
  rw [value_bytes64, value_append, value_bytes32, value_bytes32, hhigh]
  simp
  omega

end LittleEndian
