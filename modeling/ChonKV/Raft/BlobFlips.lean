import ChonKV.Raft.SnapshotBlob

/-!
A snapshot blob with one bit changed.
-/

set_option autoImplicit false

namespace ChonKV

/-- A change of one bit. -/
def flipBit (s : Bytes) (i k : Nat) : Bytes := s.modify i fun b => b ^^^ (1 <<< UInt8.ofNat k)

@[simp] theorem flipBit_length (s : Bytes) (i k : Nat) : (flipBit s i k).length = s.length :=
  List.length_modify ..

theorem flipBit_append_right {a s : Bytes} {i k : Nat} (h : a.length ≤ i) :
    flipBit (a ++ s) i k = a ++ flipBit s (i - a.length) k := by
  induction a generalizing i with
  | nil => rfl
  | cons b a ih =>
    obtain _ | i := i
    · simp at h
    · have hi := ih (Nat.le_of_succ_le_succ h)
      simpa [flipBit, List.modify_succ_cons] using hi

theorem flipBit_append_left {a s : Bytes} {i k : Nat} (h : i < a.length) :
    flipBit (a ++ s) i k = flipBit a i k ++ s := by
  induction a generalizing i with
  | nil => simp at h
  | cons b a ih =>
    obtain _ | i := i
    · rfl
    · have hi := ih (Nat.lt_of_succ_lt_succ h)
      simpa [flipBit, List.modify_succ_cons] using hi

theorem flipBit_middle {a w z : Bytes} {i k : Nat} (ha : a.length ≤ i)
    (hw : i < a.length + w.length) :
    flipBit (a ++ w ++ z) i k = a ++ flipBit w (i - a.length) k ++ z := by
  rw [flipBit_append_left (by simpa using hw), flipBit_append_right ha]

theorem flipBit_split {s : Bytes} {i k : Nat} (hi : i < s.length) :
    ∃ u b v, s = u ++ [b] ++ v ∧ flipBit s i k = u ++ [b ^^^ (1 <<< UInt8.ofNat k)] ++ v := by
  refine ⟨s.take i, s[i], s.drop (i+1), by simp, ?_⟩
  rw [flipBit, List.modify_eq_take_cons_drop hi]
  simp

theorem bit_ne {b : UInt8} {k : Nat} (hk : k < 8) : b ^^^ (1 <<< UInt8.ofNat k) ≠ b := by
  intro h
  have hmask : ∀ k < 8, (1 : UInt8) <<< UInt8.ofNat k ≠ 0 := by decide
  exact hmask k hk (by simpa [← UInt8.xor_assoc] using congrArg (b ^^^ ·) h)

theorem flipBit_ne {s : Bytes} {i k : Nat} (hi : i < s.length) (hk : k < 8) : flipBit s i k ≠ s := by
  obtain ⟨u, b, v, hs, hf⟩ := flipBit_split (k := k) hi
  intro h
  rw [hf, hs] at h
  simp [bit_ne hk] at h

theorem crc32_flipBit_ne (a : Bytes) {w : Bytes} (z : Bytes) {i k : Nat} (hi : i < w.length)
    (hk : k < 8) : crc32 (a ++ flipBit w i k ++ z) ≠ crc32 (a ++ w ++ z) := by
  obtain ⟨u, b, v, hs, hf⟩ := flipBit_split (k := k) hi
  intro h
  rw [hf, hs] at h
  have hb : [b ^^^ (1 <<< UInt8.ofNat k)] = [b] :=
    crc32Update_burst (a ++ u) (v ++ z) rfl (by simp) (by simpa [crc32] using h)
  exact bit_ne hk (List.cons.inj hb).1

/-- The first eight bytes, one bit changed: only two of them are a magic of the decoder. -/
theorem flipBit_magicV3 : ∀ i < 8, ∀ k < 8,
    (flipBit kSnapMagicV3 i k = kSnapMagic ∧ i = 7 ∧ k = 0) ∨
    (flipBit kSnapMagicV3 i k = kSnapMagicV1 ∧ i = 7 ∧ k = 1) ∨
    (flipBit kSnapMagicV3 i k ≠ kSnapMagicV3 ∧ flipBit kSnapMagicV3 i k ≠ kSnapMagic ∧
      flipBit kSnapMagicV3 i k ≠ kSnapMagicV1) := by
  decide

section Flips
variable {i t l c p : Bytes} {j k : Nat}

/-- In a blob whose length and checksum are right every flipped bit behind the magic shows. -/
theorem decode_v3_flip (hi : i.length = 8) (ht : t.length = 8) (hl : l.length = 4)
    (hc : c.length = 4) (hlen : (LittleEndian.word32 l).toInt32.toInt = (p.length : Int))
    (hcrc : crc32 (kSnapMagicV3 ++ i ++ t ++ l ++ p) = LittleEndian.word32 c)
    (hj : 8 ≤ j) (hjs : j < 32 + p.length) (hk : k < 8) :
    decodeSnapshotBlob (flipBit (kSnapMagicV3 ++ i ++ t ++ l ++ c ++ p) j k) = .corrupt := by
  have hm : kSnapMagicV3.length = 8 := rfl
  by_cases h16 : j < 16
  · have hf : flipBit (kSnapMagicV3 ++ i ++ t ++ l ++ c ++ p) j k =
        kSnapMagicV3 ++ flipBit i (j-8) k ++ t ++ l ++ c ++ p := by
      simpa [hm] using flipBit_middle (a := kSnapMagicV3) (w := i) (z := t ++ l ++ c ++ p) (k := k)
        (by omega) (by omega)
    have hne := crc32_flipBit_ne kSnapMagicV3 (w := i) (i := j-8) (t ++ l ++ p) (by omega) hk
    rw [hf, decode_v3 (by simpa using hi) ht hl hc, checkBlob_eq, if_neg]
    rintro ⟨-, h⟩
    exact hne (by simpa [blobCrc_eq, ← hcrc] using h)
  by_cases h24 : j < 24
  · have hf : flipBit (kSnapMagicV3 ++ i ++ t ++ l ++ c ++ p) j k =
        kSnapMagicV3 ++ i ++ flipBit t (j-16) k ++ l ++ c ++ p := by
      simpa [hm, hi] using flipBit_middle (a := kSnapMagicV3 ++ i) (w := t) (z := l ++ c ++ p)
        (k := k) (by simp [hm, hi]; omega) (by simp [hm, hi]; omega)
    have hne := crc32_flipBit_ne (kSnapMagicV3 ++ i) (w := t) (i := j-16) (l ++ p) (by omega) hk
    rw [hf, decode_v3 hi (by simpa using ht) hl hc, checkBlob_eq, if_neg]
    rintro ⟨-, h⟩
    exact hne (by simpa [blobCrc_eq, ← hcrc] using h)
  by_cases h28 : j < 28
  · have hf : flipBit (kSnapMagicV3 ++ i ++ t ++ l ++ c ++ p) j k =
        kSnapMagicV3 ++ i ++ t ++ flipBit l (j-24) k ++ c ++ p := by
      simpa [hm, hi, ht] using flipBit_middle (a := kSnapMagicV3 ++ i ++ t) (w := l) (z := c ++ p)
        (k := k) (by simp [hm, hi, ht]; omega) (by simp [hm, hi, ht]; omega)
    rw [hf, decode_v3 hi ht (by simpa using hl) hc, checkBlob_eq, if_neg]
    rintro ⟨h, -⟩
    rw [← hlen, Int32.toInt_inj] at h
    have hw : LittleEndian.word32 (flipBit l (j-24) k) = LittleEndian.word32 l := by
      simpa using congrArg Int32.toUInt32 h
    exact flipBit_ne (by omega) hk (LittleEndian.word32_inj (by simpa using hl) hl hw)
  by_cases h32 : j < 32
  · have hf : flipBit (kSnapMagicV3 ++ i ++ t ++ l ++ c ++ p) j k =
        kSnapMagicV3 ++ i ++ t ++ l ++ flipBit c (j-28) k ++ p := by
      simpa [hm, hi, ht, hl] using flipBit_middle (a := kSnapMagicV3 ++ i ++ t ++ l) (w := c) (z := p)
        (k := k) (by simp [hm, hi, ht, hl]; omega) (by simp [hm, hi, ht, hl]; omega)
    rw [hf, decode_v3 hi ht hl (by simpa using hc), checkBlob_eq, if_neg]
    rintro ⟨-, h⟩
    have hw : LittleEndian.word32 (flipBit c (j-28) k) = LittleEndian.word32 c :=
      (eq_of_beq h).symm.trans ((blobCrc_eq _ p).trans hcrc)
    exact flipBit_ne (by omega) hk (LittleEndian.word32_inj (by simpa using hc) hc hw)
  · have hf : flipBit (kSnapMagicV3 ++ i ++ t ++ l ++ c ++ p) j k =
        kSnapMagicV3 ++ i ++ t ++ l ++ c ++ flipBit p (j-32) k := by
      have hlen : (kSnapMagicV3 ++ i ++ t ++ l ++ c).length = 32 := by simp [hm, hi, ht, hl, hc]
      rw [flipBit_append_right (by omega), hlen]
    have hne := crc32_flipBit_ne (kSnapMagicV3 ++ i ++ t ++ l) (w := p) (i := j-32) [] (by omega) hk
    rw [hf, decode_v3 hi ht hl hc, checkBlob_eq, if_neg]
    rintro ⟨-, h⟩
    exact hne (by simpa [blobCrc_eq, ← hcrc] using h)

end Flips

/-- The version digit 3 turned into 1: the low half of the term stands where the length was. -/
def ReadsAsV1 (term : Int64) (raw : Bytes) : Prop :=
  (lowHalf term).toInt = (raw.length : Int) + 12

/-- The version digit 3 turned into 2: the low half of the term is the length, its high half the
checksum of what then counts as header and payload. -/
def ReadsAsV2 (index term : Int64) (raw : Bytes) : Prop :=
  let size := putInt32 (Int32.ofNat raw.length)
  let crc := crc32 (kSnapMagicV3 ++ putInt64 index ++ putInt64 term ++ size ++ raw)
  (lowHalf term).toInt = (raw.length : Int) + 8 ∧
    crc32 (kSnapMagic ++ putInt64 index ++ putInt32 (lowHalf term) ++ size ++ putInt32 crc.toInt32 ++
      raw) = (highHalf term).toUInt32

def DecodedBlob.accepted : DecodedBlob → Prop
  | .decoded .. => True
  | _ => False

theorem checkBlob_accepted {len : Int32} {size : Nat} {crcOk : Bool} {index term : Int64}
    {raw : Bytes} : (checkBlob len size crcOk (.decoded index term raw)).accepted ↔
      len.toInt = (size : Int) ∧ crcOk = true := by
  rw [checkBlob_eq]
  by_cases h : len.toInt = (size : Int) ∧ crcOk = true
  · rw [if_pos h]
    exact iff_of_true trivial h
  · rw [if_neg h]
    exact iff_of_false id h

/-- Behind a changed magic the fields of the blob are read in halves. -/
theorem flip_magic (index term : Int64) (raw : Bytes) {k : Nat} :
    flipBit (encodeSnapshotBlob index term raw) 7 k =
      flipBit kSnapMagicV3 7 k ++ putInt32 (lowHalf index) ++ putInt32 (highHalf index) ++
        putInt32 (lowHalf term) ++ (putInt32 (highHalf term) ++
          (putInt32 (Int32.ofNat raw.length) ++ putInt32 (crc32 (kSnapMagicV3 ++ putInt64 index ++
            putInt64 term ++ putInt32 (Int32.ofNat raw.length) ++ raw)).toInt32 ++ raw)) := by
  rw [encodeSnapshotBlob_eq, blobCrc_eq]
  simp only [List.append_assoc]
  rw [flipBit_append_left (by decide)]
  simp only [putInt64_halves, List.append_assoc]

theorem flip_to_v1 (index term : Int64) (raw : Bytes) :
    (decodeSnapshotBlob (flipBit (encodeSnapshotBlob index term raw) 7 1)).accepted ↔
      ReadsAsV1 term raw := by
  have hm : flipBit kSnapMagicV3 7 1 = kSnapMagicV1 := by decide
  rw [flip_magic, hm, decode_v1 rfl rfl rfl, checkBlob_accepted, ReadsAsV1]
  simp
  omega

theorem flip_to_v2 (index term : Int64) (raw : Bytes) :
    (decodeSnapshotBlob (flipBit (encodeSnapshotBlob index term raw) 7 0)).accepted ↔
      ReadsAsV2 index term raw := by
  have hm : flipBit kSnapMagicV3 7 0 = kSnapMagic := by decide
  rw [flip_magic, hm, ← List.append_assoc _ (putInt32 (highHalf term)), decode_v2 rfl rfl rfl rfl,
    checkBlob_accepted, ReadsAsV2, blobCrc_eq, putInt64_halves index]
  simp
  omega

theorem flip_rejected {index term : Int64} {raw : Bytes} {j k : Nat} (hraw : raw.length < 2 ^ 31)
    (hj : j < (encodeSnapshotBlob index term raw).length) (hk : k < 8) (h1 : (j, k) ≠ (7, 1))
    (h0 : (j, k) ≠ (7, 0)) :
    ¬ (decodeSnapshotBlob (flipBit (encodeSnapshotBlob index term raw) j k)).accepted := by
  have hlen : (encodeSnapshotBlob index term raw).length = 32 + raw.length := by
    simp [encodeSnapshotBlob_eq, kSnapMagicV3]
    omega
  obtain h8 | h8 := Nat.lt_or_ge j 8
  · obtain ⟨-, rfl, rfl⟩ | ⟨-, rfl, rfl⟩ | ⟨h3, h2, hv1⟩ := flipBit_magicV3 j h8 k hk
    · exact absurd rfl h0
    · exact absurd rfl h1
    · have htake : (flipBit (encodeSnapshotBlob index term raw) j k).take 8 =
          flipBit kSnapMagicV3 j k := by
        rw [encodeSnapshotBlob_eq]
        simp only [List.append_assoc]
        rw [flipBit_append_left h8]
        exact List.take_left' (by simp [kSnapMagicV3])
      rw [decode_foreign (htake ▸ h3) (htake ▸ h2) (htake ▸ hv1)]
      exact id
  · rw [encodeSnapshotBlob_eq, decode_v3_flip rfl rfl rfl rfl _ _ h8 (hlen ▸ hj) hk]
    · exact id
    · simpa using Int32.toInt_ofNat_of_lt hraw
    · simp [blobCrc_eq]

/-- No change of one bit is taken for a blob, unless the term is such that the older layouts, whose
magic is one bit away, read a length out of it that fits. -/
theorem flips_rejected_iff (index term : Int64) (raw : Bytes) (hraw : raw.length < 2 ^ 31) :
    (∀ j < (encodeSnapshotBlob index term raw).length, ∀ k < 8,
      ¬ (decodeSnapshotBlob (flipBit (encodeSnapshotBlob index term raw) j k)).accepted) ↔
    ¬ ReadsAsV1 term raw ∧ ¬ ReadsAsV2 index term raw := by
  have h7 : 7 < (encodeSnapshotBlob index term raw).length := by
    simp [encodeSnapshotBlob_eq, kSnapMagicV3]
  constructor
  · intro h
    exact ⟨fun hv => h 7 h7 1 (by decide) ((flip_to_v1 index term raw).mpr hv),
      fun hv => h 7 h7 0 (by decide) ((flip_to_v2 index term raw).mpr hv)⟩
  · rintro ⟨hv1, hv2⟩ j hj k hk
    by_cases h1 : (j, k) = (7, 1)
    · cases h1
      exact mt (flip_to_v1 index term raw).mp hv1
    by_cases h0 : (j, k) = (7, 0)
    · cases h0
      exact mt (flip_to_v2 index term raw).mp hv2
    · exact flip_rejected hraw hj hk h1 h0

theorem flips_rejected_small :
    ¬ (decodeSnapshotBlob (flipBit (encodeSnapshotBlob 9 2 [5]) 20 3)).accepted :=
  (flips_rejected_iff 9 2 [5] (by decide)).mpr
    ⟨by rw [ReadsAsV1]; decide, fun h => absurd h.1 (by decide)⟩ 20 (by decide +kernel) 3 (by decide)

theorem version_flip_accepted :
    ¬ ∀ j < (encodeSnapshotBlob 40 14 [1, 2]).length, ∀ k < 8,
      ¬ (decodeSnapshotBlob (flipBit (encodeSnapshotBlob 40 14 [1, 2]) j k)).accepted := by
  intro h
  have hv : ReadsAsV1 14 [1, 2] := by rw [ReadsAsV1]; decide
  exact h 7 (by decide +kernel) 1 (by decide) ((flip_to_v1 40 14 [1, 2]).mpr hv)

end ChonKV
