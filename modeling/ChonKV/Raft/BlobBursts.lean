import ChonKV.Raft.SnapshotBlob

/-!
A snapshot blob with up to four bytes in a row changed, in its index and term or in its payload.
-/

set_option autoImplicit false

namespace ChonKV

open Checksum (Burst)

theorem crc32Raw_state_inj (data : Bytes) : Function.Injective fun c => crc32Raw c data :=
  fun _ _ h => Checksum.run_inj crcTable_topDistinct data h

theorem crc32Raw_word_inj {c : UInt32} {w w' : Bytes} (hw : w.length = 4) (hw' : w'.length = 4)
    (h : crc32Raw c w = crc32Raw c w') : w = w' :=
  Checksum.run_shift_inj crcTable_topDistinct (k := 0) (hw.trans hw'.symm) (by omega)
    (congrArg (fun c => c.toNat >>> 0) h)

theorem crc32Update_burst_ne {c : UInt32} {lo hi : Nat} {s s' : Bytes} (h : Burst lo hi s s') :
    crc32Update c s' ≠ crc32Update c s :=
  fun heq => h.run_ne crcTable_topDistinct (xor_mask_inj heq)

theorem getInt32_congr {s s' : Bytes} {off : Nat} (h : ∀ i < 4, s'[off+i]? = s[off+i]?) :
    getInt32 s' off = getInt32 s off := by
  have hget : ∀ i < 4, s'.getD (off+i) 0 = s.getD (off+i) 0 := by
    intro i hi
    simp [List.getD, h i hi]
  simp only [getInt32, List.foldl_cons, List.foldl_nil, hget 3 (by decide), hget 2 (by decide),
    hget 1 (by decide), hget 0 (by decide)]

/-- A blob of the written layout whose checksum was right, with other bytes under the checksum. -/
theorem decode_covered_ne {s s' : Bytes} (hm : s'.take 8 = kSnapMagicV3) (hlen : 32 ≤ s'.length)
    (hcrc : getInt32 s' 28 = (blobCrc (s.take 28) (s.drop 32)).toInt32)
    (hne : blobCrc (s'.take 28) (s'.drop 32) ≠ blobCrc (s.take 28) (s.drop 32)) :
    decodeSnapshotBlob s' = .corrupt := by
  rw [decode_of_magicV3 hm hlen, checkBlob_eq, if_neg]
  rintro ⟨-, h⟩
  exact hne (by simpa [hcrc] using h)

theorem encode_length (index term : Int64) (raw : Bytes) :
    (encodeSnapshotBlob index term raw).length = 32 + raw.length := by
  simp [encodeSnapshotBlob_eq, kSnapMagicV3]
  omega

/-- What the decoder checks, read off a blob as it was written. -/
theorem encode_reads (index term : Int64) (raw : Bytes) :
    (encodeSnapshotBlob index term raw).take 8 = kSnapMagicV3 ∧
    getInt32 (encodeSnapshotBlob index term raw) 28 =
      (blobCrc ((encodeSnapshotBlob index term raw).take 28)
        ((encodeSnapshotBlob index term raw).drop 32)).toInt32 := by
  set head := kSnapMagicV3 ++ putInt64 index ++ putInt64 term ++ putInt32 (Int32.ofNat raw.length)
    with hhead
  have hlen : head.length = 28 := by simp [hhead, kSnapMagicV3]
  have hs : encodeSnapshotBlob index term raw = head ++ putInt32 (blobCrc head raw).toInt32 ++ raw :=
    encodeSnapshotBlob_eq index term raw
  have hat := getInt32_at 28 hs hlen rfl
  have htake : (encodeSnapshotBlob index term raw).take 28 = head := by
    rw [hs, List.append_assoc]
    exact List.take_left' hlen
  have hdrop : (encodeSnapshotBlob index term raw).drop 32 = raw :=
    hs ▸ List.drop_left' (by simp [hlen])
  refine ⟨rfl, ?_⟩
  rw [hat, htake, hdrop]
  simp

section Alterations
variable {index term : Int64} {raw s : Bytes}

theorem decode_header_burst (h : Burst 8 24 (encodeSnapshotBlob index term raw) s) :
    decodeSnapshotBlob s = .corrupt := by
  obtain ⟨hm, hcrc⟩ := encode_reads index term raw
  have hlen := h.length_eq.trans (encode_length index term raw)
  refine decode_covered_ne ((h.take (Nat.le_refl 8)).trans hm) (by omega) ?_ ?_
    (s := encodeSnapshotBlob index term raw)
  · rw [← hcrc]
    exact getInt32_congr fun i _ => h.get (Or.inr (by omega))
  · rw [blobCrc, blobCrc, h.drop (by decide)]
    exact mt crc32Update_inj (crc32Update_burst_ne (h.of_take (by decide)))

theorem decode_payload_burst
    (h : Burst 32 (32 + raw.length) (encodeSnapshotBlob index term raw) s) :
    decodeSnapshotBlob s = .corrupt := by
  obtain ⟨hm, hcrc⟩ := encode_reads index term raw
  have hlen := h.length_eq.trans (encode_length index term raw)
  refine decode_covered_ne ((h.take (by decide)).trans hm) (by omega) ?_ ?_
    (s := encodeSnapshotBlob index term raw)
  · rw [← hcrc]
    exact getInt32_congr fun i hi => h.get (Or.inl (by omega))
  · rw [blobCrc, blobCrc, h.take (by decide)]
    exact crc32Update_burst_ne (h.of_drop (Nat.le_refl 32))

end Alterations

/-- The checksum composes, keeps states and words of four bytes apart, and so shows every change
of up to four bytes in a row of the index, the term or the payload. -/
theorem bursts_corrupt (index term : Int64) (raw s : Bytes) (hraw : raw.length < 2 ^ 31)
    (hs : Burst 8 24 (encodeSnapshotBlob index term raw) s ∨
      Burst 32 (32 + raw.length) (encodeSnapshotBlob index term raw) s) :
    decodeSnapshotBlob (encodeSnapshotBlob index term raw) = .decoded index term raw ∧
    decodeSnapshotBlob s = .corrupt ∧
    (∀ a b, crc32Update (crc32Update 0 a) b = crc32Update 0 (a ++ b)) ∧
    (∀ data, Function.Injective fun c => crc32Raw c data) ∧
    ∀ c w w', w.length = 4 → w'.length = 4 → crc32Raw c w = crc32Raw c w' → w = w' := by
  refine ⟨?_, ?_, fun a b => (crc32Update_append 0 a b).symm, crc32Raw_state_inj,
    fun c w w' hw hw' => crc32Raw_word_inj hw hw'⟩
  · rw [decode_encode, if_pos (Int32.toInt_ofNat_of_lt hraw)]
  · obtain hs | hs := hs
    · exact decode_header_burst hs
    · exact decode_payload_burst hs

theorem bursts_corrupt_term :
    decodeSnapshotBlob ((encodeSnapshotBlob 7 2 [1, 2]).set 16 3) = .corrupt := by
  refine (bursts_corrupt 7 2 [1, 2] _ (by decide) (Or.inl ⟨by simp, by decide +kernel, 16, ?_⟩)).2.1
  intro i hne
  by_cases hi : i = 16
  · omega
  · simp [Ne.symm hi] at hne

end ChonKV
