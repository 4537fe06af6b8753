import ChonKV.Checksum.LittleEndian
import ChonKV.Raft.Node

/-!
The bytes of a snapshot blob: `EncodeSnapshotBlob`, and `DecodeSnapshotBlob` over its three layouts.
-/

set_option autoImplicit false

namespace ChonKV

/-- `RAFTSNP1`: no checksum. -/
def kSnapMagicV1 : Bytes := [0x52, 0x41, 0x46, 0x54, 0x53, 0x4e, 0x50, 0x31]

/-- `RAFTSNP2`: 32-bit header fields and a checksum. -/
def kSnapMagic : Bytes := [0x52, 0x41, 0x46, 0x54, 0x53, 0x4e, 0x50, 0x32]

/-- `RAFTSNP3`: 64-bit header fields and a checksum, the layout that is written. -/
def kSnapMagicV3 : Bytes := [0x52, 0x41, 0x46, 0x54, 0x53, 0x4e, 0x50, 0x33]

def kSnapHeaderSizeV1 : Nat := 8 + 4 + 4 + 4
def kSnapHeaderSize : Nat := kSnapHeaderSizeV1 + 4
def kSnapHeaderSizeV3 : Nat := 8 + 8 + 8 + 4 + 4

def putInt32 (v : Int32) : Bytes :=
  (List.range 4).map fun i => ((v.toUInt32 >>> UInt32.ofNat (i*8)) &&& 0xff).toUInt8

def getInt32 (s : Bytes) (off : Nat) : Int32 :=
  ([3, 2, 1, 0].foldl (fun (u : UInt32) i => (u <<< 8) ||| (s.getD (off+i) 0).toUInt32) 0).toInt32

def putInt64 (v : Int64) : Bytes :=
  (List.range 8).map fun i => ((v.toUInt64 >>> UInt64.ofNat (i*8)) &&& 0xff).toUInt8

def getInt64 (s : Bytes) (off : Nat) : Int64 :=
  ([7, 6, 5, 4, 3, 2, 1, 0].foldl
    (fun (u : UInt64) i => (u <<< 8) ||| (s.getD (off+i) 0).toUInt64) 0).toInt64

/-- What the checksum covers: the header before it, then the payload. -/
def blobCrc (header raw : Bytes) : UInt32 := crc32Update (crc32Update 0 header) raw

def encodeSnapshotBlob (index term : Int64) (raw : Bytes) : Bytes :=
  let out := kSnapMagicV3 ++ putInt64 index ++ putInt64 term ++ putInt32 (Int32.ofNat raw.length)
  out ++ putInt32 (blobCrc out raw).toInt32 ++ raw

/-- The three outcomes of `DecodeSnapshotBlob`: true, false, and false with `corrupt` set. -/
inductive DecodedBlob where
  | decoded (index term : Int64) (raw : Bytes)
  | noSnapshot
  | corrupt
  deriving DecidableEq, Repr

def decodeSnapshotBlob (blob : Bytes) : DecodedBlob :=
  if blob.length < kSnapHeaderSizeV1 then .noSnapshot
  else
    let v3 := blob.take 8 == kSnapMagicV3
    let v2 := !v3 && blob.take 8 == kSnapMagic
    let v1 := !v3 && !v2 && blob.take 8 == kSnapMagicV1
    if !v1 && !v2 && !v3 then .noSnapshot
    else
      let hdr := if v3 then kSnapHeaderSizeV3 else if v2 then kSnapHeaderSize else kSnapHeaderSizeV1
      if blob.length < hdr then .corrupt
      else
        let idx := if v3 then getInt64 blob 8 else (getInt32 blob 8).toInt64
        let t := if v3 then getInt64 blob 16 else (getInt32 blob 12).toInt64
        let len := getInt32 blob (if v3 then 24 else 16)
        if len < 0 then .corrupt
        else if blob.length ≠ hdr + len.toInt.toNat then .corrupt
        else if !v1 && blobCrc (blob.take (hdr-4)) (blob.drop hdr) != (getInt32 blob (hdr-4)).toUInt32
        then .corrupt
        else .decoded idx t (blob.drop hdr)

theorem getInt32_at (off : Nat) {a w z s : Bytes} (hs : s = a ++ w ++ z) (ha : a.length = off)
    (hw : w.length = 4) : getInt32 s off = (LittleEndian.word32 w).toInt32 := by
  subst hs ha
  match w, hw with
  | [_, _, _, _], _ => simp [getInt32, LittleEndian.word32, List.getD_eq_getElem?_getD]

theorem getInt64_at (off : Nat) {a w z s : Bytes} (hs : s = a ++ w ++ z) (ha : a.length = off)
    (hw : w.length = 8) : getInt64 s off = (LittleEndian.word64 w).toInt64 := by
  subst hs ha
  match w, hw with
  | [_, _, _, _, _, _, _, _], _ => simp [getInt64, LittleEndian.word64, List.getD_eq_getElem?_getD]

theorem putInt32_eq (v : Int32) : putInt32 v = LittleEndian.bytes32 v.toUInt32 := rfl

theorem putInt64_eq (v : Int64) : putInt64 v = LittleEndian.bytes64 v.toUInt64 := rfl

@[simp] theorem putInt32_length (v : Int32) : (putInt32 v).length = 4 := rfl
@[simp] theorem putInt64_length (v : Int64) : (putInt64 v).length = 8 := rfl

/-- The low and the high half of a 64-bit field, as the 32-bit layouts read them. -/
def lowHalf (v : Int64) : Int32 := v.toUInt64.toUInt32.toInt32
def highHalf (v : Int64) : Int32 := (v.toUInt64 >>> 32).toUInt32.toInt32

theorem putInt64_halves (v : Int64) : putInt64 v = putInt32 (lowHalf v) ++ putInt32 (highHalf v) :=
  LittleEndian.bytes64_eq v.toUInt64

/-- The end of the decoder: the length, the total size and the checksum are compared. -/
def checkBlob (len : Int32) (size : Nat) (crcOk : Bool) (out : DecodedBlob) : DecodedBlob :=
  if len < 0 then .corrupt
  else if size ≠ len.toInt.toNat then .corrupt
  else if !crcOk then .corrupt
  else out

theorem decode_of_magicV3 {s : Bytes} (hm : s.take 8 = kSnapMagicV3) (hlen : 32 ≤ s.length) :
    decodeSnapshotBlob s = checkBlob (getInt32 s 24) (s.length - 32)
      (blobCrc (s.take 28) (s.drop 32) == (getInt32 s 28).toUInt32)
      (.decoded (getInt64 s 8) (getInt64 s 16) (s.drop 32)) := by
  have hsize : ∀ n : Nat, s.length = 32 + n ↔ s.length - 32 = n := by omega
  have h20 : ¬ s.length < 20 := by omega
  have h32 : ¬ s.length < 32 := by omega
  simp [decodeSnapshotBlob, checkBlob, hm, kSnapHeaderSizeV1, kSnapHeaderSizeV3, h20, h32, hsize,
    bne]

theorem decode_of_magic {s : Bytes} (hm : s.take 8 = kSnapMagic) (hlen : 24 ≤ s.length) :
    decodeSnapshotBlob s = checkBlob (getInt32 s 16) (s.length - 24)
      (blobCrc (s.take 20) (s.drop 24) == (getInt32 s 20).toUInt32)
      (.decoded (getInt32 s 8).toInt64 (getInt32 s 12).toInt64 (s.drop 24)) := by
  have hsize : ∀ n : Nat, s.length = 24 + n ↔ s.length - 24 = n := by omega
  have h20 : ¬ s.length < 20 := by omega
  have h24 : ¬ s.length < 24 := by omega
  have h3 : (kSnapMagic == kSnapMagicV3) = false := rfl
  simp [decodeSnapshotBlob, checkBlob, hm, kSnapHeaderSizeV1, kSnapHeaderSize, h20, h24, hsize, h3,
    bne]

theorem decode_of_magicV1 {s : Bytes} (hm : s.take 8 = kSnapMagicV1) (hlen : 20 ≤ s.length) :
    decodeSnapshotBlob s = checkBlob (getInt32 s 16) (s.length - 20) true
      (.decoded (getInt32 s 8).toInt64 (getInt32 s 12).toInt64 (s.drop 20)) := by
  have hsize : ∀ n : Nat, s.length = 20 + n ↔ s.length - 20 = n := by omega
  have h20 : ¬ s.length < 20 := by omega
  have h3 : (kSnapMagicV1 == kSnapMagicV3) = false := rfl
  have h2 : (kSnapMagicV1 == kSnapMagic) = false := rfl
  simp [decodeSnapshotBlob, checkBlob, hm, kSnapHeaderSizeV1, h20, hsize, h3, h2]

theorem decode_foreign {s : Bytes} (h3 : s.take 8 ≠ kSnapMagicV3) (h2 : s.take 8 ≠ kSnapMagic)
    (h1 : s.take 8 ≠ kSnapMagicV1) : decodeSnapshotBlob s = .noSnapshot := by
  simp [decodeSnapshotBlob, h3, h2, h1]

theorem decode_short {s : Bytes} (h : s.length < kSnapHeaderSizeV1) :
    decodeSnapshotBlob s = .noSnapshot := if_pos h

section Layouts
variable {i t l c p : Bytes}

theorem decode_v3 (hi : i.length = 8) (ht : t.length = 8) (hl : l.length = 4) (hc : c.length = 4) :
    decodeSnapshotBlob (kSnapMagicV3 ++ i ++ t ++ l ++ c ++ p) =
      checkBlob (LittleEndian.word32 l).toInt32 p.length
        (blobCrc (kSnapMagicV3 ++ i ++ t ++ l) p == LittleEndian.word32 c)
        (.decoded (LittleEndian.word64 i).toInt64 (LittleEndian.word64 t).toInt64 p) := by
  have hm : kSnapMagicV3.length = 8 := rfl
  set s := kSnapMagicV3 ++ i ++ t ++ l ++ c ++ p with hs
  have hlen : s.length = 32 + p.length := by simp [hs, hm, hi, ht, hl, hc]; omega
  have hmag : s.take 8 = kSnapMagicV3 := by simp [hs, List.take_left' hm]
  have hindex := getInt64_at 8 (a := kSnapMagicV3) (z := t ++ l ++ c ++ p) (s := s) (by simp [hs]) hm hi
  have hterm := getInt64_at 16 (a := kSnapMagicV3 ++ i) (z := l ++ c ++ p) (s := s)
    (by simp [hs]) (by simp [hm, hi]) ht
  have hsize := getInt32_at 24 (a := kSnapMagicV3 ++ i ++ t) (z := c ++ p) (s := s)
    (by simp [hs]) (by simp [hm, hi, ht]) hl
  have hcrc := getInt32_at 28 (a := kSnapMagicV3 ++ i ++ t ++ l) (z := p) (s := s)
    hs (by simp [hm, hi, ht, hl]) hc
  have hhead : s.take 28 = kSnapMagicV3 ++ i ++ t ++ l := by
    rw [hs, List.append_assoc _ c p]
    exact List.take_left' (by simp [hm, hi, ht, hl])
  have hbody : s.drop 32 = p := List.drop_left' (by simp [hm, hi, ht, hl, hc])
  rw [decode_of_magicV3 hmag (by omega), hindex, hterm, hsize, hcrc, hhead, hbody, hlen]
  simp

theorem decode_v2 (hi : i.length = 4) (ht : t.length = 4) (hl : l.length = 4) (hc : c.length = 4) :
    decodeSnapshotBlob (kSnapMagic ++ i ++ t ++ l ++ c ++ p) =
      checkBlob (LittleEndian.word32 l).toInt32 p.length
        (blobCrc (kSnapMagic ++ i ++ t ++ l) p == LittleEndian.word32 c)
        (.decoded (LittleEndian.word32 i).toInt32.toInt64 (LittleEndian.word32 t).toInt32.toInt64
          p) := by
  have hm : kSnapMagic.length = 8 := rfl
  set s := kSnapMagic ++ i ++ t ++ l ++ c ++ p with hs
  have hlen : s.length = 24 + p.length := by simp [hs, hm, hi, ht, hl, hc]; omega
  have hmag : s.take 8 = kSnapMagic := by simp [hs, List.take_left' hm]
  have hindex := getInt32_at 8 (a := kSnapMagic) (z := t ++ l ++ c ++ p) (s := s) (by simp [hs]) hm hi
  have hterm := getInt32_at 12 (a := kSnapMagic ++ i) (z := l ++ c ++ p) (s := s)
    (by simp [hs]) (by simp [hm, hi]) ht
  have hsize := getInt32_at 16 (a := kSnapMagic ++ i ++ t) (z := c ++ p) (s := s)
    (by simp [hs]) (by simp [hm, hi, ht]) hl
  have hcrc := getInt32_at 20 (a := kSnapMagic ++ i ++ t ++ l) (z := p) (s := s)
    hs (by simp [hm, hi, ht, hl]) hc
  have hhead : s.take 20 = kSnapMagic ++ i ++ t ++ l := by
    rw [hs, List.append_assoc _ c p]
    exact List.take_left' (by simp [hm, hi, ht, hl])
  have hbody : s.drop 24 = p := List.drop_left' (by simp [hm, hi, ht, hl, hc])
  rw [decode_of_magic hmag (by omega), hindex, hterm, hsize, hcrc, hhead, hbody, hlen]
  simp

theorem decode_v1 (hi : i.length = 4) (ht : t.length = 4) (hl : l.length = 4) :
    decodeSnapshotBlob (kSnapMagicV1 ++ i ++ t ++ l ++ p) =
      checkBlob (LittleEndian.word32 l).toInt32 p.length true
        (.decoded (LittleEndian.word32 i).toInt32.toInt64 (LittleEndian.word32 t).toInt32.toInt64
          p) := by
  have hm : kSnapMagicV1.length = 8 := rfl
  set s := kSnapMagicV1 ++ i ++ t ++ l ++ p with hs
  have hlen : s.length = 20 + p.length := by simp [hs, hm, hi, ht, hl]; omega
  have hmag : s.take 8 = kSnapMagicV1 := by simp [hs, List.take_left' hm]
  have hindex := getInt32_at 8 (a := kSnapMagicV1) (z := t ++ l ++ p) (s := s) (by simp [hs]) hm hi
  have hterm := getInt32_at 12 (a := kSnapMagicV1 ++ i) (z := l ++ p) (s := s)
    (by simp [hs]) (by simp [hm, hi]) ht
  have hsize := getInt32_at 16 (a := kSnapMagicV1 ++ i ++ t) (z := p) (s := s)
    hs (by simp [hm, hi, ht]) hl
  have hbody : s.drop 20 = p := List.drop_left' (by simp [hm, hi, ht, hl])
  rw [decode_of_magicV1 hmag (by omega), hindex, hterm, hsize, hbody, hlen]
  simp

end Layouts

theorem checkBlob_eq (len : Int32) (size : Nat) (crcOk : Bool) (out : DecodedBlob) :
    checkBlob len size crcOk out =
      if len.toInt = (size : Int) ∧ crcOk = true then out else .corrupt := by
  have hneg : len < 0 ↔ len.toInt < 0 := Int32.lt_iff_toInt_lt
  simp only [checkBlob, hneg]
  by_cases hs : len.toInt = (size : Int)
  · have h0 : ¬ len.toInt < 0 := by omega
    have hn : size = len.toInt.toNat := by omega
    rw [if_neg h0, if_neg (not_not.mpr hn)]
    cases crcOk <;> simp [hs]
  · have hr : ¬ (len.toInt = (size : Int) ∧ crcOk = true) := fun h => hs h.1
    rw [if_neg hr]
    by_cases h0 : len.toInt < 0
    · rw [if_pos h0]
    · have hn : size ≠ len.toInt.toNat := by omega
      rw [if_neg h0, if_pos hn]

theorem blobCrc_eq (header raw : Bytes) : blobCrc header raw = crc32 (header ++ raw) :=
  (crc32Update_append 0 header raw).symm

theorem encodeSnapshotBlob_eq (index term : Int64) (raw : Bytes) :
    encodeSnapshotBlob index term raw =
      kSnapMagicV3 ++ putInt64 index ++ putInt64 term ++ putInt32 (Int32.ofNat raw.length) ++
        putInt32 (blobCrc (kSnapMagicV3 ++ putInt64 index ++ putInt64 term ++
          putInt32 (Int32.ofNat raw.length)) raw).toInt32 ++ raw := rfl

@[simp] theorem word32_putInt32 (v : Int32) : LittleEndian.word32 (putInt32 v) = v.toUInt32 := by
  rw [putInt32_eq, LittleEndian.word32_bytes32]

@[simp] theorem word64_putInt64 (v : Int64) : LittleEndian.word64 (putInt64 v) = v.toUInt64 := by
  rw [putInt64_eq, LittleEndian.word64_bytes64]

theorem decode_encode (index term : Int64) (raw : Bytes) :
    decodeSnapshotBlob (encodeSnapshotBlob index term raw) =
      if (Int32.ofNat raw.length).toInt = (raw.length : Int) then .decoded index term raw
      else .corrupt := by
  rw [encodeSnapshotBlob_eq, decode_v3 rfl rfl rfl rfl, checkBlob_eq]
  simp

theorem decode_encode_max (index term : Int64) {raw : Bytes} (h : raw.length = kMaxRecvSnapBuf) :
    decodeSnapshotBlob (encodeSnapshotBlob index term raw) = .corrupt := by
  have hneg : (Int32.ofNat kMaxRecvSnapBuf).toInt = -2 ^ 31 := rfl
  have hmax : kMaxRecvSnapBuf = 2 ^ 31 := rfl
  rw [decode_encode, h, hneg, hmax]
  exact if_neg (by decide)

/-- The blob of every payload that the receiver takes is read back, all but one of the largest
size: its length does not fit the length field. -/
theorem decode_encode_iff (index term : Int64) (raw : Bytes) (h : raw.length ≤ kMaxRecvSnapBuf) :
    decodeSnapshotBlob (encodeSnapshotBlob index term raw) = .decoded index term raw ↔
      raw.length < kMaxRecvSnapBuf := by
  obtain hlt | heq := Nat.lt_or_eq_of_le h
  · rw [decode_encode, if_pos (Int32.toInt_ofNat_of_lt hlt)]
    exact iff_of_true rfl hlt
  · rw [decode_encode_max index term heq, heq]
    exact iff_of_false DecodedBlob.noConfusion (Nat.lt_irrefl _)

theorem decode_encode_iff_short :
    decodeSnapshotBlob (encodeSnapshotBlob 7 (-3) [1, 2]) = .decoded 7 (-3) [1, 2] ↔
      [1, 2].length < kMaxRecvSnapBuf :=
  decode_encode_iff 7 (-3) [1, 2] (by decide)

theorem largest_payload_corrupt :
    decodeSnapshotBlob (encodeSnapshotBlob 0 0 (List.replicate kMaxRecvSnapBuf 0)) ≠
      .decoded 0 0 (List.replicate kMaxRecvSnapBuf 0) := by
  rw [decode_encode_max 0 0 List.length_replicate]
  exact DecodedBlob.noConfusion

end ChonKV
