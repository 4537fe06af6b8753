import ChonKV.Checksum.Table
import Mathlib.Data.List.Nodup
import ChonKV.Raft.Protocol

/-!
The checksum of `raft.cpp` (CRC-32 of IEEE 802.3).
-/

set_option autoImplicit false

namespace ChonKV

/-- One of the eight rounds that build a table entry. -/
def crcRound (c : UInt32) : UInt32 := 
  if c &&& 1 = 1 then (0xEDB88320 : UInt32) ^^^ (c >>> 1) else c >>> 1

def crcTable (i : UInt32) : UInt32 :=
  crcRound (crcRound (crcRound (crcRound (crcRound (crcRound (crcRound (crcRound i)))))))

def crcByte (crc : UInt32) (b : UInt8) : UInt32 :=
  crcTable ((crc ^^^ b.toUInt32) &&& 0xff) ^^^ (crc >>> 8)

def crc32Raw (crc : UInt32) (data : Bytes) : UInt32 := data.foldl crcByte crc

def crc32Update (crc : UInt32) (data : Bytes) : UInt32 :=
  crc32Raw (crc ^^^ 0xFFFFFFFF) data ^^^ 0xFFFFFFFF

def crc32 (data : Bytes) : UInt32 := crc32Update 0 data

theorem crc32Raw_append (crc : UInt32) (a b : Bytes) :
    crc32Raw crc (a ++ b) = crc32Raw (crc32Raw crc a) b := by
  simp [crc32Raw]

theorem crc32Raw_eq_run (crc : UInt32) (data : Bytes) :
    crc32Raw crc data = Checksum.run crcTable crc data := rfl

theorem crcTable_tops :
    ((List.range 256).map fun i => (crcTable (UInt32.ofNat i)).toNat >>> 24).Nodup := by
  decide +kernel

theorem crcTable_topDistinct : Checksum.TopDistinct crcTable := by
  intro i j hi hj h
  have hinj := List.inj_on_of_nodup_map crcTable_tops
  refine UInt32.toNat_inj.mp (hinj (List.mem_range.mpr hi) (List.mem_range.mpr hj) ?_)
  simpa using h

theorem crc32Update_append (crc : UInt32) (a b : Bytes) :
    crc32Update crc (a ++ b) = crc32Update (crc32Update crc a) b := by
  simp [crc32Update, crc32Raw_append, UInt32.xor_assoc]

theorem xor_mask_inj {a b m : UInt32} (h : a ^^^ m = b ^^^ m) : a = b := by
  simpa [UInt32.xor_assoc] using congrArg (· ^^^ m) h

theorem crc32Update_inj {c c' : UInt32} {data : Bytes}
    (h : crc32Update c data = crc32Update c' data) : c = c' := by
  have hraw : crc32Raw (c ^^^ 0xFFFFFFFF) data = crc32Raw (c' ^^^ 0xFFFFFFFF) data := xor_mask_inj h
  rw [crc32Raw_eq_run, crc32Raw_eq_run] at hraw
  exact xor_mask_inj (Checksum.run_inj crcTable_topDistinct data hraw)

/-- The checksum tells a change of up to four bytes in a row. -/
theorem crc32Update_burst {c : UInt32} (a : Bytes) {w w' : Bytes} (z : Bytes)
    (hlen : w.length = w'.length) (h4 : w.length ≤ 4)
    (h : crc32Update c (a ++ w ++ z) = crc32Update c (a ++ w' ++ z)) : w = w' :=
  Checksum.run_burst crcTable_topDistinct a z hlen h4 (xor_mask_inj h)

example : crc32 [0x31, 0x32, 0x33, 0x34, 0x35, 0x36, 0x37, 0x38, 0x39] = 0xCBF43926 := by
  decide +kernel

end ChonKV
