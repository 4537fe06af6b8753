import ChonKV.Checksum.LittleEndian
import ChonKV.Raft.LogStore

/-!
`SegmentLogStorage` down to the bytes of `raft.log.seg`: the records that are written, the file that they
are written to, and `Rebuild`, which reads them back and cuts off what it takes for a torn tail.
-/

set_option autoImplicit false

namespace ChonKV.Segment

open LittleEndian

def putU32 (v : UInt32) : Bytes := (List.range 4).map fun i => ((v >>> UInt32.ofNat (i*8)) &&& 0xff).toUInt8

def getU32 (p : Bytes) : UInt32 :=
  (List.range 4).foldl (fun v i => v ||| ((p.getD i 0).toUInt32 <<< UInt32.ofNat (i*8))) 0

/-! `DecodeEntry` does not look at what the calls of the decoder return, so it matters where a call that
fails leaves the position. -/

/-- What a call finds, and where it leaves the position. -/
abbrev Call (α : Type) := Bytes → Option α × Bytes

def varintLoop (result : UInt64) (shift : Nat) : Call UInt64
  | [] => (none, [])
  | b :: rest =>
    if 64 ≤ shift then (none, rest)
    else
      let result := result ||| ((b &&& 0x7f).toUInt64 <<< UInt64.ofNat shift)
      if b &&& 0x80 = 0 then (some result, rest) else varintLoop result (shift+7) rest

def varint : Call UInt64 := varintLoop 0 0

def zigzag : Call Int64 := fun p =>
  let (x, p) := varint p
  (x.map fun x : UInt64 => (x >>> 1).toInt64 ^^^ -(x &&& 1).toInt64, p)

def bytes : Call Bytes := fun p =>
  match varint p with
  | (none, p) => (none, p)
  | (some n, p) => if p.length < n.toNat then (none, p) else (some (p.take n.toNat), p.drop n.toNat)

def int : Call Int32 := fun p =>
  let (x, p) := zigzag p
  (x.map (·.toInt32), p)

def encodeEntry (e : LogEntry) : Bytes := e.encode

def decodeEntry (b : Bytes) : LogEntry :=
  let e : LogEntry := {}
  let (term, p) := zigzag b
  let (index, p) := zigzag p
  let (command, p) := bytes p
  let (t, p) := int p
  let (confServer, p) := int p
  let (confRole, _) := int p
  { term := (term.map (·.toInt)).getD e.term
    index := (index.map (·.toInt)).getD e.index
    command := command.getD e.command
    type := .ofInt ((t.map (·.toInt)).getD 0)
    confServer := (confServer.map (·.toInt)).getD e.confServer
    confRole := (confRole.map (·.toInt)).getD e.confRole }

def kMaxLen : UInt32 := (1 : UInt32) <<< 28

/-- What `WriteRecord` writes for an entry. -/
def record (e : LogEntry) : Bytes :=
  let rec_ := encodeEntry e
  putU32 (UInt32.ofNat rec_.length) ++ putU32 (crc32Raw 0 rec_) ++ rec_

/-! The file behind `fd_`. -/

def pread (file : Bytes) (n off : Nat) : Bytes := (file.drop off).take n

def pwrite (file buf : Bytes) (pos : Nat) : Bytes :=
  file.take pos ++ List.replicate (pos - file.length) 0 ++ buf ++ file.drop (pos + buf.length)

def ftruncate (file : Bytes) (n : Nat) : Bytes := file.take n ++ List.replicate (n - file.length) 0

/-- The members of the class, with the file and whether the process aborted. -/
structure Storage where
  entries : List LogEntry := []
  offsets : List Nat := []
  fileSize : Nat := 0
  file : Bytes := []
  aborted : Bool := false
  deriving DecidableEq

namespace Storage

def writeRecord (s : Storage) (e : LogEntry) : Storage :=
  let buf := record e
  let file := pwrite s.file buf s.fileSize
  let fileSize := s.fileSize + buf.length
  { s with file := file, fileSize := fileSize, offsets := s.offsets ++ [fileSize] }

def rewriteFile (s : Storage) : Storage :=
  s.entries.foldl writeRecord { s with file := ftruncate s.file 0, fileSize := 0, offsets := [] }

def append (s : Storage) (e : LogEntry) : Storage :=
  let s := if s.entries.isEmpty ∧ 0 < s.fileSize then s.rewriteFile else s
  if (s.entries.getLast?.map fun l => decide (e.index ≠ l.index + 1)).getD false then
    { s with aborted := true }
  else
    let s := s.writeRecord e
    { s with entries := s.entries ++ [e] }

def truncateSuffix (s : Storage) (index : Int) : Storage :=
  let keep := (s.entries.takeWhile fun e => decide (e.index ≤ index)).length
  let newSize := if 0 < keep then s.offsets.getD (keep-1) 0 else 0
  { s with
    entries := s.entries.take keep
    offsets := s.offsets.take keep
    file := ftruncate s.file newSize
    fileSize := newSize }

def dropPrefix (s : Storage) (index : Int) : Storage :=
  let drop := (s.entries.takeWhile fun e => decide (e.index ≤ index)).length
  { s with entries := s.entries.drop drop, offsets := s.offsets.drop drop }

def truncatePrefix (s : Storage) (index : Int) : Storage := (s.dropPrefix index).rewriteFile

def resetFromLogs (s : Storage) (logs : List LogEntry) : Storage :=
  if s.entries.length + 1 = logs.length ∧ s.entries.map encodeEntry = logs.tail.map encodeEntry then s
  else { s with entries := logs.tail }.rewriteFile

end Storage

/-- The loop of `Rebuild` from an offset on: what it stops at, or nothing when it aborts. A record takes
more than eight bytes, so that the fuel of a file is its length. -/
def rebuildLoop (file : Bytes) : Nat → Nat → List LogEntry → List Nat →
    Option (Nat × List LogEntry × List Nat)
  | 0, off, entries, offsets => some (off, entries, offsets)
  | fuel+1, off, entries, offsets =>
    let sz := file.length
    let hdr := pread file 8 off
    if hdr.length ≠ 8 then some (off, entries, offsets)
    else
      let len := getU32 hdr
      let crc := getU32 (hdr.drop 4)
      if len = 0 ∨ kMaxLen < len then
        if off + 8 < sz then none else some (off, entries, offsets)
      else
        let buf := pread file len.toNat (off + 8)
        if buf.length ≠ len.toNat then some (off, entries, offsets)
        else if crc32Raw 0 buf ≠ crc then
          if off + 8 + len.toNat < sz then none else some (off, entries, offsets)
        else
          let off := off + (8 + len.toNat)
          rebuildLoop file fuel off (entries ++ [decodeEntry buf]) (offsets ++ [off])

def Consecutive (l : List LogEntry) : Prop := l.IsChain fun a b => b.index = a.index + 1

instance (l : List LogEntry) : Decidable (Consecutive l) := by
  unfold Consecutive
  infer_instance

/-- `Rebuild` on the file that `Open` found. -/
def rebuild (file : Bytes) : Storage :=
  match rebuildLoop file file.length 0 [] [] with
  | none => { file := file, aborted := true }
  | some (off, entries, offsets) =>
    if Consecutive entries then
      { entries := entries
        offsets := offsets
        file := if off < file.length then ftruncate file off else file
        fileSize := off }
    else { entries := entries, offsets := offsets, file := file, aborted := true }

end ChonKV.Segment
