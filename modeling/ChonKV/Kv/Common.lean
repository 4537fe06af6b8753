import ChonKV.Labrpc.Codec
import ChonKV.Raft.Protocol

/-!
The messages of `kvraft/common.h`. Client ids and sequence numbers have the widths of the source.
-/

set_option autoImplicit false

namespace ChonKV

open Framing

inductive Err where
  | kOK
  | kNoKey
  | kWrongLeader
  | kTimeout
  | kBusy
  | kSessionGone
  /-- The cast of an integer that names no error. -/
  | other (v : Int32) (h : v < 0 ∨ 5 < v)
  deriving DecidableEq

def Err.toInt32 : Err → Int32
  | .kOK => 0
  | .kNoKey => 1
  | .kWrongLeader => 2
  | .kTimeout => 3
  | .kBusy => 4
  | .kSessionGone => 5
  | .other v _ => v

def Err.ofInt32 (v : Int32) : Err :=
  if h : v < 0 ∨ 5 < v then .other v h
  else if v = 0 then .kOK else if v = 1 then .kNoKey else if v = 2 then .kWrongLeader
  else if v = 3 then .kTimeout else if v = 4 then .kBusy else .kSessionGone

@[simp] theorem Err.ofInt32_toInt32 (e : Err) : Err.ofInt32 e.toInt32 = e := by
  cases e with
  | other v h => exact dif_pos h
  | _ => rfl

/-- The command that goes into the log. `method` is `Put`, `Append` or `Get`. -/
structure Op where
  key : Bytes := []
  value : Bytes := []
  method : Bytes := []
  clientId : Int32 := 0
  seqId : Int64 := 0
  deriving DecidableEq

structure GetArgs where
  key : Bytes := []
  clientId : Int32 := 0
  seqId : Int64 := 0
  deriving DecidableEq

structure GetReply where
  err : Err := .kOK
  value : Bytes := []
  leaderId : Int32 := -1
  deriving DecidableEq

structure PutAppendArgs where
  key : Bytes := []
  value : Bytes := []
  op : Bytes := []
  clientId : Int32 := 0
  seqId : Int64 := 0
  deriving DecidableEq

structure PutAppendReply where
  err : Err := .kOK
  leaderId : Int32 := -1
  deriving DecidableEq

namespace Op

def serialize (o : Op) : Bytes :=
  [Encoder.bytes o.key, Encoder.bytes o.value, Encoder.bytes o.method, Encoder.int o.clientId,
    Encoder.zigzag o.seqId].flatten

def read : Reader UInt8 Op := do
  let key ← Decoder.bytes
  let value ← Decoder.bytes
  let method ← Decoder.bytes
  let clientId ← Decoder.int
  let seqId ← Decoder.zigzag
  pure ⟨key, value, method, clientId, seqId⟩

def deserialize : Bytes → Option Op := readAll read

structure Fits (o : Op) : Prop where
  key : o.key.length < 2^64
  value : o.value.length < 2^64
  method : o.method.length < 2^64

theorem frames {o : Op} (h : o.Fits) : Frames o.serialize read o :=
  (frames_bytes h.key).next <| (frames_bytes h.value).next <| (frames_bytes h.method).next <|
    (frames_int o.clientId).next <| (frames_zigzag o.seqId).last rfl

end Op

namespace GetArgs

def serialize (a : GetArgs) : Bytes :=
  [Encoder.bytes a.key, Encoder.int a.clientId, Encoder.zigzag a.seqId].flatten

def read : Reader UInt8 GetArgs := do
  let key ← Decoder.bytes
  let clientId ← Decoder.int
  let seqId ← Decoder.zigzag
  pure ⟨key, clientId, seqId⟩

def deserialize : Bytes → Option GetArgs := readAll read

structure Fits (a : GetArgs) : Prop where
  key : a.key.length < 2^64

theorem frames {a : GetArgs} (h : a.Fits) : Frames a.serialize read a :=
  (frames_bytes h.key).next <| (frames_int a.clientId).next <| (frames_zigzag a.seqId).last rfl

end GetArgs

namespace GetReply

def serialize (r : GetReply) : Bytes :=
  [Encoder.int r.err.toInt32, Encoder.int r.leaderId, Encoder.bytes r.value].flatten

def read : Reader UInt8 GetReply := do
  let e ← Decoder.int
  let leaderId ← Decoder.int
  let value ← Decoder.bytes
  pure ⟨.ofInt32 e, value, leaderId⟩

def deserialize : Bytes → Option GetReply := readAll read

structure Fits (r : GetReply) : Prop where
  value : r.value.length < 2^64

theorem frames {r : GetReply} (h : r.Fits) : Frames r.serialize read r :=
  (frames_int r.err.toInt32).next <| (frames_int r.leaderId).next <|
    (frames_bytes h.value).last <| by rw [Err.ofInt32_toInt32]

end GetReply

namespace PutAppendArgs

def serialize (a : PutAppendArgs) : Bytes :=
  [Encoder.bytes a.key, Encoder.bytes a.value, Encoder.bytes a.op, Encoder.int a.clientId,
    Encoder.zigzag a.seqId].flatten

def read : Reader UInt8 PutAppendArgs := do
  let key ← Decoder.bytes
  let value ← Decoder.bytes
  let op ← Decoder.bytes
  let clientId ← Decoder.int
  let seqId ← Decoder.zigzag
  pure ⟨key, value, op, clientId, seqId⟩

def deserialize : Bytes → Option PutAppendArgs := readAll read

structure Fits (a : PutAppendArgs) : Prop where
  key : a.key.length < 2^64
  value : a.value.length < 2^64
  op : a.op.length < 2^64

theorem frames {a : PutAppendArgs} (h : a.Fits) : Frames a.serialize read a :=
  (frames_bytes h.key).next <| (frames_bytes h.value).next <| (frames_bytes h.op).next <|
    (frames_int a.clientId).next <| (frames_zigzag a.seqId).last rfl

end PutAppendArgs

namespace PutAppendReply

def serialize (r : PutAppendReply) : Bytes :=
  [Encoder.int r.err.toInt32, Encoder.int r.leaderId].flatten

def read : Reader UInt8 PutAppendReply := do
  let e ← Decoder.int
  let leaderId ← Decoder.int
  pure ⟨.ofInt32 e, leaderId⟩

def deserialize : Bytes → Option PutAppendReply := readAll read

theorem frames (r : PutAppendReply) : Frames r.serialize read r :=
  (frames_int r.err.toInt32).next <| (frames_int r.leaderId).last <| by rw [Err.ofInt32_toInt32]

end PutAppendReply
end ChonKV
