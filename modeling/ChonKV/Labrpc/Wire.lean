import ChonKV.Checksum.LittleEndian
import ChonKV.Labrpc.Feeding
import ChonKV.Raft.Protocol

/-!
The frames of `epoll/wire.h`, with its `FrameReader` that cuts them out of what has arrived, and the
blocking side of `socket_transport.cpp` that reads them off a connection. A connection is the list of
the bytes that come in until the peer closes it.
-/

set_option autoImplicit false

namespace ChonKV.Wire

open LittleEndian

def kLenHeader : Nat := 4
def kMinRequestBody : Nat := 16
def kMinReplyBody : Nat := 13

def putU8 (b : Bytes) (v : UInt8) : Bytes := b ++ [v]

def putU32 (b : Bytes) (v : UInt32) : Bytes :=
  b ++ [byte32 v 24, byte32 v 16, byte32 v 8, byte32 v 0]

/-- `tmp` is filled from its end. -/
def putU64Loop : Nat → UInt64 → Bytes → Bytes
  | 0, _, tmp => tmp
  | i+1, v, tmp => putU64Loop i (v >>> 8) ((v &&& 0xff).toUInt8 :: tmp)

def putU64 (b : Bytes) (v : UInt64) : Bytes := b ++ putU64Loop 8 v []

def getU8 : Framing.Reader UInt8 UInt8
  | v :: p => some (v, p)
  | [] => none

def getU32 : Framing.Reader UInt8 UInt32
  | b0 :: b1 :: b2 :: b3 :: p =>
    some ((b0.toUInt32 <<< 24) ||| (b1.toUInt32 <<< 16) ||| (b2.toUInt32 <<< 8) ||| b3.toUInt32, p)
  | _ => none

def getU64 : Framing.Reader UInt8 UInt64 := fun p =>
  if p.length < 8 then none
  else some ((p.take 8).foldl (fun v b => (v <<< 8) ||| b.toUInt64) 0, p.drop 8)

/-- `assign` of `n` bytes at the cursor, after the test that they are there. -/
def assign (n : Nat) : Framing.Reader UInt8 Bytes := fun p =>
  if p.length < n then none else some (p.take n, p.drop n)

structure Request where
  corr : UInt64
  svc : Bytes
  args : Bytes
  deriving DecidableEq

structure Reply where
  corr : UInt64
  ok : Bool
  reply : Bytes
  deriving DecidableEq

/-- The payload behind its length. -/
def frameOf (payload : Bytes) : Bytes := putU32 [] (UInt32.ofNat payload.length) ++ payload

def requestPayload (f : Request) : Bytes :=
  let payload := putU64 [] f.corr
  let payload := putU32 payload (UInt32.ofNat f.svc.length)
  let payload := payload ++ f.svc
  let payload := putU32 payload (UInt32.ofNat f.args.length)
  payload ++ f.args

def encodeRequestFrame (f : Request) : Bytes := frameOf (requestPayload f)

def replyPayload (f : Reply) : Bytes :=
  let payload := putU64 [] f.corr
  let payload := putU8 payload (if f.ok then 1 else 0)
  let payload := putU32 payload (UInt32.ofNat f.reply.length)
  payload ++ f.reply

def encodeReplyFrame (f : Reply) : Bytes := frameOf (replyPayload f)

/-- The fields of a request behind the length of the frame, as both backends read them. -/
def requestFields : Framing.Reader UInt8 Request := do
  let corr ← getU64
  let svcLen ← getU32
  let svc ← assign svcLen.toNat
  let argsLen ← getU32
  let args ← assign argsLen.toNat
  pure ⟨corr, svc, args⟩

def replyFields : Framing.Reader UInt8 Reply := do
  let corr ← getU64
  let okByte ← getU8
  let replyLen ← getU32
  let reply ← assign replyLen.toNat
  pure ⟨corr, decide (okByte ≠ 0), reply⟩

def decodeRequest (body : Bytes) : Option Request :=
  if body.length < kMinRequestBody then none else (requestFields body).map (·.1)

def decodeReply (body : Bytes) : Option Reply :=
  if body.length < kMinReplyBody then none else (replyFields body).map (·.1)

structure FrameReader where
  buf : Bytes := []
  off : Nat := 0
  maxBody : Nat
  broken : Bool := false
  deriving DecidableEq

namespace FrameReader

def append (r : FrameReader) (data : Bytes) : FrameReader :=
  if 0 < data.length then { r with buf := r.buf ++ data } else r

def compactIfNeeded (r : FrameReader) : FrameReader :=
  if r.off < 64*1024 then r
  else if r.off*2 < r.buf.length then r
  else { r with buf := r.buf.drop r.off, off := 0 }

def next (r : FrameReader) : Option Bytes × FrameReader :=
  let avail := r.buf.length - r.off
  if avail < kLenHeader then (none, r)
  else
    match getU32 ((r.buf.drop r.off).take kLenHeader) with
    | none => (none, r)
    | some (len, _) =>
      let cap := r.maxBody
      if 0 < cap ∧ cap < len.toNat then (none, { r with broken := true })
      else if avail < kLenHeader + len.toNat then (none, r)
      else
        let body := (r.buf.drop (r.off + kLenHeader)).take len.toNat
        (some body, { r with off := r.off + (kLenHeader + len.toNat) }.compactIfNeeded)

/-- One call, with the bodies that were cut so far. -/
def call (p : FrameReader × List Bytes) : Framing.Feed UInt8 → FrameReader × List Bytes
  | .append data => (p.1.append data, p.2)
  | .next =>
    match p.1.next with
    | (some body, r) => (r, p.2 ++ [body])
    | (none, r) => (r, p.2)

def run (cap : Nat) (calls : List (Framing.Feed UInt8)) : FrameReader × List Bytes :=
  calls.foldl call ({ maxBody := cap }, [])

end FrameReader

/-- `RecvAll` of `n` bytes: the peer may close before they have come. -/
def recvAll (n : Nat) : Framing.Reader UInt8 Bytes := fun fd =>
  if fd.length < n then none else some (fd.take n, fd.drop n)

/-- The length and the buffer that it announces. -/
def recvBody (maxLen : Nat) : Framing.Reader UInt8 Bytes := do
  let lenbuf ← recvAll 4
  match getU32 lenbuf with
  | none => failure
  | some (len, _) => if 0 < maxLen ∧ maxLen < len.toNat then failure else recvAll len.toNat

def recvRequestFrame (maxLen : Nat) : Framing.Reader UInt8 Request := do
  let buf ← recvBody maxLen
  match requestFields buf with
  | some (f, _) => pure f
  | none => failure

def recvReplyFrame (maxLen : Nat) : Framing.Reader UInt8 Reply := do
  let buf ← recvBody maxLen
  match replyFields buf with
  | some (f, _) => pure f
  | none => failure

end ChonKV.Wire
