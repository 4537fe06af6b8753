import ChonKV.Labrpc.Wire

/-!
The two backends agree on the frames of every stream, however it is cut into reads: both take the same
bodies off it, and both decode them alike.
-/

set_option autoImplicit false

namespace ChonKV.Wire

open LittleEndian Framing

section Fields
variable {s p q rest : Bytes} {n : Nat}

theorem putU32_eq (b : Bytes) (v : UInt32) : putU32 b v = b ++ (bytes32 v).reverse := rfl

theorem toNat_lowByte (v : UInt64) : (v &&& 0xff).toUInt8 = UInt8.ofNat v.toNat := by
  apply UInt8.toNat_inj.mp
  have hand : v.toNat % 256 &&& 255 = v.toNat % 256 % 256 := Nat.and_two_pow_sub_one_eq_mod _ 8
  simp [hand]

theorem putU64Loop_eq (n : Nat) (v : UInt64) (tmp : Bytes) : putU64Loop n v tmp =
    ((List.range n).map fun i => UInt8.ofNat (v.toNat / 256 ^ i)).reverse ++ tmp := by
  induction n generalizing v tmp with
  | zero => rfl
  | succ n ih =>
    have hshift : (v >>> 8).toNat = v.toNat / 256 := by
      simp [Nat.shiftRight_eq_div_pow]
    rw [putU64Loop, ih, toNat_lowByte, hshift, List.range_succ_eq_map]
    simp [Nat.div_div_eq_div_mul, Nat.pow_succ', Function.comp_def]

theorem bytes64_toNat (v : UInt64) :
    bytes64 v = (List.range 8).map fun i => UInt8.ofNat (v.toNat / 256 ^ i) := by
  refine List.map_congr_left fun i hi => ?_
  have hlt : i*8 < 64 := by
    have h := List.mem_range.mp hi
    omega
  apply UInt8.toNat_inj.mp
  rw [byte64_toNat v hlt, Nat.mul_comm, Nat.pow_mul]
  simp

theorem putU64_eq (b : Bytes) (v : UInt64) : putU64 b v = b ++ (bytes64 v).reverse := by
  rw [putU64, putU64Loop_eq, ← bytes64_toNat, List.append_nil]

theorem getU32_eq (b0 b1 b2 b3 : UInt8) (p : Bytes) :
    getU32 (b0 :: b1 :: b2 :: b3 :: p) = some (word32 [b3, b2, b1, b0], p) := by
  have hword : (b0.toUInt32 <<< 24) ||| (b1.toUInt32 <<< 16) ||| (b2.toUInt32 <<< 8) ||| b3.toUInt32 =
      word32 [b3, b2, b1, b0] := by
    apply UInt32.eq_of_toBitVec_eq
    simp only [word32, List.foldr, UInt32.toBitVec_or, UInt32.toBitVec_shiftLeft]
    simp
    grind
  rw [getU32, hword]

/-- A reader of `n` bytes and no fewer. -/
theorem length_lt_of_cut {w : Bytes} (hp : p <+: w) (hne : p ≠ w) : p.length < w.length :=
  lt_of_le_of_ne hp.length_le fun h => hne (hp.eq_of_length h)

theorem getU32_short (h : p.length < 4) : getU32 p = none := by
  obtain _ | ⟨_, _ | ⟨_, _ | ⟨_, _ | ⟨_, p⟩⟩⟩⟩ := p
  · rfl
  · rfl
  · rfl
  · rfl
  · simp only [List.length_cons] at h
    omega

theorem getU32_frames (v : UInt32) : Frames (bytes32 v).reverse getU32 v where
  reads rest := by
    have hv : word32 [byte32 v 0, byte32 v 8, byte32 v 16, byte32 v 24] = v := word32_bytes32 v
    have hget := getU32_eq (byte32 v 24) (byte32 v 16) (byte32 v 8) (byte32 v 0) rest
    rwa [hv] at hget
  cut p hp hne := getU32_short (length_lt_of_cut hp hne)

theorem getU64_frames (v : UInt64) : Frames (bytes64 v).reverse getU64 v where
  reads rest := by
    have hlen : ((bytes64 v).reverse ++ rest).length = 8 + rest.length := by simp
    have htake : ((bytes64 v).reverse ++ rest).take 8 = (bytes64 v).reverse := List.take_left' rfl
    have hdrop : ((bytes64 v).reverse ++ rest).drop 8 = rest := List.drop_left' rfl
    have hword := word64_bytes64 v
    rw [word64, ← List.foldl_reverse] at hword
    rw [getU64, if_neg (by omega), htake, hdrop, hword]
  cut p hp hne := by
    have hlt := length_lt_of_cut hp hne
    rw [List.length_reverse, bytes64_length] at hlt
    simp [getU64, hlt]

theorem getU8_frames (v : UInt8) : Frames [v] getU8 v where
  reads _ := rfl
  cut p hp hne := by
    have hlt := length_lt_of_cut hp hne
    rw [List.length_singleton, Nat.lt_one_iff, List.length_eq_zero_iff] at hlt
    rw [hlt]
    rfl

theorem assign_frames (w : Bytes) (hn : n = w.length) : Frames w (assign n) w where
  reads rest := by
    subst hn
    simp [assign]
  cut p hp hne := by
    have hlt := length_lt_of_cut hp hne
    simp [assign, hn, hlt]

theorem toNat_ofNat (hn : n < 2 ^ 32) : (UInt32.ofNat n).toNat = n := by
  simp only [UInt32.toNat_ofNat']
  omega

theorem requestFields_frames (f : Request) (hs : f.svc.length < 2 ^ 32) (ha : f.args.length < 2 ^ 32) :
    Frames (requestPayload f) requestFields f := by
  have hfields : Frames [(bytes64 f.corr).reverse, (bytes32 (UInt32.ofNat f.svc.length)).reverse, f.svc,
      (bytes32 (UInt32.ofNat f.args.length)).reverse, f.args].flatten requestFields f :=
    (getU64_frames _).next <| (getU32_frames _).next <|
      (assign_frames f.svc (toNat_ofNat hs)).next <| (getU32_frames _).next <|
        (assign_frames f.args (toNat_ofNat ha)).last rfl
  have hpayload : requestPayload f = [(bytes64 f.corr).reverse,
      (bytes32 (UInt32.ofNat f.svc.length)).reverse, f.svc,
      (bytes32 (UInt32.ofNat f.args.length)).reverse, f.args].flatten := by
    simp [requestPayload, putU32_eq, putU64_eq]
  rwa [hpayload]

theorem replyFields_frames (f : Reply) (hr : f.reply.length < 2 ^ 32) :
    Frames (replyPayload f) replyFields f := by
  have hok : decide ((if f.ok then 1 else 0 : UInt8) ≠ 0) = f.ok := by
    cases f.ok <;> rfl
  have hfields : Frames [(bytes64 f.corr).reverse, [if f.ok then 1 else 0],
      (bytes32 (UInt32.ofNat f.reply.length)).reverse, f.reply].flatten replyFields f :=
    (getU64_frames _).next <| (getU8_frames _).next <| (getU32_frames _).next <|
      (assign_frames f.reply (toNat_ofNat hr)).last (by rw [hok])
  have hpayload : replyPayload f = [(bytes64 f.corr).reverse, [if f.ok then 1 else 0],
      (bytes32 (UInt32.ofNat f.reply.length)).reverse, f.reply].flatten := by
    simp [replyPayload, putU8, putU32_eq, putU64_eq]
  rwa [hpayload]

/-! What a field takes off. -/

theorem getU8_length {v : UInt8} (h : getU8 p = some (v, q)) : p.length = q.length + 1 := by
  cases p with
  | nil => cases h
  | cons b p =>
    cases h
    rfl

theorem getU32_length {v : UInt32} (h : getU32 p = some (v, q)) : p.length = q.length + 4 := by
  obtain _ | ⟨b0, _ | ⟨b1, _ | ⟨b2, _ | ⟨b3, p⟩⟩⟩⟩ := p <;> cases h
  rfl

theorem getU64_length {v : UInt64} (h : getU64 p = some (v, q)) : p.length = q.length + 8 := by
  unfold getU64 at h
  split_ifs at h with hlen
  cases h
  rw [List.length_drop]
  omega

theorem requestFields_length {f : Request} (h : requestFields p = some (f, q)) :
    kMinRequestBody ≤ p.length := by
  obtain ⟨corr, p1, h1, h⟩ := bind_eq_some h
  obtain ⟨svcLen, p2, h2, h⟩ := bind_eq_some h
  obtain ⟨svc, p3, h3, h⟩ := bind_eq_some h
  obtain ⟨argsLen, p4, h4, -⟩ := bind_eq_some h
  have hsvc : p3.length ≤ p2.length := by
    unfold assign at h3
    split_ifs at h3
    cases h3
    simp
  have hcorr := getU64_length h1
  have hslen := getU32_length h2
  have halen := getU32_length h4
  rw [kMinRequestBody]
  omega

theorem replyFields_length {f : Reply} (h : replyFields p = some (f, q)) :
    kMinReplyBody ≤ p.length := by
  obtain ⟨corr, p1, h1, h⟩ := bind_eq_some h
  obtain ⟨okByte, p2, h2, h⟩ := bind_eq_some h
  obtain ⟨replyLen, p3, h3, -⟩ := bind_eq_some h
  have hcorr := getU64_length h1
  have hok := getU8_length h2
  have hrlen := getU32_length h3
  rw [kMinReplyBody]
  omega

end Fields

section Stream
variable {cap : Nat} {s t body rest : Bytes} {r : FrameReader}

/-- The length that a stream starts with. -/
def header (s : Bytes) : Nat := ((getU32 (s.take 4)).map (·.1.toNat)).getD 0

theorem getU32_header (h : 4 ≤ s.length) :
    ∃ len : UInt32, getU32 (s.take 4) = some (len, []) ∧ header s = len.toNat := by
  obtain _ | ⟨b0, _ | ⟨b1, _ | ⟨b2, _ | ⟨b3, s⟩⟩⟩⟩ := s
  · simp at h
  · simp at h
  · simp at h
  · simp at h
  · have hget := getU32_eq b0 b1 b2 b3 []
    exact ⟨_, hget, by simp [header, hget]⟩

/-- A whole frame stands at the front of the stream, and its length is let through. -/
def Ready (cap : Nat) (s : Bytes) : Prop :=
  4 ≤ s.length ∧ ¬ (0 < cap ∧ cap < header s) ∧ 4 + header s ≤ s.length

instance (cap : Nat) (s : Bytes) : Decidable (Ready cap s) := by
  unfold Ready
  infer_instance

theorem recvBody_eq (cap : Nat) (s : Bytes) : recvBody cap s =
    if Ready cap s then some ((s.drop 4).take (header s), s.drop (4 + header s)) else none := by
  by_cases h4 : s.length < 4
  · have hnot : ¬ Ready cap s := fun h => by
      have := h.1
      omega
    have hrecv : recvAll 4 s = none := by simp [recvAll, h4]
    rw [if_neg hnot]
    exact bind_eq_none hrecv _
  · obtain ⟨len, hget, hlen⟩ := getU32_header (Nat.le_of_not_lt h4)
    have hrecv : recvAll 4 s = some (s.take 4, s.drop 4) := by simp [recvAll, h4]
    change (recvAll 4 s).bind _ = _
    rw [hrecv, Option.bind_some]
    simp only [hget]
    rw [← hlen]
    by_cases hcap : 0 < cap ∧ cap < header s
    · rw [if_pos hcap, if_neg fun h => h.2.1 hcap]
      rfl
    · rw [if_neg hcap, recvAll, List.length_drop, List.drop_drop]
      by_cases hfull : s.length - 4 < header s
      · rw [if_pos hfull, if_neg]
        rintro ⟨-, -, h⟩
        omega
      · rw [if_neg hfull, if_pos ⟨Nat.le_of_not_lt h4, hcap, by omega⟩]

theorem header_append (h : 4 ≤ s.length) : header (s ++ t) = header s := by
  rw [header, List.take_append_of_le_length h, ← header]

theorem Ready.append (h : Ready cap s) : Ready cap (s ++ t) := by
  obtain ⟨h4, hcap, hfull⟩ := h
  rw [Ready, header_append h4, List.length_append]
  exact ⟨by omega, hcap, by omega⟩

theorem recvBody_stable (cap : Nat) : Stable (recvBody cap) := by
  intro s t body rest h
  rw [recvBody_eq] at h ⊢
  split_ifs at h with hr
  cases h
  rw [if_pos hr.append, header_append hr.1]
  obtain ⟨h4, -, hfull⟩ := hr
  rw [List.drop_append_of_le_length h4, List.drop_append_of_le_length hfull,
    List.take_append_of_le_length (by rw [List.length_drop]; omega)]

theorem recvBody_consumes (cap : Nat) : Consumes (recvBody cap) := by
  intro s body rest h
  rw [recvBody_eq] at h
  split_ifs at h with hr
  cases h
  have h4 := hr.1
  rw [List.length_drop]
  omega

/-- The blocking side reads a body and decodes it as the other side does. -/
theorem recvRequestFrame_eq (cap : Nat) :
    recvRequestFrame cap = andDecode (recvBody cap) decodeRequest := by
  funext s
  change (recvBody cap s).bind _ = _
  rw [andDecode]
  congr 1
  funext p
  obtain ⟨body, rest⟩ := p
  rw [decodeRequest]
  cases hf : requestFields body with
  | none =>
    simp only [hf]
    rw [Option.map_none, ite_self]
    rfl
  | some q =>
    simp only [hf]
    rw [if_neg (Nat.not_lt.mpr (requestFields_length hf))]
    rfl

theorem recvReplyFrame_eq (cap : Nat) :
    recvReplyFrame cap = andDecode (recvBody cap) decodeReply := by
  funext s
  change (recvBody cap s).bind _ = _
  rw [andDecode]
  congr 1
  funext p
  obtain ⟨body, rest⟩ := p
  rw [decodeReply]
  cases hf : replyFields body with
  | none =>
    simp only [hf]
    rw [Option.map_none, ite_self]
    rfl
  | some q =>
    simp only [hf]
    rw [if_neg (Nat.not_lt.mpr (replyFields_length hf))]
    rfl

/-- What has arrived and was not cut yet. -/
def FrameReader.view (r : FrameReader) : Bytes := r.buf.drop r.off

/-- The reader holds the buffer of the stream that it was fed. -/
structure Holds (cap : Nat) (p : FrameReader × List Bytes) (q : Bytes × List Bytes) : Prop where
  cap : p.1.maxBody = cap
  off : p.1.off ≤ p.1.buf.length
  view : p.1.view = q.1
  bodies : p.2 = q.2

theorem compact_view (hoff : r.off ≤ r.buf.length) : r.compactIfNeeded.view = r.view ∧
    r.compactIfNeeded.off ≤ r.compactIfNeeded.buf.length ∧ r.compactIfNeeded.maxBody = r.maxBody := by
  unfold FrameReader.compactIfNeeded
  split_ifs
  · exact ⟨rfl, hoff, rfl⟩
  · exact ⟨rfl, hoff, rfl⟩
  · exact ⟨rfl, Nat.zero_le _, rfl⟩

/-- `Next` cuts off what the blocking side would read, or leaves what there is. -/
theorem next_spec (hoff : r.off ≤ r.buf.length) :
    (∃ body rest r', recvBody r.maxBody r.view = some (body, rest) ∧ r.next = (some body, r') ∧
      r'.view = rest ∧ r'.off ≤ r'.buf.length ∧ r'.maxBody = r.maxBody) ∨
    ∃ r', recvBody r.maxBody r.view = none ∧ r.next = (none, r') ∧
      r'.view = r.view ∧ r'.off ≤ r'.buf.length ∧ r'.maxBody = r.maxBody := by
  have hlen : r.view.length = r.buf.length - r.off := List.length_drop
  rw [recvBody_eq]
  by_cases h4 : r.buf.length - r.off < 4
  · refine Or.inr ⟨r, if_neg fun h => ?_, by simp [FrameReader.next, kLenHeader, h4], rfl, hoff, rfl⟩
    have := h.1
    omega
  · obtain ⟨len, hget, hheader⟩ := getU32_header (s := r.view) (by omega)
    rw [FrameReader.view] at hget
    by_cases hcap : 0 < r.maxBody ∧ r.maxBody < len.toNat
    · refine Or.inr ⟨{ r with broken := true }, if_neg fun h => h.2.1 (hheader ▸ hcap), ?_, rfl, hoff,
        rfl⟩
      simp only [FrameReader.next, kLenHeader, h4, if_false, hget, hcap, if_true, and_self]
    · by_cases hfull : r.buf.length - r.off < 4 + len.toNat
      · refine Or.inr ⟨r, if_neg fun h => ?_, ?_, rfl, hoff, rfl⟩
        · have := h.2.2
          omega
        · simp only [FrameReader.next, kLenHeader, h4, if_false, hget, hcap, hfull, if_true]
      · have hready : Ready r.maxBody r.view :=
          ⟨by omega, by rwa [hheader], by rw [hheader, hlen]; omega⟩
        have hoff' : r.off + (kLenHeader + len.toNat) ≤ r.buf.length := by
          rw [kLenHeader]
          omega
        obtain ⟨hview, hoff'', hmax⟩ :=
          compact_view (r := { r with off := r.off + (kLenHeader + len.toNat) }) hoff'
        refine Or.inl ⟨_, _, _, if_pos hready, ?_, ?_, hoff'', hmax⟩
        · rw [hheader]
          simp only [FrameReader.next, kLenHeader, h4, if_false, hget, hcap, hfull, FrameReader.view,
            List.drop_drop]
        · rw [hview, hheader, FrameReader.view, FrameReader.view, List.drop_drop, kLenHeader]

theorem Holds.call {p : FrameReader × List Bytes} {q : Bytes × List Bytes} (h : Holds cap p q)
    (c : Feed UInt8) : Holds cap (FrameReader.call p c) (feed (recvBody cap) q c) := by
  obtain ⟨hcap, hoff, hview, hbodies⟩ := h
  cases c with
  | append data =>
    simp only [FrameReader.call, feed, FrameReader.append]
    split_ifs with hdata
    · refine ⟨hcap, hoff.trans (by simp), ?_, hbodies⟩
      rw [← hview]
      exact List.drop_append_of_le_length hoff
    · have hnil : data = [] := List.eq_nil_of_length_eq_zero (by omega)
      exact ⟨hcap, hoff, by simp [hnil, hview], hbodies⟩
  | next =>
    simp only [FrameReader.call, feed]
    rcases next_spec hoff with ⟨body, rest, r', hrecv, hnext, hv, ho, hm⟩ | ⟨r', hrecv, hnext, hv, ho, hm⟩
    · rw [hcap, hview] at hrecv
      rw [hrecv, hnext]
      exact ⟨hm.trans hcap, ho, hv, by rw [hbodies]⟩
    · rw [hcap, hview] at hrecv
      rw [hrecv, hnext]
      exact ⟨hm.trans hcap, ho, hv.trans hview, hbodies⟩

theorem holds_run (cap : Nat) (calls : List (Feed UInt8)) :
    Holds cap (FrameReader.run cap calls) (calls.foldl (feed (recvBody cap)) ([], [])) := by
  have hgo : ∀ p q, Holds cap p q →
      Holds cap (calls.foldl FrameReader.call p) (calls.foldl (feed (recvBody cap)) q) := by
    induction calls with
    | nil => exact fun p q h => h
    | cons c calls ih => exact fun p q h => ih _ _ (h.call c)
  exact hgo _ _ ⟨rfl, le_rfl, rfl, rfl⟩

end Stream

/-- A frame is read off as the payload that was framed. -/
theorem recvBody_frameOf {cap : Nat} {payload : Bytes} (hcap : 0 < cap → payload.length ≤ cap)
    (hlen : payload.length < 2 ^ 32) (rest : Bytes) :
    recvBody cap (frameOf payload ++ rest) = some (payload, rest) := by
  have hframe : frameOf payload ++ rest =
      (bytes32 (UInt32.ofNat payload.length)).reverse ++ (payload ++ rest) := by
    simp [frameOf, putU32_eq]
  have hfour : (bytes32 (UInt32.ofNat payload.length)).reverse.length = 4 := by simp
  have hheader : header (frameOf payload ++ rest) = payload.length := by
    have hget := (getU32_frames (UInt32.ofNat payload.length)).reads []
    rw [List.append_nil] at hget
    rw [hframe, header, List.take_left' hfour, hget]
    exact toNat_ofNat hlen
  have hready : Ready cap (frameOf payload ++ rest) := by
    rw [Ready, hheader, hframe]
    simp only [List.length_append, hfour]
    omega
  rw [recvBody_eq, if_pos hready, hheader, hframe, List.drop_left' hfour, List.take_left' rfl,
    ← List.append_assoc, List.drop_left' (by rw [List.length_append, hfour])]

/-- The two sides agree on what a stream holds, for one kind of frame: `decode` is what the bodies that
the reader cuts are decoded with, and `recv` is the blocking side. -/
structure Agrees {α : Type} (encode payload : α → Bytes) (decode : Bytes → Option α)
    (recv : Nat → Framing.Reader UInt8 α) (cap : Nat) : Prop where
  /-- Nothing is cut that the blocking side would not read. -/
  early : ∀ calls, decodeWhile decode (FrameReader.run cap calls).2 <+: values (recv cap) (stream calls)
  /-- When `Next` has nothing more to give, all of it was cut. -/
  drained : ∀ calls, (FrameReader.run cap calls).1.next.1 = none →
    decodeWhile decode (FrameReader.run cap calls).2 = values (recv cap) (stream calls)
  ends : ∀ calls k, (stream calls).length ≤ k →
    (FrameReader.run cap (calls ++ List.replicate k .next)).1.next.1 = none
  /-- Frames that were encoded come out as they went in. -/
  order : ∀ frames : List α,
    (∀ f ∈ frames, (0 < cap → (payload f).length ≤ cap) ∧ (payload f).length < 2 ^ 32) →
    ∀ calls, stream calls = frames.flatMap encode →
      values (recv cap) (stream calls) = frames ∧
      (FrameReader.run cap calls).2.map decode <+: frames.map some ∧
      ((FrameReader.run cap calls).1.next.1 = none →
        (FrameReader.run cap calls).2.map decode = frames.map some)

section Agreement
variable {α : Type} {encode payload : α → Bytes} {decode : Bytes → Option α}
  {recv : Nat → Framing.Reader UInt8 α} {cap : Nat}

/-- What was cut, and what is still in the buffer. -/
theorem run_values (cap : Nat) (calls : List (Feed UInt8)) :
    values (recvBody cap) (stream calls) =
      (FrameReader.run cap calls).2 ++ values (recvBody cap) (FrameReader.run cap calls).1.view := by
  have h := values_feed (recvBody_stable cap) (recvBody_consumes cap) calls ([], []) []
  have hr := holds_run cap calls
  rw [hr.bodies, hr.view]
  simpa using h

theorem next_none {calls : List (Feed UInt8)} (h : (FrameReader.run cap calls).1.next.1 = none) :
    values (recvBody cap) (FrameReader.run cap calls).1.view = [] := by
  have hr := holds_run cap calls
  refine values_none ?_
  rcases next_spec hr.off with ⟨body, rest, r', -, hnext, -⟩ | ⟨r', hrecv, -⟩
  · rw [hnext] at h
    cases h
  · rwa [hr.cap] at hrecv

theorem run_ends (calls : List (Feed UInt8)) {k : Nat} (hk : (stream calls).length ≤ k) :
    (FrameReader.run cap (calls ++ List.replicate k .next)).1.next.1 = none := by
  have hr := holds_run cap (calls ++ List.replicate k .next)
  have hlen := feed_length_le (recvBody_consumes cap) calls ([], [])
  have hend := feed_drained (recvBody_consumes cap) k (calls.foldl (feed (recvBody cap)) ([], []))
    (hlen.trans (by simpa using hk))
  rw [← List.foldl_append, ← hr.view] at hend
  rcases next_spec hr.off with ⟨body, rest, r', hrecv, -⟩ | ⟨r', -, hnext, -⟩
  · rw [hr.cap, hend] at hrecv
    cases hrecv
  · rw [hnext]

/-- A kind of frame on whose bodies the two sides agree. -/
theorem agrees (henc : ∀ f, encode f = frameOf (payload f))
    (hrecv : ∀ cap, recv cap = andDecode (recvBody cap) decode)
    (hdec : ∀ f, (payload f).length < 2 ^ 32 → decode (payload f) = some f) (cap : Nat) :
    Agrees encode payload decode recv cap := by
  have hvalues : ∀ calls, values (recv cap) (stream calls) =
      decodeWhile decode ((FrameReader.run cap calls).2 ++
        values (recvBody cap) (FrameReader.run cap calls).1.view) := fun calls => by
    rw [hrecv, values_andDecode (recvBody_consumes cap), run_values]
  refine ⟨fun calls => ?_, fun calls hd => ?_, fun calls k hk => run_ends calls hk,
    fun frames hf calls hs => ?_⟩
  · rw [hvalues]
    exact decodeWhile_append decode _ _
  · rw [hvalues, next_none hd, List.append_nil]
  · have hall : values (recvBody cap) (stream calls) = frames.map payload := by
      rw [hs]
      refine values_flatMap (recvBody_consumes cap) frames fun f hmem rest => ?_
      rw [henc]
      exact recvBody_frameOf (hf f hmem).1 (hf f hmem).2 rest
    have hmap : (frames.map payload).map decode = frames.map some := by
      rw [List.map_map]
      exact List.map_congr_left fun f hmem => hdec f (hf f hmem).2
    have hcut := run_values cap calls
    rw [hall] at hcut
    refine ⟨?_, ?_, fun hd => ?_⟩
    · rw [hrecv, values_andDecode (recvBody_consumes cap), hall]
      clear hs hall hcut hvalues
      induction frames with
      | nil => rfl
      | cons f frames ih =>
        rw [List.map_cons, decodeWhile, hdec f (hf f (by simp)).2]
        refine congrArg (f :: ·) (ih (fun g hg => hf g (by simp [hg])) ?_)
        exact (List.cons.inj hmap).2
    · rw [← hmap, hcut, List.map_append]
      exact List.prefix_append _ _
    · rw [next_none hd, List.append_nil] at hcut
      rw [← hcut, hmap]

end Agreement

/-- Framing does not depend on how the stream is cut, nor on the backend. -/
theorem framing_agrees (cap : Nat) :
    Agrees encodeRequestFrame requestPayload decodeRequest recvRequestFrame cap ∧
      Agrees encodeReplyFrame replyPayload decodeReply recvReplyFrame cap := by
  constructor
  · refine agrees (fun _ => rfl) recvRequestFrame_eq (fun f hf => ?_) cap
    have hlen : (requestPayload f).length = 16 + f.svc.length + f.args.length := by
      simp [requestPayload, putU32_eq, putU64_eq]
      omega
    have hread := (requestFields_frames f (by omega) (by omega)).reads []
    rw [List.append_nil] at hread
    rw [decodeRequest, kMinRequestBody, if_neg (by omega), hread]
    rfl
  · refine agrees (fun _ => rfl) recvReplyFrame_eq (fun f hf => ?_) cap
    have hlen : (replyPayload f).length = 13 + f.reply.length := by
      simp [replyPayload, putU8, putU32_eq, putU64_eq]
      omega
    have hread := (replyFields_frames f (by omega)).reads []
    rw [List.append_nil] at hread
    rw [decodeReply, kMinReplyBody, if_neg (by omega), hread]
    rfl

end ChonKV.Wire
