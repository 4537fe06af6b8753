import ChonKV.Segment.File
import Mathlib.Data.List.Chain
import Mathlib.Data.List.Infix

/-!
What `Rebuild` makes of the bytes that it has not read yet, one record at a time, and of a file of whole
records that is cut off anywhere.
-/

set_option autoImplicit false

namespace ChonKV.Segment

open LittleEndian Framing

section Fields
variable {p q rest t : Bytes} {e : LogEntry}

@[simp] theorem putU32_length (v : UInt32) : (putU32 v).length = 4 := rfl

theorem getU32_cons (b0 b1 b2 b3 : UInt8) (p : Bytes) :
    getU32 (b0 :: b1 :: b2 :: b3 :: p) = word32 [b0, b1, b2, b3] := by
  apply UInt32.eq_of_toBitVec_eq
  simp [getU32, word32, List.range_succ]
  grind

theorem getU32_putU32 (v : UInt32) (p : Bytes) : getU32 (putU32 v ++ p) = v := by
  have hget := getU32_cons (byte32 v 0) (byte32 v 8) (byte32 v 16) (byte32 v 24) p
  exact hget.trans (word32_bytes32 v)

theorem varint_of_reads {v : UInt64} (h : Decoder.varint p = some (v, q)) : varint p = (some v, q) := by
  have hgo : ∀ (p : Bytes) (r : UInt64) (shift : Nat),
      Decoder.varintLoop r shift p = some (v, q) → varintLoop r shift p = (some v, q) := by
    intro p
    induction p with
    | nil => exact fun r shift h => by cases h
    | cons b p ih =>
      intro r shift h
      rw [Decoder.varintLoop] at h
      rw [varintLoop]
      split_ifs at h ⊢ with hs hb
      · cases h
        rfl
      · exact ih _ _ h
  exact hgo p 0 0 h

theorem zigzag_of_reads {v : Int} (h : getZigzag p = some (v, q)) :
    ∃ x, zigzag p = (some x, q) ∧ x.toInt = v := by
  obtain ⟨x, r, hx, hv⟩ := bind_eq_some h
  obtain ⟨y, r', hy, hz⟩ := bind_eq_some hx
  cases hv
  cases hz
  exact ⟨_, by rw [zigzag, varint_of_reads hy]; rfl, rfl⟩

theorem int_of_reads {v : Int} (h : getInt p = some (v, q)) :
    ∃ x, int p = (some x, q) ∧ x.toInt = v := by
  obtain ⟨x, r, hx, hv⟩ := bind_eq_some h
  obtain ⟨y, r', hy, hz⟩ := bind_eq_some hx
  obtain ⟨z, r'', hz', hw⟩ := bind_eq_some hy
  cases hv
  cases hz
  cases hw
  exact ⟨_, by rw [int, zigzag, varint_of_reads hz']; rfl, rfl⟩

theorem bytes_of_reads {v : Bytes} (h : Decoder.bytes p = some (v, q)) : bytes p = (some v, q) := by
  obtain ⟨n, r, hn, hv⟩ := bind_eq_some h
  rw [Decoder.take] at hv
  rw [bytes, varint_of_reads hn]
  split_ifs at hv with hlen
  cases hv
  simp [hlen]

/-- What the reader of an entry accepts is what `DecodeEntry` finds. -/
theorem decodeEntry_of_reads (h : LogEntry.read p = some (e, q)) : decodeEntry p = e := by
  obtain ⟨term, p1, h1, h⟩ := bind_eq_some h
  obtain ⟨index, p2, h2, h⟩ := bind_eq_some h
  obtain ⟨command, p3, h3, h⟩ := bind_eq_some h
  obtain ⟨et, p4, h4, h⟩ := bind_eq_some h
  obtain ⟨confServer, p5, h5, h⟩ := bind_eq_some h
  obtain ⟨confRole, p6, h6, h⟩ := bind_eq_some h
  cases h
  obtain ⟨x1, k1, rfl⟩ := zigzag_of_reads h1
  obtain ⟨x2, k2, rfl⟩ := zigzag_of_reads h2
  obtain ⟨x4, k4, rfl⟩ := int_of_reads h4
  obtain ⟨x5, k5, rfl⟩ := int_of_reads h5
  obtain ⟨x6, k6, rfl⟩ := int_of_reads h6
  simp [decodeEntry, k1, k2, bytes_of_reads h3, k4, k5, k6]

theorem decodeEntry_encodeEntry (h : e.Fits) (t : Bytes) : decodeEntry (encodeEntry e ++ t) = e :=
  decodeEntry_of_reads ((frames_entry h).reads t)

theorem varint_ne_nil (v : UInt64) : Encoder.varint v ≠ [] := by
  rw [Encoder.varint, Encoder.varintLoop]
  split <;> simp

theorem encodeEntry_pos (e : LogEntry) : 0 < (encodeEntry e).length := by
  have hterm : putZigzag e.term ≠ [] := varint_ne_nil _
  have hpos := List.length_pos_iff.mpr hterm
  simp only [encodeEntry, LogEntry.encode, List.flatten_cons, List.length_append]
  omega

end Fields

/-- An entry that the source can hold, and whose record `Rebuild` lets through. -/
structure Good (e : LogEntry) : Prop where
  fits : e.Fits
  len : (encodeEntry e).length ≤ 2^28

/-- What is made of the bytes behind the records that were read. -/
inductive Verdict where
  | stop
  | damaged
  | next (e : LogEntry) (size : Nat)

def verdict (b : Bytes) : Verdict :=
  if b.length < 8 then .stop
  else
    let len := getU32 b
    let crc := getU32 (b.drop 4)
    if len = 0 ∨ kMaxLen < len then if 8 < b.length then .damaged else .stop
    else if b.length < 8 + len.toNat then .stop
    else if crc32Raw 0 ((b.drop 8).take len.toNat) ≠ crc then
      if 8 + len.toNat < b.length then .damaged else .stop
    else .next (decodeEntry ((b.drop 8).take len.toNat)) (8 + len.toNat)

section Loop
variable {file b : Bytes} {off n fuel : Nat} {entries es : List LogEntry} {offsets : List Nat}
  {e : LogEntry}

theorem getU32_take (h : 8 ≤ b.length) :
    getU32 (b.take 8) = getU32 b ∧ getU32 ((b.take 8).drop 4) = getU32 (b.drop 4) := by
  obtain ⟨b0, b1, b2, b3, b4, b5, b6, b7, p, rfl⟩ : ∃ b0 b1 b2 b3 b4 b5 b6 b7 p,
      b = b0 :: b1 :: b2 :: b3 :: b4 :: b5 :: b6 :: b7 :: p := by
    match b, h with
    | b0 :: b1 :: b2 :: b3 :: b4 :: b5 :: b6 :: b7 :: p, _ =>
      exact ⟨b0, b1, b2, b3, b4, b5, b6, b7, p, rfl⟩
  exact ⟨rfl, rfl⟩

/-- The loop looks at the bytes from the offset on only. -/
theorem rebuildLoop_succ (hoff : off ≤ file.length) :
    rebuildLoop file (fuel+1) off entries offsets =
      match verdict (file.drop off) with
      | .stop => some (off, entries, offsets)
      | .damaged => none
      | .next e n => rebuildLoop file fuel (off + n) (entries ++ [e]) (offsets ++ [off + n]) := by
  have hlen : (file.drop off).length = file.length - off := List.length_drop
  rw [rebuildLoop, verdict, hlen]
  by_cases h8 : file.length - off < 8
  · have hhdr : (pread file 8 off).length ≠ 8 := by
      rw [pread, List.length_take, hlen]
      omega
    simp only [hhdr, h8, ne_eq, not_false_eq_true, if_true]
  · have hhdr : (pread file 8 off).length = 8 := by
      rw [pread, List.length_take, hlen]
      omega
    obtain ⟨hlen32, hcrc32⟩ := getU32_take (b := file.drop off) (by omega)
    rw [pread] at hhdr
    simp only [pread, hhdr, ne_eq, not_true_eq_false, if_false, hlen32, hcrc32, h8, List.drop_drop]
    by_cases hbad : getU32 (file.drop off) = 0 ∨ kMaxLen < getU32 (file.drop off)
    · simp only [hbad, if_true]
      by_cases hmid : off + 8 < file.length
      · rw [if_pos hmid, if_pos (by omega)]
      · rw [if_neg hmid, if_neg (by omega)]
    · simp only [hbad, if_false]
      have hbuf : ((file.drop (off + 8)).take (getU32 (file.drop off)).toNat).length =
          min (getU32 (file.drop off)).toNat (file.length - (off + 8)) := by
        rw [List.length_take, List.length_drop]
      by_cases hshort : file.length - off < 8 + (getU32 (file.drop off)).toNat
      · rw [if_pos (by rw [hbuf]; omega), if_pos hshort]
      · rw [if_neg (by rw [hbuf]; omega), if_neg hshort]
        by_cases hcrc : crc32Raw 0 ((file.drop (off + 8)).take (getU32 (file.drop off)).toNat) =
            getU32 (file.drop (off + 4))
        · simp only [hcrc, not_true_eq_false, if_false]
        · simp only [hcrc, not_false_eq_true, if_true]
          by_cases hmid : off + 8 + (getU32 (file.drop off)).toNat < file.length
          · rw [if_pos hmid, if_pos (by omega)]
          · rw [if_neg hmid, if_neg (by omega)]

theorem verdict_next_le (h : verdict b = .next e n) : 8 < n ∧ n ≤ b.length := by
  simp only [verdict] at h
  split_ifs at h with h8 hbad hmid hshort hcrc hmid
  cases h
  have hpos : 0 < (getU32 b).toNat := by
    refine Nat.pos_of_ne_zero fun hz => hbad (Or.inl ?_)
    exact UInt32.toNat_inj.mp hz
  omega

/-- The bytes read as records with these entries and sizes, and then as a tail that was torn off. -/
inductive Reads : Bytes → List (LogEntry × Nat) → Prop where
  | torn {b : Bytes} (h : verdict b = .stop) : Reads b []
  | record {b : Bytes} {e : LogEntry} {n : Nat} {l : List (LogEntry × Nat)}
    (h : verdict b = .next e n) (rest : Reads (b.drop n) l) : Reads b ((e, n) :: l)

/-- Where the records end, one after the other. -/
def ends (off : Nat) : List Nat → List Nat
  | [] => []
  | n :: l => (off + n) :: ends (off + n) l

variable {l : List (LogEntry × Nat)}

theorem Reads.sum_le (h : Reads b l) : (l.map (·.2)).sum ≤ b.length := by
  induction h with
  | torn => simp
  | record h _ ih =>
    have hle := (verdict_next_le h).2
    rw [List.length_drop] at ih
    simp only [List.map_cons, List.sum_cons]
    omega

theorem verdict_nil : verdict [] = .stop := rfl

/-- What reads as records is taken up. -/
theorem rebuildLoop_reads (h : Reads b l) (hb : file.drop off = b) (hoff : off ≤ file.length)
    (hfuel : b.length ≤ fuel) : rebuildLoop file fuel off entries offsets =
      some (off + (l.map (·.2)).sum, entries ++ l.map (·.1), offsets ++ ends off (l.map (·.2))) := by
  induction h generalizing off fuel entries offsets with
  | torn h =>
    cases fuel with
    | zero => simp [rebuildLoop, ends]
    | succ fuel =>
      rw [rebuildLoop_succ hoff, hb, h]
      simp [ends]
  | @record b e n l h _ ih =>
    have hn := verdict_next_le h
    have hlen := congrArg List.length hb
    rw [List.length_drop] at hlen
    obtain ⟨fuel, rfl⟩ : ∃ k, fuel = k+1 := ⟨fuel - 1, by omega⟩
    rw [rebuildLoop_succ hoff, hb, h]
    simp only
    rw [ih (by rw [← hb, List.drop_drop]) (by omega) (by rw [List.length_drop]; omega)]
    simp [ends, Nat.add_assoc]

theorem rebuildLoop_cases (hoff : off ≤ file.length) (hfuel : file.length - off ≤ fuel) :
    rebuildLoop file fuel off entries offsets = none ∨ ∃ l, Reads (file.drop off) l := by
  induction fuel generalizing off entries offsets with
  | zero =>
    have hnil : file.drop off = [] := List.drop_eq_nil_of_le (by omega)
    exact Or.inr ⟨[], .torn (by rw [hnil]; rfl)⟩
  | succ fuel ih =>
    rw [rebuildLoop_succ hoff]
    cases hv : verdict (file.drop off) with
    | stop => exact Or.inr ⟨[], .torn hv⟩
    | damaged => exact Or.inl rfl
    | next e n =>
      obtain ⟨hpos, hle⟩ := verdict_next_le hv
      rw [List.length_drop] at hle
      rcases @ih (off + n) (entries ++ [e]) (offsets ++ [off + n]) (by omega) (by omega)
        with hnone | ⟨l, hl⟩
      · exact Or.inl hnone
      · exact Or.inr ⟨_, .record hv (by rwa [List.drop_drop])⟩

/-- A file that reads is opened, unless the indexes jump. -/
theorem rebuild_reads (h : Reads file l) : rebuild file =
    if Consecutive (l.map (·.1)) then
      { entries := l.map (·.1)
        offsets := ends 0 (l.map (·.2))
        file := file.take (l.map (·.2)).sum
        fileSize := (l.map (·.2)).sum }
    else
      { entries := l.map (·.1), offsets := ends 0 (l.map (·.2)), file := file, aborted := true } := by
  have hloop : rebuildLoop file file.length 0 [] [] = _ := rebuildLoop_reads h rfl (Nat.zero_le _) le_rfl
  have hle := h.sum_le
  rw [rebuild, hloop]
  simp only [Nat.zero_add, List.nil_append]
  split_ifs with hc hlt
  · have htrunc : ftruncate file (l.map (·.2)).sum = file.take (l.map (·.2)).sum := by
      rw [ftruncate, Nat.sub_eq_zero_of_le hle, List.replicate_zero, List.append_nil]
    rw [htrunc]
  · rw [List.take_of_length_le (by omega)]
  · rfl

theorem rebuild_unread (h : ∀ l, ¬ Reads file l) : (rebuild file).aborted = true := by
  have hloop : rebuildLoop file file.length 0 [] [] = none := by
    have hcases : rebuildLoop file file.length 0 [] [] = none ∨ ∃ l, Reads (file.drop 0) l :=
      rebuildLoop_cases (Nat.zero_le _) le_rfl
    rcases hcases with hnone | ⟨l, hl⟩
    · exact hnone
    · exact absurd hl (h l)
  rw [rebuild, hloop]

end Loop

/-- A file of whole records. -/
def records (es : List LogEntry) : Bytes := es.flatMap record

@[simp] theorem records_nil : records [] = [] := rfl

@[simp] theorem records_cons (e : LogEntry) (es : List LogEntry) :
    records (e :: es) = record e ++ records es := rfl

@[simp] theorem records_append (es fs : List LogEntry) :
    records (es ++ fs) = records es ++ records fs := List.flatMap_append

theorem record_length (e : LogEntry) : (record e).length = 8 + (encodeEntry e).length := by
  simp [record]
  omega

/-- The entries of the records that lie within the first `n` bytes. -/
def contained : List LogEntry → Nat → List LogEntry
  | [], _ => []
  | e :: es, n => if (record e).length ≤ n then e :: contained es (n - (record e).length) else []

section Records
variable {e : LogEntry} {es : List LogEntry} {rest : Bytes} {n : Nat}

theorem Good.toNat_len (h : Good e) :
    (UInt32.ofNat (encodeEntry e).length).toNat = (encodeEntry e).length := by
  have hlen := h.len
  simp only [UInt32.toNat_ofNat']
  omega

/-- The length of a record is one that `Rebuild` lets through. -/
theorem Good.len_ok (h : Good e) : ¬ (UInt32.ofNat (encodeEntry e).length = 0 ∨
    kMaxLen < UInt32.ofNat (encodeEntry e).length) := by
  have hlen := h.len
  have hpos := encodeEntry_pos e
  have hmax : kMaxLen.toNat = 2^28 := by decide
  rintro (hz | hlt)
  · have hnat := h.toNat_len
    rw [hz] at hnat
    exact absurd hnat.symm (Nat.ne_of_gt hpos)
  · rw [UInt32.lt_iff_toNat_lt, h.toNat_len, hmax] at hlt
    omega

theorem getU32_record (e : LogEntry) (rest : Bytes) :
    getU32 (record e ++ rest) = UInt32.ofNat (encodeEntry e).length ∧
      getU32 ((record e ++ rest).drop 4) = crc32Raw 0 (encodeEntry e) ∧
      (record e ++ rest).drop 8 = encodeEntry e ++ rest := by
  have hshape : record e ++ rest = putU32 (UInt32.ofNat (encodeEntry e).length) ++
      (putU32 (crc32Raw 0 (encodeEntry e)) ++ (encodeEntry e ++ rest)) := by
    simp [record]
  rw [hshape]
  refine ⟨getU32_putU32 _ _, ?_, ?_⟩
  · rw [List.drop_left' (putU32_length _), getU32_putU32]
  · rw [← List.append_assoc, List.drop_left' (by simp)]

/-- A whole record is read as its entry. -/
theorem verdict_record (h : Good e) (rest : Bytes) :
    verdict (record e ++ rest) = .next e (record e).length := by
  obtain ⟨hlen, hcrc, hbody⟩ := getU32_record e rest
  have hlength : (record e ++ rest).length = 8 + (encodeEntry e).length + rest.length := by
    rw [List.length_append, record_length]
  simp only [verdict]
  rw [hlen, hcrc, hbody, h.toNat_len, if_neg (by omega), if_neg h.len_ok, if_neg (by omega),
    List.take_left' rfl, if_neg (by simp), record_length]
  rw [← List.append_nil (encodeEntry e), decodeEntry_encodeEntry h.fits, List.append_nil]

/-- A record that is cut off is a torn tail. -/
theorem verdict_torn (h : Good e) {p : Bytes} (hp : p <+: record e) (hne : p ≠ record e) :
    verdict p = .stop := by
  obtain ⟨t, ht⟩ := hp
  have hlt : p.length < 8 + (encodeEntry e).length := by
    have hlen := congrArg List.length ht
    rw [List.length_append, record_length] at hlen
    have hpos : 0 < t.length := List.length_pos_iff.mpr fun hnil => hne (by rw [← ht, hnil, List.append_nil])
    omega
  by_cases h8 : p.length < 8
  · simp [verdict, h8]
  · have hhdr : getU32 p = UInt32.ofNat (encodeEntry e).length := by
      have hrec := (getU32_record e []).1
      rw [List.append_nil, ← ht] at hrec
      rw [← hrec]
      match p, h8 with
      | b0 :: b1 :: b2 :: b3 :: p, _ => rfl
      | [], h8 | [_], h8 | [_, _], h8 | [_, _, _], h8 => simp at h8
    simp only [verdict]
    rw [hhdr, if_neg h8, if_neg h.len_ok, h.toNat_len, if_pos hlt]

/-- However the file is cut, it reads as the records that are left whole. -/
theorem reads_take (h : ∀ e ∈ es, Good e) (n : Nat) :
    Reads ((records es).take n) ((contained es n).map fun e => (e, (record e).length)) := by
  induction es generalizing n with
  | nil => exact .torn (by simp [verdict_nil])
  | cons e es ih =>
    have he := h e (by simp)
    rw [contained, records_cons]
    split_ifs with hle
    · rw [List.map_cons, List.take_append, List.take_of_length_le hle]
      refine .record (verdict_record he _) ?_
      rw [List.drop_left' rfl]
      exact ih (fun e hmem => h e (by simp [hmem])) _
    · have hcut : (record e ++ records es).take n = (record e).take n :=
        List.take_append_of_le_length (by omega)
      rw [hcut]
      refine .torn (verdict_torn he (List.take_prefix _ _) fun heq => hle ?_)
      have hlen := congrArg List.length heq
      rw [List.length_take] at hlen
      omega

theorem contained_prefix (es : List LogEntry) (n : Nat) : contained es n <+: es := by
  induction es generalizing n with
  | nil => exact List.nil_prefix
  | cons e es ih =>
    rw [contained]
    split_ifs
    · exact (List.prefix_cons_inj e).mpr (ih _)
    · exact List.nil_prefix

theorem records_contained_le (es : List LogEntry) (n : Nat) :
    (records (contained es n)).length ≤ n := by
  induction es generalizing n with
  | nil => simp [contained]
  | cons e es ih =>
    rw [contained]
    split_ifs with hle
    · have hrest := ih (n - (record e).length)
      rw [records_cons, List.length_append]
      omega
    · simp

/-- Where the records end is how long the file is up to there. -/
theorem ends_eq (off : Nat) (es : List LogEntry) : ends off (es.map fun e => (record e).length) =
    (List.range es.length).map fun i => off + (records (es.take (i+1))).length := by
  induction es generalizing off with
  | nil => rfl
  | cons e es ih =>
    rw [List.map_cons, ends, ih, List.length_cons, List.range_succ_eq_map, List.map_cons, List.map_map]
    refine congrArg₂ _ (by simp) (List.map_congr_left fun i _ => ?_)
    simp [Nat.add_assoc]

theorem sum_lengths (es : List LogEntry) :
    (es.map fun e => (record e).length).sum = (records es).length := by
  simp [records, List.length_flatMap]

/-- `Rebuild` of a file of consecutive records that was cut off after `n` bytes. -/
theorem rebuild_take (h : ∀ e ∈ es, Good e) (hc : Consecutive es) (n : Nat) :
    rebuild ((records es).take n) =
      { entries := contained es n
        offsets := (List.range (contained es n).length).map fun i =>
          (records ((contained es n).take (i+1))).length
        file := records (contained es n)
        fileSize := (records (contained es n)).length } := by
  have hcons : Consecutive (contained es n) := by
    obtain ⟨t, ht⟩ := contained_prefix es n
    rw [Consecutive, ← ht] at hc
    exact hc.left_of_append
  have hreads := rebuild_reads (reads_take h n)
  have hmap : ((contained es n).map fun e => (e, (record e).length)).map (·.1) = contained es n := by
    rw [List.map_map]
    exact List.map_id _
  have hsizes : ((contained es n).map fun e => (e, (record e).length)).map (·.2) =
      (contained es n).map fun e => (record e).length := by
    rw [List.map_map]
    rfl
  have hfile : ((records es).take n).take (records (contained es n)).length =
      records (contained es n) := by
    obtain ⟨t, ht⟩ := contained_prefix es n
    have hsplit : records es = records (contained es n) ++ records t := by
      rw [← records_append, ht]
    rw [List.take_take, Nat.min_eq_left (records_contained_le es n), hsplit, List.take_left' rfl]
  rw [hmap, if_pos hcons, hsizes, ends_eq, sum_lengths, hfile] at hreads
  rw [hreads]
  simp

end Records

end ChonKV.Segment
