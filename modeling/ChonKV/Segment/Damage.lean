import ChonKV.Segment.Recovery

/-!
The header of a record in the middle of the file that holds another length and checksum: when `Rebuild`
takes the rest of the file for a torn tail.
-/

set_option autoImplicit false

namespace ChonKV.Segment

open LittleEndian

variable {rs es : List LogEntry} {b : Bytes} {l : List (LogEntry × Nat)} {i : Nat} {len crc : UInt32}

/-- The bytes behind the header of a record. -/
def behind (rs : List LogEntry) (i : Nat) : Bytes := (records (rs.drop i)).drop 8

/-- The file with another header at a record. -/
def altered (rs : List LogEntry) (i : Nat) (len crc : UInt32) : Bytes :=
  records (rs.take i) ++ (putU32 len ++ putU32 crc ++ behind rs i)

/-- `Rebuild` aborts, or finds every entry. -/
def Noticed (file : Bytes) (rs : List LogEntry) : Prop :=
  (rebuild file).aborted = true ∨ (rebuild file).entries = rs

/-- The length says that the record goes on past the whole of the file, or ends with it. -/
def PastEnd (rs : List LogEntry) (i : Nat) (len : UInt32) : Prop :=
  len ≠ 0 ∧ len ≤ kMaxLen ∧ (behind rs i).length ≤ len.toNat

/-- The checksum is that of the bytes the length says, the bytes behind them read as whole records up to a
torn tail with indexes that go on, and the entries are others. -/
def Misread (rs : List LogEntry) (i : Nat) (len crc : UInt32) : Prop :=
  len ≠ 0 ∧ len ≤ kMaxLen ∧ crc32Raw 0 ((behind rs i).take len.toNat) = crc ∧
    ∃ l, Reads ((behind rs i).drop len.toNat) l ∧
      Consecutive (rs.take i ++ decodeEntry ((behind rs i).take len.toNat) :: l.map (·.1)) ∧
      rs.take i ++ decodeEntry ((behind rs i).take len.toNat) :: l.map (·.1) ≠ rs

theorem reads_records (h : ∀ e ∈ es, Good e) :
    Reads (records es ++ b) l ↔
      ∃ l', Reads b l' ∧ l = (es.map fun e => (e, (record e).length)) ++ l' := by
  induction es generalizing l with
  | nil => simp
  | cons e es ih =>
    have hverdict := verdict_record (h e (by simp)) (records es ++ b)
    have ih := fun l => ih (l := l) fun e he => h e (by simp [he])
    rw [records_cons, List.append_assoc]
    constructor
    · intro hreads
      cases hreads with
      | torn hstop =>
        rw [hverdict] at hstop
        cases hstop
      | record hnext hrest =>
        rw [hverdict] at hnext
        cases hnext
        rw [List.drop_left' rfl] at hrest
        obtain ⟨l', hl', rfl⟩ := (ih _).mp hrest
        exact ⟨l', hl', rfl⟩
    · rintro ⟨l', hl', rfl⟩
      refine .record hverdict ?_
      rw [List.drop_left' rfl]
      exact (ih _).mpr ⟨l', hl', rfl⟩

theorem noticed_iff {file : Bytes} : Noticed file rs ↔
    ∀ l, Reads file l → Consecutive (l.map (·.1)) → l.map (·.1) = rs := by
  constructor
  · intro hnoticed l hl hc
    rw [Noticed, rebuild_reads hl, if_pos hc] at hnoticed
    rcases hnoticed with hab | hentries
    · cases hab
    · exact hentries
  · intro h
    by_cases hreads : ∃ l, Reads file l
    · obtain ⟨l, hl⟩ := hreads
      rw [Noticed, rebuild_reads hl]
      split_ifs with hc
      · exact Or.inr (h l hl hc)
      · exact Or.inl rfl
    · exact Or.inl (rebuild_unread fun l hl => hreads ⟨l, hl⟩)

theorem noticed_altered_iff (hg : ∀ e ∈ rs, Good e) : Noticed (altered rs i len crc) rs ↔
    ∀ l, Reads (putU32 len ++ putU32 crc ++ behind rs i) l → Consecutive (rs.take i ++ l.map (·.1)) →
      rs.take i ++ l.map (·.1) = rs := by
  have hfront : ∀ e ∈ rs.take i, Good e := fun e he => hg e (List.mem_of_mem_take he)
  have hmap : ∀ l : List (LogEntry × Nat),
      (((rs.take i).map fun e => (e, (record e).length)) ++ l).map (·.1) = rs.take i ++ l.map (·.1) := by
    intro l
    rw [List.map_append, List.map_map]
    exact congrArg (· ++ _) (List.map_id _)
  rw [noticed_iff, altered]
  constructor
  · intro h l hl hc
    have hall := h _ ((reads_records hfront).mpr ⟨l, hl, rfl⟩)
    rw [hmap] at hall
    exact hall hc
  · intro h l hl hc
    obtain ⟨l', hl', rfl⟩ := (reads_records hfront).mp hl
    rw [hmap] at hc ⊢
    exact h l' hl' hc

/-- What `Rebuild` makes of a header, with the bytes behind it. -/
theorem verdict_header : verdict (putU32 len ++ putU32 crc ++ b) =
    if len = 0 ∨ kMaxLen < len then if b ≠ [] then .damaged else .stop
    else if b.length < len.toNat then .stop
    else if crc32Raw 0 (b.take len.toNat) ≠ crc then if len.toNat < b.length then .damaged else .stop
    else .next (decodeEntry (b.take len.toNat)) (8 + len.toNat) := by
  have hlen : getU32 (putU32 len ++ putU32 crc ++ b) = len := by
    rw [List.append_assoc, getU32_putU32]
  have hcrc : getU32 ((putU32 len ++ putU32 crc ++ b).drop 4) = crc := by
    rw [List.append_assoc, List.drop_left' (putU32_length _), getU32_putU32]
  have hbody : (putU32 len ++ putU32 crc ++ b).drop 8 = b := List.drop_left' (by simp)
  have hlength : (putU32 len ++ putU32 crc ++ b).length = 8 + b.length := by
    simp
    omega
  simp only [verdict]
  rw [hlen, hcrc, hbody, hlength, if_neg (by omega)]
  simp only [Nat.add_lt_add_iff_left, Nat.lt_add_right_iff_pos, List.length_pos_iff]

theorem reads_next {e : LogEntry} {n : Nat} (h : verdict b = .next e n) :
    Reads b l ↔ ∃ l', Reads (b.drop n) l' ∧ l = (e, n) :: l' := by
  constructor
  · intro hl
    cases hl with
    | torn hstop =>
      rw [h] at hstop
      cases hstop
    | record hnext hrest =>
      rw [h] at hnext
      cases hnext
      exact ⟨_, hrest, rfl⟩
  · rintro ⟨l', hl', rfl⟩
    exact .record h hl'

theorem not_reads_damaged (h : verdict b = .damaged) : ¬ Reads b l := by
  intro hl
  cases hl with
  | torn hstop =>
    rw [h] at hstop
    cases hstop
  | record hnext _ =>
    rw [h] at hnext
    cases hnext

theorem Consecutive.front (hc : Consecutive rs) (i : Nat) : Consecutive (rs.take i) := List.IsChain.take hc i

theorem behind_eq (hi : i < rs.length) : behind rs i = encodeEntry rs[i] ++ records (rs.drop (i+1)) := by
  rw [behind, List.drop_eq_getElem_cons hi, records_cons, (getU32_record _ _).2.2]

theorem behind_ne_nil (hi : i < rs.length) : behind rs i ≠ [] := by
  rw [behind_eq hi]
  exact List.append_ne_nil_of_left_ne_nil (List.length_pos_iff.mp (encodeEntry_pos _)) _

theorem decodeEntry_behind (hg : ∀ e ∈ rs, Good e) (hi : i < rs.length) :
    decodeEntry (behind rs i) = rs[i] := by
  rw [behind_eq hi, decodeEntry_encodeEntry (hg _ (List.getElem_mem hi)).fits]

/-- Another header in the middle of the file is noticed unless it says that the record ends the file or goes
past its end, or the rest is read in other pieces that fit. -/
theorem noticed_iff_header (rs : List LogEntry) (hg : ∀ e ∈ rs, Good e) (hc : Consecutive rs) (i : Nat)
    (hi : i+1 < rs.length) (len crc : UInt32) :
    Noticed (altered rs i len crc) rs ↔ ¬ PastEnd rs i len ∧ ¬ Misread rs i len crc := by
  have hlt : i < rs.length := Nat.lt_of_succ_lt hi
  have hnil := behind_ne_nil hlt
  have hverdict : verdict (putU32 len ++ putU32 crc ++ behind rs i) = _ := verdict_header
  rw [noticed_altered_iff hg]
  by_cases hbad : len = 0 ∨ kMaxLen < len
  · rw [if_pos hbad, if_pos hnil] at hverdict
    have hlegal : ¬ (len ≠ 0 ∧ len ≤ kMaxLen) := fun h => hbad.elim h.1 (UInt32.not_lt.mpr h.2)
    exact ⟨fun _ => ⟨fun h => hlegal ⟨h.1, h.2.1⟩, fun h => hlegal ⟨h.1, h.2.1⟩⟩,
      fun _ l hl => absurd hl (not_reads_damaged hverdict)⟩
  rw [if_neg hbad] at hverdict
  have hlegal : len ≠ 0 ∧ len ≤ kMaxLen := by
    obtain ⟨hzero, hmax⟩ := not_or.mp hbad
    exact ⟨hzero, UInt32.not_lt.mp hmax⟩
  by_cases hpast : (behind rs i).length ≤ len.toNat
  · -- what is left of the list is too short, and its indexes are those of the file
    refine iff_of_false (fun h => ?_) fun h => h.1 ⟨hlegal.1, hlegal.2, hpast⟩
    by_cases hstop : (behind rs i).length < len.toNat ∨
        crc32Raw 0 ((behind rs i).take len.toNat) ≠ crc
    · have htorn : verdict (putU32 len ++ putU32 crc ++ behind rs i) = .stop := by
        rw [hverdict]
        split_ifs with hshort hcrc hmid
        · rfl
        · omega
        · rfl
        · exact absurd hstop (by tauto)
      have hall := h [] (.torn htorn) (by simpa using hc.front i)
      have hlen := congrArg List.length hall
      simp at hlen
      omega
    · obtain ⟨hshort, hcrc⟩ := not_or.mp hstop
      have hlen : len.toNat = (behind rs i).length := by omega
      rw [if_neg hshort, if_neg hcrc, hlen, List.take_length,
        decodeEntry_behind hg hlt] at hverdict
      have hrest : (putU32 len ++ putU32 crc ++ behind rs i).drop (8 + (behind rs i).length) = [] :=
        List.drop_eq_nil_of_le (by simp; omega)
      have hreads := (reads_next hverdict).mpr ⟨[], by rw [hrest]; exact .torn verdict_nil, rfl⟩
      have htake : rs.take i ++ [rs[i]] = rs.take (i+1) := List.take_concat_get' rs i hlt
      have hall := h _ hreads (by simpa [htake] using hc.front (i+1))
      have hlength := congrArg List.length hall
      simp at hlength
      omega
  rw [if_neg (by omega)] at hverdict
  have hnotPast : ¬ PastEnd rs i len := fun h => hpast h.2.2
  by_cases hcrc : crc32Raw 0 ((behind rs i).take len.toNat) = crc
  · rw [if_neg (by simp [hcrc])] at hverdict
    have hdrop : (putU32 len ++ putU32 crc ++ behind rs i).drop (8 + len.toNat) =
        (behind rs i).drop len.toNat := by
      rw [← List.drop_drop, List.drop_left' (by simp)]
    simp only [reads_next hverdict, hdrop]
    constructor
    · intro h
      refine ⟨hnotPast, ?_⟩
      rintro ⟨-, -, -, l, hl, hcons, hne⟩
      exact hne (h _ ⟨l, hl, rfl⟩ hcons)
    · rintro ⟨-, hmisread⟩ _ ⟨l, hl, rfl⟩ hcons
      by_contra hne
      exact hmisread ⟨hlegal.1, hlegal.2, hcrc, l, hl, hcons, hne⟩
  · rw [if_pos hcrc, if_pos (by omega)] at hverdict
    exact ⟨fun _ => ⟨hnotPast, fun h => hcrc h.2.2.1⟩,
      fun _ l hl => absurd hl (not_reads_damaged hverdict)⟩

/-- The length as it was with a checksum of zero, in the first of two records. -/
theorem noticed_iff_header_crc : Noticed (altered [plain 1, plain 2] 0 6 0) [plain 1, plain 2] :=
  (noticed_iff_header [plain 1, plain 2] (by simp [good_plain.1, good_plain.2.1])
    (by decide +kernel) 0 (by decide) 6 0).mpr
    ⟨fun h => absurd h.2.2 (by decide +kernel), fun h => absurd h.2.2.1 (by decide +kernel)⟩

/-- A length that goes past the end of the file costs both records. -/
theorem length_past_end_unnoticed : ¬ ∀ (rs : List LogEntry), (∀ e ∈ rs, Good e) → Consecutive rs →
    ∀ i, i+1 < rs.length → ∀ len crc, Noticed (altered rs i len crc) rs := by
  intro h
  have hnoticed := h [plain 1, plain 2] (by simp [good_plain.1, good_plain.2.1]) (by decide +kernel) 0
    (by decide) 255 (crc32Raw 0 (encodeEntry (plain 1)))
  revert hnoticed
  rw [Noticed]
  decide +kernel

example : (rebuild (altered [plain 1, plain 2] 0 255 (crc32Raw 0 (encodeEntry (plain 1))))).file = [] := by
  decide +kernel

end ChonKV.Segment
