import ChonKV.Segment.Rebuild

/-!
The mirror, the table of offsets and the bytes of the segment file through every call: the store of whole
records is what the bytes hold, and a file that is cut off anywhere is opened with the records that are
left whole.
-/

set_option autoImplicit false

namespace ChonKV

open Segment

namespace SegmentLogStorage

theorem foldl_writeRecord_eq (l : List LogEntry) (m : SegmentLogStorage) :
    l.foldl writeRecord m = { m with
      file := m.file ++ l
      offsets := m.offsets ++ (List.range l.length).map fun i => m.file.length + (i+1) } := by
  induction l generalizing m with
  | nil => simp
  | cons e l ih =>
    rw [List.foldl_cons, ih, writeRecord]
    simp [List.range_succ_eq_map, Function.comp_def]
    intro i _
    omega

/-- The mirror is the end of the file, and the offsets count the records up to there. -/
structure Aligned (m : SegmentLogStorage) : Prop where
  front : ∃ front, m.file = front ++ m.entries ∧
    m.offsets = (List.range m.entries.length).map fun i => front.length + (i+1)
  consecutive : Consecutive m.file
  good : ∀ e ∈ m.file, Good e
  sound : m.aborted = false

variable {m : SegmentLogStorage} {e : LogEntry} {logs : List LogEntry}

theorem rewriteFile_eq (m : SegmentLogStorage) : m.rewriteFile = { m with
    file := m.entries
    offsets := (List.range m.entries.length).map (· + 1) } := by
  rw [rewriteFile, foldl_writeRecord_eq]
  simp

/-- What is rewritten is aligned from the start of the file on. -/
theorem aligned_rewriteFile (hc : Consecutive m.entries) (hg : ∀ e ∈ m.entries, Good e)
    (hs : m.aborted = false) : m.rewriteFile.Aligned := by
  rw [rewriteFile_eq]
  exact ⟨⟨[], rfl, List.map_congr_left fun i _ => by simp⟩, hc, hg, hs⟩

theorem Aligned.offsets_le (h : m.Aligned) : ∀ k ∈ m.offsets, k ≤ m.file.length := by
  obtain ⟨front, hfile, hoff⟩ := h.front
  intro k hk
  rw [hoff] at hk
  obtain ⟨i, hi, rfl⟩ := List.mem_map.mp hk
  have hlt := List.mem_range.mp hi
  rw [hfile, List.length_append]
  omega

theorem Aligned.mirror (h : m.Aligned) : Consecutive m.entries ∧ ∀ e ∈ m.entries, Good e := by
  obtain ⟨front, hfile, -⟩ := h.front
  have hc := h.consecutive
  have hg := h.good
  rw [hfile] at hc hg
  exact ⟨hc.right_of_append, fun e he => hg e (List.mem_append_right _ he)⟩

/-- One more record at the end. -/
theorem Aligned.write (h : m.Aligned) (he : Good e)
    (hn : ∀ l, m.file.getLast? = some l → e.index = l.index + 1) :
    ({ m.writeRecord e with entries := m.entries ++ [e] } : SegmentLogStorage).Aligned := by
  obtain ⟨front, hfile, hoff⟩ := h.front
  refine ⟨⟨front, by simp [writeRecord, hfile], ?_⟩, ?_, fun a ha => ?_, h.sound⟩
  · simp [writeRecord, hoff, hfile, List.range_succ]
    omega
  · refine h.consecutive.append (List.isChain_singleton e) fun a ha b hb => ?_
    cases hb
    exact hn a ha
  · rcases List.mem_append.mp ha with ha | ha
    · exact h.good a ha
    · rw [List.mem_singleton.mp ha]
      exact he

theorem Aligned.append (h : m.Aligned) (he : Good e)
    (hn : ∀ l, m.entries.getLast? = some l → e.index = l.index + 1) : (m.append e).Aligned := by
  have htest : ∀ m' : SegmentLogStorage, m'.entries = m.entries →
      (m'.entries.getLast?.map fun l => decide (e.index ≠ l.index + 1)).getD false = false := by
    intro m' heq
    rw [heq]
    cases hl : m.entries.getLast? with
    | none => rfl
    | some l => simp [hn l hl]
  unfold SegmentLogStorage.append
  by_cases hempty : m.entries.isEmpty ∧ m.file ≠ []
  · have hnil : m.entries = [] := List.isEmpty_iff.mp hempty.1
    have hrewrite := aligned_rewriteFile h.mirror.1 h.mirror.2 h.sound
    have hentries : m.rewriteFile.entries = m.entries := by rw [rewriteFile_eq]
    simp only [if_pos hempty, htest _ hentries, Bool.false_eq_true, if_false]
    refine hrewrite.write he fun l hl => ?_
    rw [rewriteFile_eq, hnil] at hl
    cases hl
  · simp only [if_neg hempty, htest m rfl, Bool.false_eq_true, if_false]
    refine h.write he fun l hl => hn l ?_
    obtain ⟨front, hfile, -⟩ := h.front
    by_cases hnil : m.entries = []
    · have hfilenil : m.file = [] := by
        by_contra hne
        exact hempty ⟨List.isEmpty_iff.mpr hnil, hne⟩
      rw [hfilenil] at hl
      cases hl
    · rw [hfile, List.getLast?_append_of_ne_nil _ hnil] at hl
      exact hl

/-- How many entries of the mirror go up to an index. -/
def upTo (l : List LogEntry) (index : Int) : Nat :=
  (l.takeWhile fun e => decide (e.index ≤ index)).length

theorem upTo_le (l : List LogEntry) (index : Int) : upTo l index ≤ l.length :=
  (List.takeWhile_prefix _).length_le

theorem Aligned.truncateSuffix (h : m.Aligned) (index : Int) : (m.truncateSuffix index).Aligned ∧
    ∀ k ∈ (m.truncateSuffix index).offsets, k ≤ (m.truncateSuffix index).file.length := by
  have haligned : (m.truncateSuffix index).Aligned := by
    obtain ⟨front, hfile, hoff⟩ := h.front
    have hkeep := upTo_le m.entries index
    have hc := h.consecutive
    unfold SegmentLogStorage.truncateSuffix
    rw [← upTo]
    by_cases hz : upTo m.entries index = 0
    · refine ⟨⟨[], ?_, ?_⟩, ?_, fun e he => ?_, h.sound⟩
      · simp [hz]
      · simp [hz]
      · simp [hz, Consecutive]
      · simp [hz] at he
    · have hsize : m.offsets.getD (upTo m.entries index - 1) 0 =
          front.length + upTo m.entries index := by
        rw [hoff, List.getD_eq_getElem?_getD, List.getElem?_map, List.getElem?_range (by omega)]
        simp
        omega
      have htake : m.file.take (front.length + upTo m.entries index) =
          front ++ m.entries.take (upTo m.entries index) := by
        rw [hfile, List.take_length_add_append]
      simp only [hz, if_false, hsize]
      refine ⟨⟨front, htake, ?_⟩, ?_, fun e he => h.good e (List.mem_of_mem_take he), h.sound⟩
      · rw [hoff, ← List.map_take, List.take_range, List.length_take]
      · exact hc.take _
  exact ⟨haligned, haligned.offsets_le⟩

theorem Aligned.dropPrefix (h : m.Aligned) (index : Int) : (m.dropPrefix index).Aligned := by
  obtain ⟨front, hfile, hoff⟩ := h.front
  have hdrop := upTo_le m.entries index
  unfold SegmentLogStorage.dropPrefix
  rw [← upTo]
  refine ⟨⟨front ++ m.entries.take (upTo m.entries index), ?_, ?_⟩, h.consecutive, h.good, h.sound⟩
  · rw [List.append_assoc, List.take_append_drop]
    exact hfile
  · show m.offsets.drop _ = _
    rw [hoff]
    refine List.ext_getElem (by simp) fun i h₁ h₂ => ?_
    simp only [List.length_drop, List.length_map, List.length_range] at h₁ h₂
    simp only [List.getElem_drop, List.getElem_map, List.getElem_range, List.length_append,
      List.length_take]
    omega

theorem Aligned.truncatePrefix (h : m.Aligned) (index : Int) : (m.truncatePrefix index).Aligned :=
  aligned_rewriteFile (h.dropPrefix index).mirror.1 (h.dropPrefix index).mirror.2
    (h.dropPrefix index).sound

theorem Aligned.resetFromLogs (h : m.Aligned) (hc : Consecutive logs.tail)
    (hg : ∀ e ∈ logs.tail, Good e) : (m.resetFromLogs logs).Aligned := by
  unfold SegmentLogStorage.resetFromLogs
  split_ifs
  · exact h
  · exact aligned_rewriteFile hc hg h.sound

theorem aligned_rebuild {file : List LogEntry} (hc : Consecutive file) (hg : ∀ e ∈ file, Good e) :
    (SegmentLogStorage.rebuild file).Aligned := by
  refine ⟨⟨[], rfl, List.map_congr_left fun i _ => by simp⟩, hc, hg, ?_⟩
  simpa [SegmentLogStorage.rebuild, Consecutive] using hc

end SegmentLogStorage

namespace Segment

/-- The bytes hold the records of the store, and an offset in bytes is one in records. -/
structure Stores (s : Storage) (m : SegmentLogStorage) : Prop where
  entries : s.entries = m.entries
  file : s.file = records m.file
  offsets : s.offsets = m.offsets.map fun k => (records (m.file.take k)).length
  fileSize : s.fileSize = s.file.length
  aborted : s.aborted = m.aborted

variable {s : Storage} {m : SegmentLogStorage} {e : LogEntry} {logs : List LogEntry}

theorem record_ne_nil (e : LogEntry) : record e ≠ [] := by
  refine List.length_pos_iff.mp ?_
  rw [record_length]
  omega

theorem records_eq_nil {es : List LogEntry} : records es = [] ↔ es = [] := by
  cases es with
  | nil => simp
  | cons e es => simp [record_ne_nil]

theorem pwrite_end (file buf : Bytes) : pwrite file buf file.length = file ++ buf := by
  simp [pwrite]

theorem Stores.writeRecord (h : Stores s m) (hle : ∀ k ∈ m.offsets, k ≤ m.file.length) (e : LogEntry) :
    Stores (s.writeRecord e) (m.writeRecord e) := by
  have hfile : (s.writeRecord e).file = records (m.file ++ [e]) := by
    rw [Storage.writeRecord, h.fileSize, pwrite_end, h.file]
    simp
  refine ⟨h.entries, hfile, ?_, ?_, h.aborted⟩
  · show s.offsets ++ [s.fileSize + (record e).length] =
      (m.offsets ++ [m.file.length + 1]).map fun k => (records ((m.file ++ [e]).take k)).length
    rw [List.map_append, h.offsets, h.fileSize, h.file]
    refine congrArg₂ _ (List.map_congr_left fun k hk => ?_) ?_
    · rw [List.take_append_of_le_length (hle k hk)]
    · simp [List.take_of_length_le]
  · rw [hfile, Storage.writeRecord, h.fileSize, h.file]
    simp

theorem Stores.foldl_writeRecord (l : List LogEntry) (h : Stores s m)
    (hle : ∀ k ∈ m.offsets, k ≤ m.file.length) :
    Stores (l.foldl Storage.writeRecord s) (l.foldl SegmentLogStorage.writeRecord m) := by
  induction l generalizing s m with
  | nil => exact h
  | cons e l ih =>
    refine ih (h.writeRecord hle e) fun k hk => ?_
    simp only [SegmentLogStorage.writeRecord, List.mem_append, List.mem_singleton, List.length_append,
      List.length_singleton] at hk ⊢
    rcases hk with hk | rfl
    · exact (hle k hk).trans (Nat.le_succ _)
    · exact le_rfl

theorem Stores.rewriteFile (h : Stores s m) : Stores s.rewriteFile m.rewriteFile := by
  rw [Storage.rewriteFile, SegmentLogStorage.rewriteFile, h.entries]
  refine Stores.foldl_writeRecord _ ⟨rfl, ?_, rfl, ?_, h.aborted⟩ (by simp)
  · simp [ftruncate]
  · simp [ftruncate]

/-- The test of `Append` for a file that holds only what the snapshot covers. -/
theorem Stores.stale_iff (h : Stores s m) :
    s.entries.isEmpty ∧ 0 < s.fileSize ↔ m.entries.isEmpty ∧ m.file ≠ [] := by
  rw [h.entries, h.fileSize, h.file, List.length_pos_iff, ne_eq, records_eq_nil]

theorem Stores.append (h : Stores s m) (ha : m.Aligned) (e : LogEntry) :
    Stores (s.append e) (m.append e) := by
  have hgo : ∀ {s : Storage} {m : SegmentLogStorage}, Stores s m →
      (∀ k ∈ m.offsets, k ≤ m.file.length) →
      Stores
        (if (s.entries.getLast?.map fun l => decide (e.index ≠ l.index + 1)).getD false then
          { s with aborted := true }
        else
          let s := s.writeRecord e
          { s with entries := s.entries ++ [e] })
        (if (m.entries.getLast?.map fun l => decide (e.index ≠ l.index + 1)).getD false then
          { m with aborted := true }
        else
          let m := m.writeRecord e
          { m with entries := m.entries ++ [e] }) := by
    intro s m h hle
    rw [h.entries]
    split_ifs
    · exact ⟨rfl, h.file, h.offsets, h.fileSize, rfl⟩
    · obtain ⟨hentries, hfile, hoff, hsize, hab⟩ := h.writeRecord hle e
      exact ⟨by simp only [hentries], hfile, hoff, hsize, hab⟩
  unfold Storage.append SegmentLogStorage.append
  by_cases hempty : m.entries.isEmpty ∧ m.file ≠ []
  · simp only [if_pos hempty, if_pos (h.stale_iff.mpr hempty)]
    refine hgo h.rewriteFile fun k hk => ?_
    rw [SegmentLogStorage.rewriteFile_eq] at hk ⊢
    obtain ⟨i, hi, rfl⟩ := List.mem_map.mp hk
    exact List.mem_range.mp hi
  · simp only [if_neg hempty, if_neg (h.stale_iff.not.mpr hempty)]
    exact hgo h ha.offsets_le

theorem take_records (es : List LogEntry) (k : Nat) :
    (records es).take (records (es.take k)).length = records (es.take k) := by
  conv_lhs => rw [← List.take_append_drop k es, records_append]
  rw [List.take_append_drop]
  exact List.take_left' rfl

theorem records_take_le (es : List LogEntry) (k : Nat) :
    (records (es.take k)).length ≤ (records es).length := by
  have hlen := congrArg List.length (take_records es k)
  rw [List.length_take] at hlen
  omega

theorem ftruncate_records (es : List LogEntry) (k : Nat) :
    ftruncate (records es) (records (es.take k)).length = records (es.take k) := by
  rw [ftruncate, Nat.sub_eq_zero_of_le (records_take_le es k), List.replicate_zero, List.append_nil,
    take_records]

theorem Stores.truncateSuffix (h : Stores s m) (ha : m.Aligned) (index : Int) :
    Stores (s.truncateSuffix index) (m.truncateSuffix index) := by
  obtain ⟨-, hle⟩ := ha.truncateSuffix index
  obtain ⟨front, hfile, hoff⟩ := ha.front
  have hkeep := SegmentLogStorage.upTo_le m.entries index
  have hsize : (if 0 < SegmentLogStorage.upTo m.entries index then
      s.offsets.getD (SegmentLogStorage.upTo m.entries index - 1) 0 else 0) =
      (records (m.file.take (if SegmentLogStorage.upTo m.entries index = 0 then 0
        else m.offsets.getD (SegmentLogStorage.upTo m.entries index - 1) 0))).length := by
    by_cases hz : SegmentLogStorage.upTo m.entries index = 0
    · simp [hz]
    · have hlt : SegmentLogStorage.upTo m.entries index - 1 < m.offsets.length := by
        rw [hoff, List.length_map, List.length_range]
        omega
      rw [if_pos (Nat.pos_of_ne_zero hz), if_neg hz, h.offsets, List.getD_eq_getElem?_getD,
        List.getElem?_map, List.getElem?_eq_getElem hlt, List.getD_eq_getElem?_getD,
        List.getElem?_eq_getElem hlt]
      rfl
  have hftruncate : ∀ k, ftruncate s.file (records (m.file.take k)).length = records (m.file.take k) :=
    fun k => by rw [h.file, ftruncate_records]
  unfold SegmentLogStorage.truncateSuffix at hle
  simp only at hle
  unfold Storage.truncateSuffix SegmentLogStorage.truncateSuffix
  rw [h.entries]
  unfold SegmentLogStorage.upTo at hkeep hsize
  simp only [hsize]
  generalize (if (m.entries.takeWhile fun e => decide (e.index ≤ index)).length = 0 then 0
    else m.offsets.getD ((m.entries.takeWhile fun e => decide (e.index ≤ index)).length - 1) 0) = size
    at hle ⊢
  refine ⟨rfl, hftruncate size, ?_, ?_, h.aborted⟩
  · show s.offsets.take _ = _
    rw [h.offsets, ← List.map_take]
    refine List.map_congr_left fun k hk => ?_
    have hk' := hle k hk
    rw [List.length_take] at hk'
    rw [List.take_take, Nat.min_eq_left (by omega)]
  · show _ = (ftruncate s.file _).length
    rw [hftruncate]

theorem Stores.dropPrefix (h : Stores s m) (index : Int) :
    Stores (s.dropPrefix index) (m.dropPrefix index) := by
  unfold Storage.dropPrefix SegmentLogStorage.dropPrefix
  rw [h.entries]
  refine ⟨rfl, h.file, ?_, h.fileSize, h.aborted⟩
  show s.offsets.drop _ = _
  rw [h.offsets, ← List.map_drop]

theorem Stores.truncatePrefix (h : Stores s m) (index : Int) :
    Stores (s.truncatePrefix index) (m.truncatePrefix index) := (h.dropPrefix index).rewriteFile

/-- Equal encodings are equal entries. -/
theorem encodeEntry_inj {l l' : List LogEntry} (hl : ∀ e ∈ l, Good e) (hl' : ∀ e ∈ l', Good e) :
    l.map encodeEntry = l'.map encodeEntry ↔ l = l' := by
  have hback : ∀ l : List LogEntry, (∀ e ∈ l, Good e) → (l.map encodeEntry).map decodeEntry = l := by
    intro l hl
    rw [List.map_map]
    refine (List.map_congr_left fun e he => ?_).trans (List.map_id l)
    have hdec := decodeEntry_encodeEntry (hl e he).fits []
    rwa [List.append_nil] at hdec
  constructor
  · intro heq
    rw [← hback l hl, heq, hback l' hl']
  · rintro rfl
    rfl

theorem Stores.resetFromLogs (h : Stores s m) (ha : m.Aligned) (hg : ∀ e ∈ logs.tail, Good e) :
    Stores (s.resetFromLogs logs) (m.resetFromLogs logs) := by
  unfold Storage.resetFromLogs SegmentLogStorage.resetFromLogs
  rw [h.entries]
  simp only [encodeEntry_inj ha.mirror.2 hg]
  split_ifs
  · exact h
  · exact Stores.rewriteFile ⟨rfl, h.file, h.offsets, h.fileSize, h.aborted⟩

theorem stores_rebuild {run : List LogEntry} (hg : ∀ e ∈ run, Good e) (hc : Consecutive run) (n : Nat) :
    Stores (rebuild ((records run).take n)) (SegmentLogStorage.rebuild (contained run n)) ∧
      (SegmentLogStorage.rebuild (contained run n)).Aligned := by
  obtain ⟨t, ht⟩ := contained_prefix run n
  have hcons : Consecutive (contained run n) := by
    rw [← ht] at hc
    exact hc.left_of_append
  have hgood : ∀ e ∈ contained run n, Good e := fun e he =>
    hg e (by rw [← ht]; exact List.mem_append_left _ he)
  have haligned := SegmentLogStorage.aligned_rebuild hcons hgood
  rw [rebuild_take hg hc]
  refine ⟨⟨rfl, rfl, ?_, rfl, haligned.sound.symm⟩, haligned⟩
  show _ = ((List.range (contained run n).length).map (· + 1)).map _
  rw [List.map_map]
  rfl

/-- The stores that the calls lead to, a restart after a torn write being one of them. `ok` says which
logs `ResetFromLogs` is given. -/
inductive Reached (ok : List LogEntry → Prop) : Storage → Prop where
  | fresh : Reached ok (rebuild [])
  | append {s : Storage} {e : LogEntry} (h : Reached ok s) (he : Good e)
    (hn : ∀ l, s.entries.getLast? = some l → e.index = l.index + 1) : Reached ok (s.append e)
  | truncateSuffix {s : Storage} (index : Int) (h : Reached ok s) : Reached ok (s.truncateSuffix index)
  | dropPrefix {s : Storage} (index : Int) (h : Reached ok s) : Reached ok (s.dropPrefix index)
  | truncatePrefix {s : Storage} (index : Int) (h : Reached ok s) : Reached ok (s.truncatePrefix index)
  | resetFromLogs {s : Storage} {logs : List LogEntry} (h : Reached ok s) (hok : ok logs) :
    Reached ok (s.resetFromLogs logs)
  | reopen {s : Storage} (n : Nat) (h : Reached ok s) : Reached ok (rebuild (s.file.take n))

/-- A log behind its sentinel, as `Raft` keeps it. -/
def Numbered (logs : List LogEntry) : Prop := Consecutive logs.tail ∧ ∀ e ∈ logs.tail, Good e

theorem Reached.stores (h : Reached Numbered s) : ∃ m : SegmentLogStorage, m.Aligned ∧ Stores s m := by
  induction h with
  | fresh =>
    obtain ⟨hs, ha⟩ := stores_rebuild (List.forall_mem_nil Good) List.isChain_nil 0
    exact ⟨_, ha, hs⟩
  | append _ he hn ih =>
    obtain ⟨m, ha, hs⟩ := ih
    rw [hs.entries] at hn
    exact ⟨_, ha.append he hn, hs.append ha _⟩
  | truncateSuffix index _ ih =>
    obtain ⟨m, ha, hs⟩ := ih
    exact ⟨_, (ha.truncateSuffix index).1, hs.truncateSuffix ha index⟩
  | dropPrefix index _ ih =>
    obtain ⟨m, ha, hs⟩ := ih
    exact ⟨_, ha.dropPrefix index, hs.dropPrefix index⟩
  | truncatePrefix index _ ih =>
    obtain ⟨m, ha, hs⟩ := ih
    exact ⟨_, ha.truncatePrefix index, hs.truncatePrefix index⟩
  | resetFromLogs _ hok ih =>
    obtain ⟨m, ha, hs⟩ := ih
    exact ⟨_, ha.resetFromLogs hok.1 hok.2, hs.resetFromLogs ha hok.2⟩
  | reopen n _ ih =>
    obtain ⟨m, ha, hs⟩ := ih
    obtain ⟨hs', ha'⟩ := stores_rebuild ha.good ha.consecutive n
    rw [hs.file]
    exact ⟨_, ha', hs'⟩

/-- What the file of a store is to be like, and how it is opened when it was cut off. -/
structure Recovers (s : Storage) : Prop where
  whole : ∃ run, s.file = records run ∧ Consecutive run ∧ s.entries <:+ run ∧
    s.offsets = (List.range s.entries.length).map (fun i =>
      (records (run.take (run.length - s.entries.length + (i+1)))).length) ∧
    ∀ n, (rebuild (s.file.take n)).aborted = false ∧
      (rebuild (s.file.take n)).entries = contained run n
  sound : s.aborted = false

/-- The file of every store is recovered from wherever it was cut off, when the logs that the store is
reset from are numbered. -/
theorem segment_recovery (s : Storage) (h : Reached Numbered s) : Recovers s := by
  obtain ⟨m, ha, hs⟩ := h.stores
  obtain ⟨front, hfile, hoff⟩ := ha.front
  refine ⟨⟨m.file, hs.file, ha.consecutive, ?_, ?_, fun n => ?_⟩, hs.aborted.trans ha.sound⟩
  · rw [hs.entries, hfile]
    exact List.suffix_append _ _
  · have hlen : m.file.length - m.entries.length = front.length := by
      rw [hfile, List.length_append, Nat.add_sub_cancel]
    rw [hs.offsets, hoff, hs.entries, List.map_map, hlen]
    rfl
  · rw [hs.file, rebuild_take ha.good ha.consecutive]
    exact ⟨rfl, rfl⟩

/-- An entry of term 1 with an empty command. -/
def plain (index : Int) : LogEntry := { term := 1, index := index }

theorem good_plain : Good (plain 1) ∧ Good (plain 2) ∧ Good (plain 3) := by
  refine ⟨⟨?_, by decide +kernel⟩, ⟨?_, by decide +kernel⟩, ⟨?_, by decide +kernel⟩⟩
  all_goals exact ⟨by simp [Fits64, plain], by simp [Fits64, plain], by simp [plain],
    by simp [Fits32, plain, EntryType.toInt], by simp [Fits32, plain], by simp [Fits32, plain]⟩

/-- Two appends, a prefix that is dropped from the mirror only, and a third append. -/
theorem segment_recovery_dropped :
    Recovers ((((rebuild []).append (plain 1)).append (plain 2)).dropPrefix 1 |>.append (plain 3)) :=
  segment_recovery _ <|
    .append (.dropPrefix 1 (.append (.append .fresh good_plain.1 fun l hl => by cases hl)
      good_plain.2.1 fun l hl => by cases hl; rfl)) good_plain.2.2 fun l hl => by cases hl; rfl

/-- A store that is reset from a log with a gap is written out, and does not come up again. -/
theorem gapped_reset_aborts : ¬ ∀ s, Reached (fun _ => True) s → Recovers s := by
  intro h
  have hreached : Reached (fun _ => True)
      ((rebuild []).resetFromLogs [sentinel 0 0, plain 1, plain 3]) := .resetFromLogs .fresh trivial
  obtain ⟨run, -, -, -, -, hrebuild⟩ := (h _ hreached).whole
  have haborted := (hrebuild 100).1
  revert haborted
  decide +kernel

end Segment

end ChonKV
