import ChonKV.Kv.Server

/-!
A snapshot brings back the state it was taken from, with the order of its sessions and of its fence.
-/

set_option autoImplicit false

namespace ChonKV

open Assoc Framing

namespace KVState

/-- The counts of a snapshot are `int`s, and strings have `size_t` lengths. -/
structure Fits (s : KVState) : Prop where
  store : s.kvStore.entries.length < 2^31
  strings : ∀ p ∈ s.kvStore.entries, p.1.length < 2^64 ∧ p.2.length < 2^64
  sessions : s.sessions.rows.length < 2^31
  fence : s.fenceFifo.length < 2^31

theorem ofNat_nonneg {n : Nat} (h : n < 2^31) : ¬ Int32.ofNat n < 0 := by
  rw [Int32.lt_iff_toInt_lt, Int32.toInt_ofNat_of_lt h]
  exact Int.not_lt.mpr (Int.natCast_nonneg n)

theorem frames_size {n : Nat} (h : n < 2^31) :
    Frames (Encoder.int (Int32.ofNat n)) readSize n := by
  refine (frames_int _).bind_pure ?_
  rw [if_neg (ofNat_nonneg h), Int32.toNatClampNeg_ofNat_of_lt h]

theorem frames_pair {p : Bytes × Bytes} (h : p.1.length < 2^64 ∧ p.2.length < 2^64) :
    Frames (encodePair p) readPair p :=
  (frames_bytes h.1).next <| (frames_bytes h.2).last rfl

theorem frames_row (r : SessionRow) : Frames (encodeRow r) readRow r :=
  (frames_int r.1).next <| (frames_zigzag r.2.lastSeq).next <| (frames_varint r.2.lastIndex).last rfl

theorem frames_fence (f : Int32 × Int64) : Frames (encodeFence f) readFence f :=
  (frames_int f.1).next <| (frames_zigzag f.2).last rfl

/-- The clients of the fence with their tombstones are the fence. -/
theorem keys_fenceRecs {s : KVState} (h : s.Queued) : keys s.fenceRecs = s.fenceFifo := by
  rw [keys, fenceRecs, List.map_filterMap]
  conv_rhs => rw [← List.filterMap_some (l := s.fenceFifo)]
  refine List.filterMap_congr fun c hc => ?_
  obtain ⟨v, hv⟩ := Option.ne_none_iff_exists'.mp ((h.mem c).mp hc)
  rw [hv]
  rfl

theorem find_fenceRecs {s : KVState} (h : s.Queued) (c : Int32) :
    find c s.fenceRecs = s.fenced c := by
  cases hv : s.fenced c with
  | none =>
    rw [find_eq_none, keys_fenceRecs h, h.mem, hv]
    exact fun hne => hne rfl
  | some v =>
    refine find_of_mem (by rw [keys_fenceRecs h]; exact h.nodup) (List.mem_filterMap.mpr ⟨c, ?_, ?_⟩)
    · rw [h.mem, hv]
      exact Option.some_ne_none v
    · rw [hv]
      rfl

theorem readAll_encodeSnapshot {s : KVState} (h : s.Queued) (hf : s.Fits) :
    readAll readSnapshot s.encodeSnapshot =
      some (s.kvStore.entries, s.sessions.rows.reverse, s.fenceRecs) := by
  have hfence : s.fenceRecs.length < 2^31 := by
    have hlen := congrArg List.length (keys_fenceRecs h)
    rw [List.length_map] at hlen
    exact hlen ▸ hf.fence
  have hlen : s.sessions.rows.length = s.sessions.rows.reverse.length := List.length_reverse.symm
  have hframes : Frames s.encodeSnapshot readSnapshot
      (s.kvStore.entries, s.sessions.rows.reverse, s.fenceRecs) := by
    rw [encodeSnapshot, hlen]
    exact (frames_size hf.store).next <|
      (Frames.readN fun p hp => frames_pair (hf.strings p hp)).next <|
      (frames_size (hlen ▸ hf.sessions)).next <| (Frames.readN fun r _ => frames_row r).next <|
      (frames_size hfence).next <| (Frames.readN fun f _ => frames_fence f).last rfl
  exact hframes.readAll_eq

end KVState

/-- Sessions that are loaded from the oldest to the newest stand in the order they had. -/
theorem SessionTable.foldl_load : ∀ (l : List SessionRow) (t : SessionTable),
    (keys (l.reverse ++ t.rows)).Nodup →
    (l.foldl (fun t r => t.load r.1 r.2.lastSeq r.2.lastIndex) t).rows = l.reverse ++ t.rows ∧
    (l.foldl (fun t r => t.load r.1 r.2.lastSeq r.2.lastIndex) t).cap = t.cap ∧
    (l.foldl (fun t r => t.load r.1 r.2.lastSeq r.2.lastIndex) t).maxIdleIndex = t.maxIdleIndex
  | [], t, _ => ⟨rfl, rfl, rfl⟩
  | r :: l, t, h => by
    rw [List.reverse_cons, List.append_assoc, List.singleton_append] at h ⊢
    have hout : r.1 ∉ keys t.rows := by
      rw [keys, List.map_append, List.nodup_append] at h
      exact (List.nodup_cons.mp h.2.1).1
    have hload : t.load r.1 r.2.lastSeq r.2.lastIndex = t.bump r.1 r.2 := if_neg hout
    have hrows : (t.bump r.1 r.2).rows = r :: t.rows := by
      show Assoc.bump r.1 r.2 t.rows = _
      rw [Assoc.bump, remove_of_notMem hout]
    have ih := foldl_load l (t.bump r.1 r.2) (by rwa [hrows])
    rw [List.foldl_cons, hload]
    rw [hrows] at ih
    exact ih

namespace KVState

theorem foldl_loadFence : ∀ (l : List (Int32 × Int64)) (s : KVState), (keys l).Nodup →
    (∀ c ∈ keys l, s.fenced c = none) →
    (l.foldl loadFence s).fenceFifo = s.fenceFifo ++ keys l ∧
    (l.foldl loadFence s).fenced = (fun c => (find c l).or (s.fenced c)) ∧
    (l.foldl loadFence s).kvStore = s.kvStore ∧ (l.foldl loadFence s).sessions = s.sessions
  | [], s, _, _ => ⟨(List.append_nil _).symm, rfl, rfl, rfl⟩
  | (cid, seq) :: l, s, hn, hout => by
    obtain ⟨hcid, hn⟩ := List.nodup_cons.mp hn
    have hload : s.loadFence (cid, seq) = { s with
        fenced := s.setFence cid (some seq)
        fenceFifo := s.fenceFifo ++ [cid] } := by
      rw [loadFence, hout cid List.mem_cons_self]
    obtain ⟨hfifo, hfenced, hkv, hsessions⟩ := foldl_loadFence l (s.loadFence (cid, seq)) hn
      fun c hc => by
        have hne : c ≠ cid := fun heq => hcid (heq ▸ hc)
        rw [hload]
        exact (if_neg hne).trans (hout c (List.mem_cons_of_mem _ hc))
    rw [hload] at hfifo hfenced hkv hsessions
    rw [List.foldl_cons, hload]
    refine ⟨hfifo.trans (by rw [List.append_assoc]; rfl), hfenced.trans (funext fun c => ?_), hkv,
      hsessions⟩
    show (find c l).or (if c = cid then some seq else s.fenced c) =
      (if cid = c then some seq else find c l).or (s.fenced c)
    by_cases heq : cid = c
    · subst heq
      rw [find_eq_none.mpr hcid, if_pos rfl, if_pos rfl, Option.none_or, Option.some_or]
    · rw [if_neg heq, if_neg (Ne.symm heq)]

/-- `ApplySnapshotLocked` on what `EncodeSnapshotLocked` wrote. -/
theorem applySnapshot_encodeSnapshot {s t : KVState} (h : s.Queued) (hf : s.Fits)
    (hcap : t.sessions.cap = s.sessions.cap)
    (hidle : t.sessions.maxIdleIndex = s.sessions.maxIdleIndex) :
    t.applySnapshot s.encodeSnapshot = some s := by
  rw [applySnapshot, readAll_encodeSnapshot h hf, Option.map_some]
  obtain ⟨hrows, hcap', hidle'⟩ := SessionTable.foldl_load s.sessions.rows.reverse t.sessions.clear
    (by
      rw [List.reverse_reverse]
      exact (List.append_nil s.sessions.rows).symm ▸ s.sessions.distinct)
  rw [List.reverse_reverse] at hrows
  have hsessions : s.sessions.rows.reverse.foldl (fun t r => t.load r.1 r.2.lastSeq r.2.lastIndex)
      t.sessions.clear = s.sessions :=
    SessionTable.ext (hcap'.trans hcap) (hidle'.trans hidle) (hrows.trans (List.append_nil _))
  obtain ⟨hfifo, hfenced, hkv, hsess⟩ := foldl_loadFence s.fenceRecs
    { kvStore := OrderedMap.empty.insertAll s.kvStore.entries
      sessions := s.sessions
      fenced := fun _ => none
      fenceFifo := [] } (by rw [keys_fenceRecs h]; exact h.nodup) fun _ _ => rfl
  dsimp only
  rw [hsessions]
  refine congrArg some (KVState.ext (hkv.trans (OrderedMap.insertAll_entries _)) hsess
    (hfenced.trans (funext fun c => ?_)) (hfifo.trans ?_))
  · rw [Option.or_none, find_fenceRecs h]
  · exact keys_fenceRecs h

end KVState
end ChonKV
