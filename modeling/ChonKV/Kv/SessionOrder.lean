import ChonKV.Kv.SessionLru

/-!
The list of a `SessionTable` is sorted by the last access as long as the clock does not run backwards
behind what was loaded, and then `Reap` evicts what it should, from the back.
-/

set_option autoImplicit false

namespace ChonKV

open Assoc

namespace SessionTable

variable {maxIdleIndex nowIndex : UInt64} {cap : Nat} {back : List SessionRow}

theorem idle_eq {e : SessionEntry} (h : e.lastIndex ≤ nowIndex) :
    e.idle nowIndex = nowIndex - e.lastIndex := if_pos h

/-- Where the last accesses ascend, the first loop evicts all that were idle for too long. -/
theorem reapIdle_sorted (hs : back.Pairwise fun a b => a.2.lastIndex ≤ b.2.lastIndex)
    (hnow : ∀ r ∈ back, r.2.lastIndex ≤ nowIndex) :
    reapIdle maxIdleIndex nowIndex back =
        back.filter (fun r => decide (maxIdleIndex < nowIndex - r.2.lastIndex)) ∧
      back.drop (reapIdle maxIdleIndex nowIndex back).length =
        back.filter (fun r => decide (nowIndex - r.2.lastIndex ≤ maxIdleIndex)) := by
  induction back with
  | nil => exact ⟨rfl, rfl⟩
  | cons r back ih =>
    obtain ⟨hr, hs⟩ := List.pairwise_cons.mp hs
    obtain ⟨ih₁, ih₂⟩ := ih hs fun q hq => hnow q (by simp [hq])
    rw [reapIdle, idle_eq (hnow r (by simp))]
    by_cases hle : nowIndex - r.2.lastIndex ≤ maxIdleIndex
    · have hall : ∀ q ∈ r :: back, nowIndex - q.2.lastIndex ≤ maxIdleIndex := by
        intro q hq
        rcases List.mem_cons.mp hq with rfl | hmem
        · exact hle
        · have hrq := hr q hmem
          have hqn := hnow q hq
          have hrn := hnow r (by simp)
          rw [UInt64.le_iff_toNat_le] at hrq hqn hrn hle ⊢
          rw [UInt64.toNat_sub_of_le _ _ hrn] at hle
          rw [UInt64.toNat_sub_of_le _ _ hqn]
          omega
      rw [if_pos hle]
      constructor
      · refine (List.filter_eq_nil_iff.mpr fun q hq => ?_).symm
        simpa using hall q hq
      · exact (List.filter_eq_self.mpr fun q hq => decide_eq_true (hall q hq)).symm
    · rw [if_neg hle, List.filter_cons_of_pos (by simpa using hle),
        List.filter_cons_of_neg (by simpa using hle)]
      exact ⟨congrArg (r :: ·) ih₁, ih₂⟩

/-- The second loop takes off what is too much. -/
theorem reapOver_eq (cap : Nat) (back : List SessionRow) :
    reapOver cap back = back.take (back.length - cap) := by
  induction back with
  | nil => simp [reapOver]
  | cons r back ih =>
    rw [reapOver, List.length_cons]
    split_ifs with hle
    · rw [Nat.sub_eq_zero_of_le hle, List.take_zero]
    · rw [ih, Nat.sub_add_comm (by omega), List.take_succ_cons]

end SessionTable

namespace Lru
namespace Table

variable {t src : Table} {v : SessionTable} {cid : Int32} {now srcNow : UInt64}

/-- What the two containers hold is what the one-list table holds. -/
structure Shows (t : Table) (v : SessionTable) : Prop where
  coherent : t.Coherent
  cap : v.cap = t.cap
  maxIdleIndex : v.maxIdleIndex = t.maxIdleIndex
  rows : v.rows = t.rows

def Visit.ofRow (r : SessionRow) : Visit := (r.1, r.2.lastSeq, r.2.lastIndex)

/-- `ForEach` goes through the sessions from the one that was used longest ago. -/
theorem forEach_eq (t : Table) : t.forEach = t.rows.reverse.map Visit.ofRow := by
  rw [forEach, rows, List.filterMap_reverse, List.map_reverse, List.map_filterMap]
  congr 1
  refine List.filterMap_congr fun n _ => ?_
  rw [rowOf, Option.map_map]
  rfl

theorem Coherent.find_rows (h : t.Coherent) (cid : Int32) : find cid t.rows =
    (find cid t.entries).map fun e => ⟨e.lastSeq, e.lastIndex⟩ := by
  have hn : (keys t.rows).Nodup := by
    rw [h.keys_rows]
    exact h.nodup_lru
  cases hf : find cid t.entries with
  | none =>
    rw [Option.map_none, find_eq_none, h.keys_rows, h.mem_lru]
    exact find_eq_none.mp hf
  | some e =>
    refine find_of_mem hn (List.mem_filterMap.mpr ⟨_, h.listed cid e hf, ?_⟩)
    rw [rowOf, hf]
    rfl

theorem Shows.get (h : Shows t v) (cid : Int32) (now : UInt64) :
    (t.get cid now).1 = (v.get cid now).1 ∧ Shows (t.get cid now).2 (v.get cid now).2 := by
  have hfind := h.coherent.find_rows cid
  rw [← h.rows] at hfind
  rw [Table.get, SessionTable.get]
  cases hf : find cid t.entries with
  | none =>
    rw [hf, Option.map_none] at hfind
    rw [hfind]
    exact ⟨rfl, h⟩
  | some e =>
    rw [hf, Option.map_some] at hfind
    obtain ⟨hc, hr⟩ := h.coherent.touch _ hf rfl now
    rw [hfind]
    refine ⟨rfl, hc, h.cap, h.maxIdleIndex, ?_⟩
    rw [hr, ← h.rows]
    rfl

theorem Shows.put (h : Shows t v) (cid : Int32) (seq : Int64) (now : UInt64) :
    Shows (t.put cid seq now) (v.put cid seq now) := by
  rw [Table.put]
  cases hf : find cid t.entries with
  | none =>
    obtain ⟨hc, hr⟩ := h.coherent.emplace hf seq now
    exact ⟨hc, h.cap, h.maxIdleIndex, by rw [hr, ← h.rows]; rfl⟩
  | some e =>
    obtain ⟨hc, hr⟩ := h.coherent.touch { e with lastSeq := seq } hf rfl now
    exact ⟨hc, h.cap, h.maxIdleIndex, by rw [hr, ← h.rows]; rfl⟩

theorem Shows.clear (h : Shows t v) : Shows t.clear v.clear where
  coherent := ⟨List.nodup_nil, List.nodup_nil, by simp [Table.clear], by simp [Table.clear],
    fun c e hc => by cases hc⟩
  cap := h.cap
  maxIdleIndex := h.maxIdleIndex
  rows := rfl

/-- A session that is there already is loaded where it stands. -/
theorem Coherent.overwrite (h : t.Coherent) {e : Entry} (e' : Entry) (he : find cid t.entries = some e)
    (hit : e'.lruIt = e.lruIt) :
    ({ t with entries := bump cid e' t.entries } : Table).Coherent ∧
      ({ t with entries := bump cid e' t.entries } : Table).rows =
        t.rows.map fun r => if r.1 = cid then (r.1, ⟨e'.lastSeq, e'.lastIndex⟩) else r := by
  refine ⟨⟨nodup_bump h.distinct, h.its, h.fresh, fun n hn => ?_, fun c ec hc => ?_⟩, ?_⟩
  · obtain ⟨en, hen, hnit⟩ := h.node n hn
    by_cases hc : cid = n.cid
    · refine ⟨e', by rw [find_bump, if_pos hc], ?_⟩
      rw [hit]
      exact ((h.it_iff he hn).mpr hc.symm).symm
    · exact ⟨en, by rw [find_bump, if_neg hc, hen], hnit⟩
  · rw [find_bump] at hc
    split_ifs at hc with hcc
    · cases hc
      rw [hit, ← hcc]
      exact h.listed cid e he
    · exact h.listed c ec hc
  · rw [rows, rows, List.map_filterMap]
    refine List.filterMap_congr fun n _ => ?_
    by_cases hc : n.cid = cid
    · rw [rowOf, find_bump, if_pos hc.symm, rowOf, hc, he]
      simp
    · rw [rowOf_bump hc]
      cases hr : rowOf t.entries n with
      | none => rfl
      | some r => simp [rowOf_fst hr, hc]

theorem Shows.load (h : Shows t v) (cid : Int32) (seq : Int64) (index : UInt64) :
    Shows (t.load cid seq index) (v.load cid seq index) := by
  have hkeys : cid ∈ keys v.rows ↔ cid ∈ keys t.entries := by
    rw [h.rows, h.coherent.keys_rows, h.coherent.mem_lru]
  rw [Table.load, SessionTable.load]
  cases hf : find cid t.entries with
  | none =>
    obtain ⟨hc, hr⟩ := h.coherent.emplace hf seq index
    rw [if_neg (hkeys.not.mpr (find_eq_none.mp hf))]
    exact ⟨hc, h.cap, h.maxIdleIndex, by rw [hr, ← h.rows]; rfl⟩
  | some e =>
    have hmem : cid ∈ keys t.entries := by
      by_contra hnot
      rw [find_eq_none.mpr hnot] at hf
      cases hf
    obtain ⟨hc, hr⟩ := h.coherent.overwrite { e with lastSeq := seq, lastIndex := index } hf rfl
    rw [if_pos (hkeys.mpr hmem)]
    exact ⟨hc, h.cap, h.maxIdleIndex, by rw [hr, ← h.rows]⟩

theorem Shows.foldl_load (h : Shows t v) (l : List SessionRow) :
    Shows (t.loadAll (l.map Visit.ofRow))
      (l.foldl (fun t r => t.load r.1 r.2.lastSeq r.2.lastIndex) v) := by
  induction l generalizing t v with
  | nil => exact h
  | cons r l ih => exact ih (h.load r.1 r.2.lastSeq r.2.lastIndex)

/-- The last node of the list, its session and what the eviction of it leaves. -/
theorem Coherent.back (h : t.Coherent) {n : Node} (hn : t.lru.getLast? = some n) :
    ∃ e front, find n.cid t.entries = some e ∧
      t.rows = front ++ [(n.cid, ⟨e.lastSeq, e.lastIndex⟩)] ∧
      (t.evict n.cid e).Coherent ∧ (t.evict n.cid e).rows = front ∧
      t.lru.length = (t.evict n.cid e).lru.length + 1 := by
  obtain ⟨init, hinit⟩ := List.getLast?_eq_some_iff.mp hn
  obtain ⟨e, he, -⟩ := h.node n (by simp [hinit])
  have hrow : rowOf t.entries n = some (n.cid, ⟨e.lastSeq, e.lastIndex⟩) := by
    rw [rowOf, he, Option.map_some]
  have hrows : t.rows = init.filterMap (rowOf t.entries) ++ [(n.cid, ⟨e.lastSeq, e.lastIndex⟩)] := by
    rw [rows, hinit, List.filterMap_append, List.filterMap_cons_some hrow, List.filterMap_nil]
  obtain ⟨hc, hr⟩ := h.evict he
  have hnd : (keys t.rows).Nodup := by
    rw [h.keys_rows]
    exact h.nodup_lru
  have hfront : (t.evict n.cid e).rows = init.filterMap (rowOf t.entries) := by
    rw [hrows, keys, List.map_append, List.nodup_append] at hnd
    rw [hr, hrows, remove, List.filter_append, List.filter_cons_of_neg (by simp), List.filter_nil,
      List.append_nil]
    refine List.filter_eq_self.mpr fun r hr => decide_eq_true fun heq => ?_
    exact hnd.2.2 _ (List.mem_map_of_mem hr) n.cid (by simp) heq
  refine ⟨e, _, he, hrows, hc, hfront, ?_⟩
  rw [← h.length_rows, ← hc.length_rows, hfront, hrows, List.length_append, List.length_singleton]

def Visit.call (r : SessionRow) : Int32 × Int64 := (r.1, r.2.lastSeq)

/-- The first loop runs as it does over the rows. -/
theorem reapIdle_spec (now : UInt64) (fuel : Nat) (calls : List (Int32 × Int64)) (t : Table)
    (h : t.Coherent) (hf : t.lru.length ≤ fuel) :
    let gone := SessionTable.reapIdle t.maxIdleIndex now t.rows.reverse
    let p := reapIdle now fuel (calls, t)
    p.1 = calls ++ gone.map Visit.call ∧ p.2.Coherent ∧
      p.2.rows.reverse = t.rows.reverse.drop gone.length ∧ p.2.cap = t.cap ∧
      p.2.maxIdleIndex = t.maxIdleIndex := by
  induction fuel generalizing calls t with
  | zero =>
    have hrows : t.rows = [] := by
      rw [← List.length_eq_zero_iff, h.length_rows]
      exact Nat.le_zero.mp hf
    simp [reapIdle, hrows, SessionTable.reapIdle, h]
  | succ fuel ih =>
    cases hn : t.lru.getLast? with
    | none =>
      have hrows : t.rows = [] := by
        rw [← List.length_eq_zero_iff, h.length_rows, List.getLast?_eq_none_iff.mp hn]
        rfl
      simp [reapIdle, hn, hrows, SessionTable.reapIdle, h]
    | some n =>
      obtain ⟨e, front, he, hrows, hc, hfront, hlen⟩ := h.back hn
      have hrev : t.rows.reverse = (n.cid, ⟨e.lastSeq, e.lastIndex⟩) :: front.reverse := by
        rw [hrows, List.reverse_append]
        rfl
      have hidle : (⟨e.lastSeq, e.lastIndex⟩ : SessionEntry).idle now =
        if e.lastIndex ≤ now then now - e.lastIndex else 0 := rfl
      simp only [reapIdle, hn, he, hrev, SessionTable.reapIdle, hidle]
      by_cases hle : (if e.lastIndex ≤ now then now - e.lastIndex else 0) ≤ t.maxIdleIndex
      · simp [hle, h, hrows]
      · obtain ⟨h₁, h₂, h₃, h₄, h₅⟩ := ih (calls ++ [(n.cid, e.lastSeq)]) (t.evict n.cid e) hc
          (by omega)
        rw [hfront] at h₁ h₃
        rw [if_neg hle, if_neg hle]
        refine ⟨?_, h₂, ?_, h₄, h₅⟩
        · rw [h₁]
          simp [Visit.call, Table.evict]
        · rw [h₃]
          rfl

/-- So does the second loop. -/
theorem reapOver_spec (fuel : Nat) (calls : List (Int32 × Int64)) (t : Table) (h : t.Coherent)
    (hf : t.lru.length ≤ fuel) :
    let gone := SessionTable.reapOver t.cap t.rows.reverse
    let p := reapOver fuel (calls, t)
    p.1 = calls ++ gone.map Visit.call ∧ p.2.Coherent ∧
      p.2.rows.reverse = t.rows.reverse.drop gone.length ∧ p.2.cap = t.cap ∧
      p.2.maxIdleIndex = t.maxIdleIndex := by
  induction fuel generalizing calls t with
  | zero =>
    have hrows : t.rows = [] := by
      rw [← List.length_eq_zero_iff, h.length_rows]
      exact Nat.le_zero.mp hf
    simp [reapOver, hrows, SessionTable.reapOver, h]
  | succ fuel ih =>
    cases hn : t.lru.getLast? with
    | none =>
      have hrows : t.rows = [] := by
        rw [← List.length_eq_zero_iff, h.length_rows, List.getLast?_eq_none_iff.mp hn]
        rfl
      simp [reapOver, hn, hrows, SessionTable.reapOver, h]
    | some n =>
      obtain ⟨e, front, he, hrows, hc, hfront, hlen⟩ := h.back hn
      have hrev : t.rows.reverse = (n.cid, ⟨e.lastSeq, e.lastIndex⟩) :: front.reverse := by
        rw [hrows, List.reverse_append]
        rfl
      have hsize : t.entries.length = front.reverse.length + 1 := by
        rw [h.length_eq, ← h.length_rows, hrows]
        simp
      simp only [reapOver, hn, he, hrev, SessionTable.reapOver, hsize]
      by_cases hle : front.reverse.length + 1 ≤ t.cap
      · rw [if_neg (by omega), if_pos hle]
        simp [h, hrows]
      · obtain ⟨h₁, h₂, h₃, h₄, h₅⟩ := ih (calls ++ [(n.cid, e.lastSeq)]) (t.evict n.cid e) hc
          (by omega)
        rw [hfront] at h₁ h₃
        rw [if_pos (by omega), if_neg hle]
        refine ⟨?_, h₂, ?_, h₄, h₅⟩
        · rw [h₁]
          simp [Visit.call, Table.evict]
        · rw [h₃]
          rfl

/-- `Reap` evicts what it evicts from the one-list table, one call of `on_evict` for each session. -/
theorem Shows.reap (h : Shows t v) (now : UInt64) :
    (t.reap now).1 = (v.reap now).1.map Visit.call ∧ Shows (t.reap now).2 (v.reap now).2 := by
  obtain ⟨h₁, h₂, h₃, h₄, h₅⟩ := reapIdle_spec now t.lru.length [] t h.coherent le_rfl
  obtain ⟨k₁, k₂, k₃, k₄, k₅⟩ := reapOver_spec _ (reapIdle now t.lru.length ([], t)).1 _ h₂ le_rfl
  rw [h₃, h₄] at k₁ k₃
  have hgone : v.evicted now = SessionTable.reapIdle t.maxIdleIndex now t.rows.reverse ++
      SessionTable.reapOver t.cap (t.rows.reverse.drop
        (SessionTable.reapIdle t.maxIdleIndex now t.rows.reverse).length) := by
    rw [SessionTable.evicted, h.rows, h.cap, h.maxIdleIndex]
  refine ⟨?_, k₂, ?_, ?_, ?_⟩
  · show _ = (v.evicted now).map Visit.call
    rw [hgone, List.map_append]
    exact k₁.trans (by rw [h₁, List.nil_append])
  · exact h.cap.trans (k₄.trans h₄).symm
  · exact h.maxIdleIndex.trans (k₅.trans h₅).symm
  · show v.rows.take (v.rows.length - (v.evicted now).length) = _
    rw [← List.reverse_inj, List.reverse_take, h.rows, hgone, List.length_append]
    refine Eq.trans ?_ k₃.symm
    rw [List.drop_drop]
    have hle := (SessionTable.prefix_evicted v now).length_le
    rw [hgone, h.rows, List.length_append, List.length_reverse] at hle
    congr 1
    omega

/-- The session that was used last is in front. -/
def Sorted (rows : List SessionRow) : Prop :=
  rows.Pairwise fun a b => b.2.lastIndex ≤ a.2.lastIndex

/-- What holds of a table whose clock stands at `now`. -/
structure Tidy (t : Table) (now : UInt64) : Prop where
  coherent : t.Coherent
  sorted : Sorted t.rows
  past : ∀ r ∈ t.rows, r.2.lastIndex ≤ now

theorem Tidy.later (h : t.Tidy now) {now' : UInt64} (hn : now ≤ now') : t.Tidy now' :=
  ⟨h.coherent, h.sorted, fun r hr => UInt64.le_trans (h.past r hr) hn⟩

/-- The one-list table with the same rows. -/
def view (t : Table) (h : t.Coherent) : SessionTable where
  cap := t.cap
  maxIdleIndex := t.maxIdleIndex
  rows := t.rows
  distinct := by
    rw [h.keys_rows]
    exact h.nodup_lru

theorem shows_view (h : t.Coherent) : Shows t (t.view h) := ⟨h, rfl, rfl, rfl⟩

/-- A session that is used now may be put in front. -/
theorem sorted_bump {rows : List SessionRow} {e : SessionEntry} (hs : Sorted rows)
    (hp : ∀ r ∈ rows, r.2.lastIndex ≤ e.lastIndex) : Sorted (bump cid e rows) :=
  List.pairwise_cons.mpr ⟨fun r hr => hp r (List.mem_of_mem_filter hr), List.Pairwise.filter _ hs⟩

theorem Tidy.bump (h : t.Tidy now) {t' : Table} {v : SessionTable} (hs : Shows t' v)
    {e : SessionEntry} (hr : v.rows = Assoc.bump cid e t.rows) (he : e.lastIndex = now) :
    t'.Tidy now := by
  rw [hs.rows] at hr
  refine ⟨hs.coherent, ?_, fun r hmem => ?_⟩
  · rw [hr]
    exact sorted_bump h.sorted fun r hmem => by
      rw [he]
      exact h.past r hmem
  · rw [hr] at hmem
    rcases List.mem_cons.mp hmem with rfl | hmem
    · rw [he]
      exact UInt64.le_refl _
    · exact h.past r (List.mem_of_mem_filter hmem)

theorem Tidy.get (h : t.Tidy now) (cid : Int32) : (t.get cid now).2.Tidy now := by
  have hs := ((shows_view h.coherent).get cid now).2
  rw [SessionTable.get] at hs
  cases hf : find cid (t.view h.coherent).rows with
  | none =>
    rw [hf] at hs
    have hrows : (t.get cid now).2.rows = t.rows := hs.rows.symm
    exact ⟨hs.coherent, hrows ▸ h.sorted, hrows ▸ h.past⟩
  | some e =>
    rw [hf] at hs
    exact h.bump hs rfl rfl

theorem Tidy.put (h : t.Tidy now) (cid : Int32) (seq : Int64) : (t.put cid seq now).Tidy now :=
  h.bump ((shows_view h.coherent).put cid seq now) rfl rfl

theorem Tidy.reap (h : t.Tidy now) : (t.reap now).2.Tidy now := by
  have hs := ((shows_view h.coherent).reap now).2
  have hpre := (t.view h.coherent).reap_rows now
  rw [hs.rows] at hpre
  have hrows : t.rows = (t.reap now).2.rows ++ _ := hpre
  have hsub : (t.reap now).2.rows.Sublist t.rows := by
    rw [hrows]
    exact List.sublist_append_left _ _
  exact ⟨hs.coherent, h.sorted.sublist hsub, fun r hr => h.past r (hsub.subset hr)⟩

/-- A list that `ForEach` produced brings the sessions back in the order they had. -/
theorem loadAll_forEach (h : t.Coherent) (hsrc : src.Coherent) :
    (t.clear.loadAll src.forEach).Coherent ∧ (t.clear.loadAll src.forEach).rows = src.rows := by
  have hclear := (shows_view h).clear
  have hload := hclear.foldl_load src.rows.reverse
  rw [← forEach_eq] at hload
  refine ⟨hload.coherent, ?_⟩
  have hnd : (keys (src.rows.reverse.reverse ++ (t.view h).clear.rows)).Nodup := by
    show (keys (src.rows.reverse.reverse ++ [])).Nodup
    rw [List.reverse_reverse, List.append_nil, hsrc.keys_rows]
    exact hsrc.nodup_lru
  obtain ⟨hrows, -⟩ := SessionTable.foldl_load src.rows.reverse (t.view h).clear hnd
  rw [← hload.rows, hrows, List.reverse_reverse]
  exact List.append_nil _

/-- The tables that calls with a clock that does not run backwards lead to. `ok` says which lists may be
loaded, and how the clock stands then. -/
inductive Reached (ok : List Visit → UInt64 → Prop) : Table → UInt64 → Prop
  | start (cap : Nat) (maxIdleIndex : UInt64) :
    Reached ok { cap := cap, maxIdleIndex := maxIdleIndex } 0
  | get {t : Table} {now : UInt64} (cid : Int32) (nowIndex : UInt64) (h : Reached ok t now)
    (hn : now ≤ nowIndex) : Reached ok (t.get cid nowIndex).2 nowIndex
  | put {t : Table} {now : UInt64} (cid : Int32) (seq : Int64) (nowIndex : UInt64)
    (h : Reached ok t now) (hn : now ≤ nowIndex) : Reached ok (t.put cid seq nowIndex) nowIndex
  | reap {t : Table} {now : UInt64} (nowIndex : UInt64) (h : Reached ok t now) (hn : now ≤ nowIndex) :
    Reached ok (t.reap nowIndex).2 nowIndex
  | load {t src : Table} {now srcNow : UInt64} (nowIndex : UInt64) (h : Reached ok t now)
    (hsrc : Reached ok src srcNow) (hn : now ≤ nowIndex) (hok : ok src.forEach nowIndex) :
    Reached ok (t.clear.loadAll src.forEach) nowIndex

/-- The clock has come to where the sessions of the list were used. -/
def Covered (l : List Visit) (now : UInt64) : Prop := ∀ w ∈ l, w.2.2 ≤ now

theorem Reached.tidy (h : Reached Covered t now) : t.Tidy now := by
  induction h with
  | start cap maxIdleIndex =>
    exact ⟨⟨List.nodup_nil, List.nodup_nil, by simp, by simp, fun c e hc => by cases hc⟩,
      List.Pairwise.nil, fun r hr => by cases hr⟩
  | get cid nowIndex _ hn ih => exact (ih.later hn).get cid
  | put cid seq nowIndex _ hn ih => exact (ih.later hn).put cid seq
  | reap nowIndex _ hn ih => exact (ih.later hn).reap
  | @load t src now srcNow nowIndex _ _ _ hok ih ihsrc =>
    obtain ⟨hc, hr⟩ := loadAll_forEach ih.coherent ihsrc.coherent
    refine ⟨hc, by rw [hr]; exact ihsrc.sorted, fun r hmem => hok (Visit.ofRow r) ?_⟩
    rw [hr] at hmem
    rw [forEach_eq]
    exact List.mem_map_of_mem (List.mem_reverse.mpr hmem)

/-- The sessions that were idle for too long, from the one that was used longest ago. -/
def idleOnes (t : Table) (nowIndex : UInt64) : List Visit :=
  t.forEach.filter fun w => decide (t.maxIdleIndex < nowIndex - w.2.2)

/-- The other sessions. -/
def activeOnes (t : Table) (nowIndex : UInt64) : List Visit :=
  t.forEach.filter fun w => decide (nowIndex - w.2.2 ≤ t.maxIdleIndex)

/-- What the list and the evictions are to be like. -/
structure Exact (t : Table) (now : UInt64) : Prop where
  nodup : (t.lru.map (·.cid)).Nodup
  same : ∀ cid, cid ∈ t.lru.map (·.cid) ↔ cid ∈ keys t.entries
  sorted : t.lru.Pairwise fun a b => ∀ ea eb, find a.cid t.entries = some ea →
    find b.cid t.entries = some eb → eb.lastIndex ≤ ea.lastIndex
  /-- Of the sessions that are not idle, as many go as there are over the capacity. -/
  evicts : ∀ nowIndex, now ≤ nowIndex →
    let excess := (t.activeOnes nowIndex).length - t.cap
    (t.reap nowIndex).1 =
        (t.idleOnes nowIndex ++ (t.activeOnes nowIndex).take excess).map (fun w => (w.1, w.2.1)) ∧
      (t.reap nowIndex).2.forEach = (t.activeOnes nowIndex).drop excess ∧
      (t.reap nowIndex).2.entries.length ≤ t.cap

theorem Tidy.evicts (h : t.Tidy now) :
    let excess := (t.activeOnes now).length - t.cap
    (t.reap now).1 =
        (t.idleOnes now ++ (t.activeOnes now).take excess).map (fun w => (w.1, w.2.1)) ∧
      (t.reap now).2.forEach = (t.activeOnes now).drop excess ∧
      (t.reap now).2.entries.length ≤ t.cap := by
  obtain ⟨hcalls, hs⟩ := (shows_view h.coherent).reap now
  have hasc : t.rows.reverse.Pairwise fun a b => a.2.lastIndex ≤ b.2.lastIndex :=
    List.pairwise_reverse.mpr h.sorted
  have hsplit : SessionTable.reapIdle t.maxIdleIndex now t.rows.reverse = _ ∧ _ :=
    SessionTable.reapIdle_sorted hasc fun r hr => h.past r (List.mem_reverse.mp hr)
  obtain ⟨hidle, hrest⟩ := hsplit
  have hidles : t.idleOnes now =
      (SessionTable.reapIdle t.maxIdleIndex now t.rows.reverse).map Visit.ofRow := by
    rw [idleOnes, forEach_eq, hidle, List.filter_map]
    rfl
  have hactive : t.activeOnes now = (t.rows.reverse.drop
      (SessionTable.reapIdle t.maxIdleIndex now t.rows.reverse).length).map Visit.ofRow := by
    rw [activeOnes, forEach_eq, hrest, List.filter_map]
    rfl
  have hgone : ((t.view h.coherent).reap now).1 =
      SessionTable.reapIdle t.maxIdleIndex now t.rows.reverse ++
        (t.rows.reverse.drop (SessionTable.reapIdle t.maxIdleIndex now t.rows.reverse).length).take
          ((t.activeOnes now).length - t.cap) := by
    show SessionTable.evicted _ now = _
    rw [SessionTable.evicted, hactive, List.length_map]
    exact congrArg _ (SessionTable.reapOver_eq t.cap _)
  refine ⟨?_, ?_, ?_⟩
  · rw [hcalls, hgone, hidles, hactive, ← List.map_take, ← List.map_append, List.map_map]
    rfl
  · have hsplit := congrArg List.reverse ((t.view h.coherent).reap_rows now)
    rw [List.reverse_append, List.reverse_reverse, hs.rows, hgone, List.append_assoc] at hsplit
    obtain ⟨tail, htail⟩ := SessionTable.prefix_reapIdle t.maxIdleIndex now t.rows.reverse
    generalize SessionTable.reapIdle t.maxIdleIndex now t.rows.reverse = idle at hsplit htail hactive
    have hrest : t.rows.reverse.drop idle.length = tail := by rw [← htail, List.drop_left]
    have hview : (t.view h.coherent).rows.reverse = idle ++ tail := htail.symm
    rw [hview, hrest, List.append_cancel_left_eq] at hsplit
    have hdrop : (t.reap now).2.rows.reverse = tail.drop ((t.activeOnes now).length - t.cap) := by
      have htake := List.take_append_drop ((t.activeOnes now).length - t.cap) tail
      exact (List.append_cancel_left (htake.trans hsplit)).symm
    rw [forEach_eq, hdrop, List.map_drop, hactive, hrest]
  · have hlen := (t.view h.coherent).length_reap now
    rw [hs.rows, hs.coherent.length_rows, ← hs.coherent.length_eq] at hlen
    exact hlen

theorem Tidy.sorted_lru (h : t.Tidy now) : t.lru.Pairwise fun a b => ∀ ea eb,
    find a.cid t.entries = some ea → find b.cid t.entries = some eb → eb.lastIndex ≤ ea.lastIndex := by
  have hs := h.sorted
  rw [Sorted, rows, List.pairwise_filterMap] at hs
  refine hs.imp fun hab ea eb hea heb => ?_
  exact hab _ (by rw [rowOf, hea, Option.map_some]) _ (by rw [rowOf, heb, Option.map_some])

theorem Reached.exact (h : Reached Covered t now) : t.Exact now where
  nodup := h.tidy.coherent.nodup_lru
  same _ := h.tidy.coherent.mem_lru
  sorted := h.tidy.sorted_lru
  evicts _ hn := (h.tidy.later hn).evicts

end Table

/-- What is done with one table: `save` keeps what `ForEach` produces, and `restore` loads such a list
into the cleared table. -/
inductive Call where
  | get (cid : Int32) (nowIndex : UInt64)
  | put (cid : Int32) (seq : Int64) (nowIndex : UInt64)
  | reap (nowIndex : UInt64)
  | save
  | restore (i : Nat)

def Call.nowIndex : Call → Option UInt64
  | .get _ now | .put _ _ now | .reap now => some now
  | .save | .restore _ => none

def Call.run (p : Table × List (List Visit)) : Call → Table × List (List Visit)
  | .get cid now => ((p.1.get cid now).2, p.2)
  | .put cid seq now => (p.1.put cid seq now, p.2)
  | .reap now => ((p.1.reap now).2, p.2)
  | .save => (p.1, p.2 ++ [p.1.forEach])
  | .restore i =>
    match p.2[i]? with
    | some l => (p.1.clear.loadAll l, p.2)
    | none => p

/-- The table of a run is reached, and so were those that its lists were produced from. -/
def Stored (p : Table × List (List Visit)) (now : UInt64) : Prop :=
  Table.Reached Table.Covered p.1 now ∧ ∀ l ∈ p.2, ∃ src srcNow,
    Table.Reached Table.Covered src srcNow ∧ l = src.forEach ∧ srcNow ≤ now

theorem Stored.later {p : Table × List (List Visit)} {now now' : UInt64} (h : Stored p now) {t : Table}
    (ht : Table.Reached Table.Covered t now') (hn : now ≤ now') : Stored (t, p.2) now' := by
  refine ⟨ht, fun l hl => ?_⟩
  obtain ⟨src, srcNow, hsrc, heq, hle⟩ := h.2 l hl
  exact ⟨src, srcNow, hsrc, heq, UInt64.le_trans hle hn⟩

theorem Stored.run {p : Table × List (List Visit)} {now : UInt64} (h : Stored p now) (c : Call)
    (hn : ∀ x ∈ c.nowIndex, now ≤ x) : Stored (c.run p) (c.nowIndex.getD now) := by
  cases c with
  | get cid x => exact h.later (.get cid x h.1 (hn x rfl)) (hn x rfl)
  | put cid seq x => exact h.later (.put cid seq x h.1 (hn x rfl)) (hn x rfl)
  | reap x => exact h.later (.reap x h.1 (hn x rfl)) (hn x rfl)
  | save =>
    refine ⟨h.1, fun l hl => ?_⟩
    rcases List.mem_append.mp hl with hl | hl
    · exact h.2 l hl
    · exact ⟨p.1, now, h.1, List.mem_singleton.mp hl, UInt64.le_refl _⟩
  | restore i =>
    rw [Call.run]
    cases hl : p.2[i]? with
    | none => exact h
    | some l =>
      obtain ⟨src, srcNow, hsrc, rfl, hle⟩ := h.2 l (List.mem_of_getElem? hl)
      refine h.later (.load now h.1 hsrc (UInt64.le_refl _) fun w hw => ?_) (UInt64.le_refl _)
      rw [Table.forEach_eq] at hw
      obtain ⟨r, hr, rfl⟩ := List.mem_map.mp hw
      exact (hsrc.tidy.later hle).past r (List.mem_reverse.mp hr)

/-- The `now_index` of the last call. -/
def lastIndexOf (calls : List Call) (now : UInt64) : UInt64 :=
  (calls.filterMap Call.nowIndex).getLastD now

theorem stored_run (calls : List Call) (p : Table × List (List Visit)) (now : UInt64)
    (h : Stored p now) (hnow : ∀ x ∈ calls.filterMap Call.nowIndex, now ≤ x)
    (hclock : (calls.filterMap Call.nowIndex).Pairwise (· ≤ ·)) :
    Stored (calls.foldl Call.run p) (lastIndexOf calls now) := by
  induction calls generalizing p now with
  | nil => exact h
  | cons c calls ih =>
    cases hc : c.nowIndex with
    | none =>
      rw [List.filterMap_cons_none hc] at hnow hclock
      have hrun := h.run c (by rw [hc]; simp)
      rw [hc] at hrun
      rw [lastIndexOf, List.filterMap_cons_none hc]
      exact ih _ _ hrun hnow hclock
    | some x =>
      rw [List.filterMap_cons_some hc] at hnow hclock
      have hrun := h.run c (by rw [hc]; simpa using hnow x (by simp))
      rw [hc] at hrun
      obtain ⟨hfirst, hclock⟩ := List.pairwise_cons.mp hclock
      rw [lastIndexOf, List.filterMap_cons_some hc, List.getLastD_cons]
      exact ih _ _ hrun hfirst hclock

/-- The table after calls that are made on it alone. -/
def after (cap : Nat) (maxIdleIndex : UInt64) (calls : List Call) : Table :=
  (calls.foldl Call.run ({ cap := cap, maxIdleIndex := maxIdleIndex }, [])).1

/-- The sessions of a table stand in the order of their last use, and `Reap` evicts those that it should,
when the clock covers what is loaded; a list that the table itself produced is always covered. -/
theorem session_table_exact :
    (∀ t now, Table.Reached Table.Covered t now → t.Exact now) ∧
      ∀ cap maxIdleIndex calls, (List.filterMap Call.nowIndex calls).Pairwise (· ≤ ·) →
        (after cap maxIdleIndex calls).Exact (lastIndexOf calls 0) := by
  refine ⟨fun t now h => h.exact, fun cap maxIdleIndex calls hclock => ?_⟩
  have hstart : Stored ({ cap := cap, maxIdleIndex := maxIdleIndex }, []) 0 :=
    ⟨.start cap maxIdleIndex, fun l hl => by cases hl⟩
  exact (stored_run calls _ 0 hstart (fun x _ => UInt64.zero_le) hclock).1.exact

/-- Two clients, of which the first comes back, and the list of the table loaded again. -/
theorem session_table_exact_restored :
    (after 1 100 [.put 1 7 3, .put 2 9 4, .get 1 5, .save, .restore 0, .reap 6]).Exact 6 :=
  session_table_exact.2 1 100 [.put 1 7 3, .put 2 9 4, .get 1 5, .save, .restore 0, .reap 6] (by decide)

/-- A table that was cleared and then took up the session of client 1, used at 10 on another replica. -/
def loadedAhead : Table :=
  ({ maxIdleIndex := 3 } : Table).clear.loadAll (({} : Table).put 1 7 10).forEach

/-- Without the condition on the clock the list is out of order after a use at 5, and at 12 the session
of client 2 is not evicted, although it was idle for longer than allowed. -/
theorem loaded_ahead_unsorted :
    ¬ ∀ t now, Table.Reached (fun _ _ => True) t now → t.Exact now := by
  intro h
  have hreached : Table.Reached (fun _ _ => True) (loadedAhead.put 2 1 5) 5 :=
    .put 2 1 5 (.load 0 (.start _ 3) (.put 1 7 10 (.start _ _) (by decide)) (by decide) trivial) (by decide)
  obtain ⟨hcalls, -⟩ := (h _ _ hreached).evicts 12 (by decide)
  exact absurd hcalls (by decide)

end Lru
end ChonKV
