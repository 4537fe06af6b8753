import ChonKV.Assoc.Keyed

/-!
`SessionTable` of `kvraft/server.h`. `entries_` and `lru_` hold the same clients, so they are one list
here: a row for each session, in the order of `lru_`.
-/

set_option autoImplicit false

namespace ChonKV

open Assoc

structure SessionEntry where
  lastSeq : Int64 := 0
  lastIndex : UInt64 := 0
  deriving DecidableEq

abbrev SessionRow := Int32 × SessionEntry

@[ext] structure SessionTable where
  cap : Nat := 1024 * 1024
  maxIdleIndex : UInt64 := 100000
  /-- The session that was used last is in front. -/
  rows : List SessionRow := []
  distinct : (keys rows).Nodup := by exact List.nodup_nil

/-- For how many entries of the log a session was not used. -/
def SessionEntry.idle (e : SessionEntry) (nowIndex : UInt64) : UInt64 :=
  if e.lastIndex ≤ nowIndex then nowIndex - e.lastIndex else 0

namespace SessionTable

/-- Puts a session in front, with new contents. -/
def bump (t : SessionTable) (cid : Int32) (e : SessionEntry) : SessionTable :=
  { t with rows := Assoc.bump cid e t.rows, distinct := nodup_bump t.distinct }

def get (t : SessionTable) (cid : Int32) (nowIndex : UInt64) : Int64 × SessionTable :=
  match find cid t.rows with
  | none => (0, t)
  | some e => (e.lastSeq, t.bump cid { e with lastIndex := nowIndex })

def put (t : SessionTable) (cid : Int32) (seq : Int64) (nowIndex : UInt64) : SessionTable :=
  t.bump cid { lastSeq := seq, lastIndex := nowIndex }

/-- The number in the session of a client. -/
def seqOf (t : SessionTable) (cid : Int32) : Option Int64 :=
  (find cid t.rows).map SessionEntry.lastSeq

theorem get_fst (t : SessionTable) (cid : Int32) (nowIndex : UInt64) :
    (t.get cid nowIndex).1 = (t.seqOf cid).getD 0 := by
  rw [get, seqOf]
  cases find cid t.rows <;> rfl

theorem seqOf_bump (t : SessionTable) (cid c : Int32) (e : SessionEntry) :
    (t.bump cid e).seqOf c = if cid = c then some e.lastSeq else t.seqOf c := by
  show (find c (Assoc.bump cid e t.rows)).map _ = _
  rw [find_bump]
  split <;> rfl

@[simp] theorem seqOf_get (t : SessionTable) (cid c : Int32) (nowIndex : UInt64) :
    (t.get cid nowIndex).2.seqOf c = t.seqOf c := by
  rw [get]
  cases hf : find cid t.rows with
  | none => rfl
  | some e =>
    show (t.bump cid _).seqOf c = _
    rw [seqOf_bump]
    split_ifs with heq
    · rw [← heq, seqOf, hf]
      rfl
    · rfl

theorem seqOf_put (t : SessionTable) (cid c : Int32) (seq : Int64) (nowIndex : UInt64) :
    (t.put cid seq nowIndex).seqOf c = if cid = c then some seq else t.seqOf c :=
  seqOf_bump t cid c _

def clear (t : SessionTable) : SessionTable :=
  { t with rows := [], distinct := List.nodup_nil }

theorem keys_overwrite (cid : Int32) (e : SessionEntry) (rows : List SessionRow) :
    keys (rows.map fun r => if r.1 = cid then (r.1, e) else r) = keys rows := by
  rw [keys, List.map_map]
  refine List.map_congr_left fun r _ => ?_
  show (if r.1 = cid then (r.1, e) else r).1 = r.1
  split <;> rfl

/-- A new session goes in front, one that is there stays in its place. -/
def load (t : SessionTable) (cid : Int32) (seq : Int64) (lastIndex : UInt64) : SessionTable :=
  let e : SessionEntry := { lastSeq := seq, lastIndex := lastIndex }
  if cid ∈ keys t.rows then
    { t with
      rows := t.rows.map fun r => if r.1 = cid then (r.1, e) else r
      distinct := by rw [keys_overwrite]; exact t.distinct }
  else t.bump cid e

/-- The first loop of `Reap`, over the rows from the back: what was idle for too long. -/
def reapIdle (maxIdleIndex nowIndex : UInt64) : List SessionRow → List SessionRow
  | [] => []
  | r :: back =>
    if r.2.idle nowIndex ≤ maxIdleIndex then [] else r :: reapIdle maxIdleIndex nowIndex back

/-- The second loop of `Reap`: what is over the capacity. -/
def reapOver (cap : Nat) : List SessionRow → List SessionRow
  | [] => []
  | r :: back => if back.length + 1 ≤ cap then [] else r :: reapOver cap back

theorem prefix_reapIdle (maxIdleIndex nowIndex : UInt64) : ∀ (back : List SessionRow),
    reapIdle maxIdleIndex nowIndex back <+: back
  | [] => List.prefix_rfl
  | r :: back => by
    rw [reapIdle]
    split
    · exact List.nil_prefix
    · exact (List.prefix_cons_inj r).mpr (prefix_reapIdle maxIdleIndex nowIndex back)

theorem prefix_reapOver (cap : Nat) : ∀ (back : List SessionRow), reapOver cap back <+: back
  | [] => List.prefix_rfl
  | r :: back => by
    rw [reapOver]
    split
    · exact List.nil_prefix
    · exact (List.prefix_cons_inj r).mpr (prefix_reapOver cap back)

theorem length_reapOver (cap : Nat) : ∀ (back : List SessionRow),
    back.length ≤ cap + (reapOver cap back).length
  | [] => Nat.zero_le _
  | r :: back => by
    rw [reapOver]
    split
    · next hle => exact hle
    · have ih := length_reapOver cap back
      simp only [List.length_cons]
      omega

/-- What `Reap` evicts, in the order of the evictions. -/
def evicted (t : SessionTable) (nowIndex : UInt64) : List SessionRow :=
  let back := t.rows.reverse
  let idle := reapIdle t.maxIdleIndex nowIndex back
  idle ++ reapOver t.cap (back.drop idle.length)

theorem prefix_evicted (t : SessionTable) (nowIndex : UInt64) :
    t.evicted nowIndex <+: t.rows.reverse := by
  have hidle := prefix_reapIdle t.maxIdleIndex nowIndex t.rows.reverse
  rw [evicted]
  generalize reapIdle t.maxIdleIndex nowIndex t.rows.reverse = idle at hidle
  obtain ⟨rest, hrest⟩ := hidle
  rw [← hrest]
  rw [List.drop_left]
  exact (List.prefix_append_right_inj idle).mpr (prefix_reapOver t.cap rest)

def reap (t : SessionTable) (nowIndex : UInt64) : List SessionRow × SessionTable :=
  let gone := t.evicted nowIndex
  (gone, { t with
    rows := t.rows.take (t.rows.length - gone.length)
    distinct := t.distinct.sublist ((List.take_sublist _ _).map _) })

theorem reap_of_evicted_nil {t : SessionTable} {nowIndex : UInt64} (h : t.evicted nowIndex = []) :
    t.reap nowIndex = ([], t) := by
  refine Prod.ext h (SessionTable.ext rfl rfl ?_)
  show t.rows.take (t.rows.length - (t.evicted nowIndex).length) = t.rows
  rw [h]
  exact List.take_length

/-- What `Reap` keeps and what it evicts are the two halves of the table. -/
theorem reap_rows (t : SessionTable) (nowIndex : UInt64) :
    t.rows = (t.reap nowIndex).2.rows ++ (t.reap nowIndex).1.reverse := by
  obtain ⟨kept, hkept⟩ := prefix_evicted t nowIndex
  have hrows : t.rows = kept.reverse ++ (t.evicted nowIndex).reverse := by
    rw [← List.reverse_append, hkept, List.reverse_reverse]
  have hlen : t.rows.length = kept.length + (t.evicted nowIndex).length := by
    rw [hrows, List.length_append, List.length_reverse, List.length_reverse]
  have htake : t.rows.take (t.rows.length - (t.evicted nowIndex).length) = kept.reverse := by
    rw [hlen, Nat.add_sub_cancel, hrows, show kept.length = kept.reverse.length from
      List.length_reverse.symm, List.take_left]
  show t.rows = t.rows.take (t.rows.length - (t.evicted nowIndex).length) ++ _
  rw [htake]
  exact hrows

theorem length_reap (t : SessionTable) (nowIndex : UInt64) :
    (t.reap nowIndex).2.rows.length ≤ t.cap := by
  have hsplit := congrArg List.length (t.reap_rows nowIndex)
  have hgone : (t.reap nowIndex).1 = t.evicted nowIndex := rfl
  have hover := length_reapOver t.cap
    (t.rows.reverse.drop (reapIdle t.maxIdleIndex nowIndex t.rows.reverse).length)
  have hidle := (prefix_reapIdle t.maxIdleIndex nowIndex t.rows.reverse).length_le
  rw [List.length_append, List.length_reverse, hgone, evicted, List.length_append] at hsplit
  rw [List.length_drop] at hover
  rw [List.length_reverse] at hover hidle
  omega

@[simp] theorem cap_get (t : SessionTable) (cid : Int32) (nowIndex : UInt64) :
    (t.get cid nowIndex).2.cap = t.cap := by
  rw [get]
  split <;> rfl

@[simp] theorem maxIdleIndex_get (t : SessionTable) (cid : Int32) (nowIndex : UInt64) :
    (t.get cid nowIndex).2.maxIdleIndex = t.maxIdleIndex := by
  rw [get]
  split <;> rfl

/-- The session of a client is kept or evicted. -/
theorem seqOf_reap (t : SessionTable) (nowIndex : UInt64) (c : Int32) :
    t.seqOf c = ((t.reap nowIndex).2.seqOf c).or
      ((find c (t.reap nowIndex).1).map SessionEntry.lastSeq) := by
  have hrows := t.reap_rows nowIndex
  have hn : (keys (t.reap nowIndex).1.reverse).Nodup := by
    have hd := t.distinct
    rw [hrows, keys, List.map_append, List.nodup_append] at hd
    exact hd.2.1
  rw [seqOf, hrows, find_append, ← find_perm hn (List.reverse_perm _), seqOf]
  cases find c (t.reap nowIndex).2.rows <;> rfl

/-- What is evicted was in the table, and each client once. -/
theorem nodup_reap (t : SessionTable) (nowIndex : UInt64) : (keys (t.reap nowIndex).1).Nodup := by
  have hd := t.distinct
  rw [t.reap_rows nowIndex, keys, List.map_append, List.nodup_append, List.map_reverse,
    List.nodup_reverse] at hd
  exact hd.2.1

end SessionTable
end ChonKV
