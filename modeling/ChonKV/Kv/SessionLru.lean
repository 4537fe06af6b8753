import ChonKV.Kv.Blob

/-!
`SessionTable` of `kvraft/server.h` with its two containers: the map `entries_`, whose entries point into
the list `lru_`. The two stay in step, and what they hold together are the rows of the one-list table.
-/

set_option autoImplicit false

namespace ChonKV.Lru

open Assoc

/-- A node of `lru_`; an iterator is the number of the node that it points at. -/
structure Node where
  it : Nat
  cid : Int32
  deriving DecidableEq

structure Entry where
  lastSeq : Int64 := 0
  lastIndex : UInt64 := 0
  lruIt : Nat := 0
  deriving DecidableEq

/-- `nextNode` numbers the node that is allocated next. -/
structure Table where
  cap : Nat := 1024 * 1024
  maxIdleIndex : UInt64 := 100000
  evicted : UInt64 := 0
  entries : List (Int32 × Entry) := []
  lru : List Node := []
  nextNode : Nat := 0
  deriving DecidableEq

/-- What `ForEach` hands to its function. -/
abbrev Visit := Int32 × Int64 × UInt64

namespace Table

/-- `lru_.splice` to the front of the list itself. -/
def splice (t : Table) (it : Nat) : Table :=
  { t with lru := t.lru.filter (fun n => decide (n.it = it)) ++
      t.lru.filter (fun n => decide (n.it ≠ it)) }

def touch (t : Table) (cid : Int32) (e : Entry) (nowIndex : UInt64) : Table :=
  { t with entries := bump cid { e with lastIndex := nowIndex } t.entries }.splice e.lruIt

def get (t : Table) (cid : Int32) (nowIndex : UInt64) : Int64 × Table :=
  match find cid t.entries with
  | none => (0, t)
  | some e => (e.lastSeq, t.touch cid e nowIndex)

/-- `lru_.insert` at the front, and the entry that points at the new node. -/
def emplace (t : Table) (cid : Int32) (seq : Int64) (index : UInt64) : Table :=
  { t with
    lru := ⟨t.nextNode, cid⟩ :: t.lru
    nextNode := t.nextNode + 1
    entries := bump cid { lastSeq := seq, lastIndex := index, lruIt := t.nextNode } t.entries }

def put (t : Table) (cid : Int32) (seq : Int64) (nowIndex : UInt64) : Table :=
  match find cid t.entries with
  | none => t.emplace cid seq nowIndex
  | some e => t.touch cid { e with lastSeq := seq } nowIndex

def load (t : Table) (cid : Int32) (seq : Int64) (lastIndex : UInt64) : Table :=
  match find cid t.entries with
  | none => t.emplace cid seq lastIndex
  | some e =>
    { t with entries := bump cid { e with lastSeq := seq, lastIndex := lastIndex } t.entries }

def evict (t : Table) (cid : Int32) (e : Entry) : Table :=
  { t with
    lru := t.lru.filter (fun n => decide (n.it ≠ e.lruIt))
    entries := remove cid t.entries
    evicted := t.evicted + 1 }

/-- The first loop of `Reap`, with the calls of `on_evict`. -/
def reapIdle (nowIndex : UInt64) : Nat → List (Int32 × Int64) × Table → List (Int32 × Int64) × Table
  | 0, p => p
  | fuel+1, (calls, t) =>
    match t.lru.getLast? with
    | none => (calls, t)
    | some back =>
      match find back.cid t.entries with
      | none => reapIdle nowIndex fuel (calls, { t with lru := t.lru.dropLast })
      | some e =>
        let idle := if e.lastIndex ≤ nowIndex then nowIndex - e.lastIndex else 0
        if idle ≤ t.maxIdleIndex then (calls, t)
        else reapIdle nowIndex fuel (calls ++ [(back.cid, e.lastSeq)], t.evict back.cid e)

def reapOver : Nat → List (Int32 × Int64) × Table → List (Int32 × Int64) × Table
  | 0, p => p
  | fuel+1, (calls, t) =>
    match t.lru.getLast? with
    | none => (calls, t)
    | some back =>
      if t.cap < t.entries.length then
        match find back.cid t.entries with
        | none => reapOver fuel (calls, { t with lru := t.lru.dropLast })
        | some e => reapOver fuel (calls ++ [(back.cid, e.lastSeq)], t.evict back.cid e)
      else (calls, t)

/-- Each turn of a loop takes a node off `lru_`. -/
def reap (t : Table) (nowIndex : UInt64) : List (Int32 × Int64) × Table :=
  let p := reapIdle nowIndex t.lru.length ([], t)
  reapOver p.2.lru.length p

def clear (t : Table) : Table := { t with entries := [], lru := [] }

def forEach (t : Table) : List Visit :=
  t.lru.reverse.filterMap fun n => (find n.cid t.entries).map fun e => (n.cid, e.lastSeq, e.lastIndex)

def loadAll (t : Table) (l : List Visit) : Table := l.foldl (fun t v => t.load v.1 v.2.1 v.2.2) t

/-- The two containers hold the same sessions, and each entry points at its node. -/
structure Coherent (t : Table) : Prop where
  distinct : (keys t.entries).Nodup
  its : (t.lru.map (·.it)).Nodup
  fresh : ∀ n ∈ t.lru, n.it < t.nextNode
  node : ∀ n ∈ t.lru, ∃ e, find n.cid t.entries = some e ∧ e.lruIt = n.it
  listed : ∀ cid e, find cid t.entries = some e → ⟨e.lruIt, cid⟩ ∈ t.lru

/-- The session of a node. -/
def rowOf (entries : List (Int32 × Entry)) (n : Node) : Option SessionRow :=
  (find n.cid entries).map fun e => (n.cid, ⟨e.lastSeq, e.lastIndex⟩)

def rows (t : Table) : List SessionRow := t.lru.filterMap (rowOf t.entries)

variable {t : Table} {cid : Int32} {e : Entry} {it : Nat} {n m : Node}

theorem rowOf_bump {entries : List (Int32 × Entry)} (hn : n.cid ≠ cid) :
    rowOf (bump cid e entries) n = rowOf entries n := by
  rw [rowOf, find_bump, if_neg (Ne.symm hn), rowOf]

theorem rowOf_remove {entries : List (Int32 × Entry)} (hn : n.cid ≠ cid) :
    rowOf (remove cid entries) n = rowOf entries n := by
  rw [rowOf, find_remove (Ne.symm hn), rowOf]

theorem rowOf_fst {entries : List (Int32 × Entry)} {r : SessionRow} (h : rowOf entries n = some r) :
    r.1 = n.cid := by
  rw [rowOf, Option.map_eq_some_iff] at h
  obtain ⟨e, -, rfl⟩ := h
  rfl

/-- Among the nodes, the one that an entry points at is the one of its client. -/
theorem Coherent.it_iff (h : t.Coherent) (he : find cid t.entries = some e) (hn : n ∈ t.lru) :
    n.it = e.lruIt ↔ n.cid = cid := by
  constructor
  · intro hit
    have hm := h.listed cid e he
    have heq := List.inj_on_of_nodup_map h.its hn hm hit
    rw [heq]
  · rintro rfl
    obtain ⟨e', he', hit⟩ := h.node n hn
    rw [he] at he'
    cases he'
    exact hit.symm

theorem Coherent.keys_rows (h : t.Coherent) : keys t.rows = t.lru.map (·.cid) := by
  have hgo : ∀ l : List Node, (∀ n ∈ l, ∃ e, find n.cid t.entries = some e) →
      keys (l.filterMap (rowOf t.entries)) = l.map (·.cid) := by
    intro l hl
    induction l with
    | nil => rfl
    | cons n l ih =>
      obtain ⟨e, he⟩ := hl n (by simp)
      have hrow : rowOf t.entries n = some (n.cid, ⟨e.lastSeq, e.lastIndex⟩) := by
        rw [rowOf, he, Option.map_some]
      rw [List.filterMap_cons_some hrow, keys, List.map_cons, List.map_cons]
      exact congrArg (n.cid :: ·) (ih fun m hm => hl m (by simp [hm]))
  exact hgo t.lru fun n hn => by
    obtain ⟨e, he, -⟩ := h.node n hn
    exact ⟨e, he⟩

theorem Coherent.nodup_lru (h : t.Coherent) : (t.lru.map (·.cid)).Nodup := by
  refine (List.nodup_map_iff_inj_on (List.Nodup.of_map _ h.its)).mpr fun n hn m hm hcid => ?_
  obtain ⟨e, he, hit⟩ := h.node n hn
  have hmit := (h.it_iff he hm).mpr hcid.symm
  exact List.inj_on_of_nodup_map h.its hn hm (hit.symm.trans hmit.symm)

theorem Coherent.mem_lru (h : t.Coherent) : cid ∈ t.lru.map (·.cid) ↔ cid ∈ keys t.entries := by
  constructor
  · intro hm
    obtain ⟨n, hn, rfl⟩ := List.mem_map.mp hm
    obtain ⟨e, he, -⟩ := h.node n hn
    by_contra hnot
    rw [find_eq_none.mpr hnot] at he
    cases he
  · intro hm
    cases hf : find cid t.entries with
    | none => exact absurd hm (find_eq_none.mp hf)
    | some e => exact List.mem_map.mpr ⟨_, h.listed cid e hf, rfl⟩

/-- The two containers have one size. -/
theorem Coherent.length_eq (h : t.Coherent) : t.entries.length = t.lru.length := by
  have hperm : (t.lru.map (·.cid)).Perm (keys t.entries) :=
    (List.perm_ext_iff_of_nodup h.nodup_lru h.distinct).mpr fun c => h.mem_lru
  simpa using hperm.length_eq.symm

theorem Coherent.length_rows (h : t.Coherent) : t.rows.length = t.lru.length := by
  have hlen := congrArg List.length h.keys_rows
  simpa using hlen

/-- The other nodes hold the other sessions. -/
theorem rows_others {entries : List (Int32 × Entry)} {l : List Node}
    (hit : ∀ n ∈ l, n.it = it ↔ n.cid = cid) :
    (l.filter fun n => decide (n.it ≠ it)).filterMap (rowOf entries) =
      remove cid (l.filterMap (rowOf entries)) := by
  rw [List.filterMap_filter, remove, List.filter_filterMap]
  refine List.filterMap_congr fun n hn => ?_
  cases hrow : rowOf entries n with
  | none => simp
  | some r =>
    have hfst := rowOf_fst hrow
    by_cases hc : n.cid = cid
    · simp [(hit n hn).mpr hc, hfst, hc, Option.filter]
    · simp [mt (hit n hn).mp hc, hfst, hc, Option.filter]

/-- Apart from one client, the rows come from the entries of the others. -/
theorem remove_congr {es es' : List (Int32 × Entry)} {l : List Node}
    (hes : ∀ n ∈ l, n.cid ≠ cid → rowOf es n = rowOf es' n) :
    remove cid (l.filterMap (rowOf es)) = remove cid (l.filterMap (rowOf es')) := by
  have hgone : ∀ (es : List (Int32 × Entry)) (n : Node), n.cid = cid →
      (rowOf es n).filter (fun p => decide (p.1 ≠ cid)) = none := by
    intro es n hc
    cases hr : rowOf es n with
    | none => rfl
    | some r => simp [Option.filter, rowOf_fst hr, hc]
  rw [remove, List.filter_filterMap, remove, List.filter_filterMap]
  refine List.filterMap_congr fun n hn => ?_
  by_cases hc : n.cid = cid
  · rw [hgone es n hc, hgone es' n hc]
  · rw [hes n hn hc]

/-- A session is put in front, with new contents, at the node that it had or at a new one. -/
theorem Coherent.toFront (h : t.Coherent) {t' : Table}
    (hplace : (∃ e', find cid t.entries = some e' ∧ e'.lruIt = e.lruIt) ∨
      find cid t.entries = none ∧ e.lruIt = t.nextNode)
    (hentries : t'.entries = bump cid e t.entries)
    (hlru : t'.lru = ⟨e.lruIt, cid⟩ :: t.lru.filter (fun n => decide (n.it ≠ e.lruIt)))
    (hnext : t.nextNode ≤ t'.nextNode) (hit : e.lruIt < t'.nextNode) :
    t'.Coherent ∧ t'.rows = bump cid ⟨e.lastSeq, e.lastIndex⟩ t.rows := by
  have hiff : ∀ n ∈ t.lru, n.it = e.lruIt ↔ n.cid = cid := by
    intro n hn
    rcases hplace with ⟨e', he', hit'⟩ | ⟨hnone, hnew⟩
    · rw [← hit']
      exact h.it_iff he' hn
    · have hlt := h.fresh n hn
      obtain ⟨en, hen, -⟩ := h.node n hn
      refine ⟨fun heq => by omega, ?_⟩
      rintro rfl
      rw [hnone] at hen
      cases hen
  have hmem : ∀ n, n ∈ t.lru.filter (fun n => decide (n.it ≠ e.lruIt)) ↔
      n ∈ t.lru ∧ n.it ≠ e.lruIt := fun n => by simp
  refine ⟨⟨?_, ?_, fun n hn => ?_, fun n hn => ?_, fun c ec hc => ?_⟩, ?_⟩
  · rw [hentries]
    exact nodup_bump h.distinct
  · rw [hlru, List.map_cons]
    refine List.nodup_cons.mpr ⟨fun hm => ?_, h.its.sublist (List.filter_sublist.map _)⟩
    obtain ⟨n, hn, hnit⟩ := List.mem_map.mp hm
    exact ((hmem n).mp hn).2 hnit
  · rw [hlru] at hn
    rcases List.mem_cons.mp hn with rfl | hn
    · exact hit
    · exact (h.fresh n ((hmem n).mp hn).1).trans_le hnext
  · rw [hlru] at hn
    rw [hentries]
    rcases List.mem_cons.mp hn with rfl | hn
    · exact ⟨e, by rw [find_bump, if_pos rfl], rfl⟩
    · obtain ⟨hn, hne⟩ := (hmem n).mp hn
      obtain ⟨en, hen, hnit⟩ := h.node n hn
      have hcid : cid ≠ n.cid := fun heq => hne ((hiff n hn).mpr heq.symm)
      exact ⟨en, by rw [find_bump, if_neg hcid, hen], hnit⟩
  · rw [hentries, find_bump] at hc
    rw [hlru]
    by_cases hcc : cid = c
    · rw [if_pos hcc] at hc
      cases hc
      rw [hcc]
      exact List.mem_cons_self
    · rw [if_neg hcc] at hc
      have hm := h.listed c ec hc
      refine List.mem_cons_of_mem _ ((hmem _).mpr ⟨hm, fun heq => hcc ?_⟩)
      exact ((hiff _ hm).mp heq).symm
  · have hrow : rowOf (bump cid e t.entries) ⟨e.lruIt, cid⟩ = some (cid, ⟨e.lastSeq, e.lastIndex⟩) := by
      rw [rowOf, find_bump, if_pos rfl, Option.map_some]
    rw [rows, hentries, hlru, List.filterMap_cons_some hrow, rows_others hiff, bump]
    exact congrArg (_ :: ·) (remove_congr fun n _ hc => rowOf_bump hc)

theorem Coherent.splice_eq (h : t.Coherent) (he : find cid t.entries = some e) :
    t.lru.filter (fun n => decide (n.it = e.lruIt)) = [⟨e.lruIt, cid⟩] := by
  have hmem := h.listed cid e he
  obtain ⟨A, C, hAC⟩ := List.append_of_mem hmem
  have hits := h.its
  rw [hAC, List.map_append, List.map_cons] at hits
  obtain ⟨-, htail, hA⟩ := List.nodup_append.mp hits
  rw [hAC, List.filter_append, List.filter_cons_of_pos (by simp)]
  have hAnil : A.filter (fun n => decide (n.it = e.lruIt)) = [] :=
    List.filter_eq_nil_iff.mpr fun n hn => by
      have hne := hA _ (List.mem_map_of_mem hn) _ List.mem_cons_self
      simpa using hne
  have hCnil : C.filter (fun n => decide (n.it = e.lruIt)) = [] :=
    List.filter_eq_nil_iff.mpr fun n hn hit => by
      refine (List.nodup_cons.mp htail).1 (List.mem_map.mpr ⟨n, hn, ?_⟩)
      simpa using hit
  rw [hAnil, hCnil]
  rfl

theorem Coherent.touch (h : t.Coherent) (e' : Entry) (he : find cid t.entries = some e)
    (hit : e'.lruIt = e.lruIt) (now : UInt64) : (t.touch cid e' now).Coherent ∧
      (t.touch cid e' now).rows = bump cid ⟨e'.lastSeq, now⟩ t.rows := by
  have hmem := h.listed cid e he
  refine h.toFront (e := { e' with lastIndex := now }) (Or.inl ⟨e, he, hit.symm⟩) rfl ?_ le_rfl ?_
  · have hfront := h.splice_eq he
    show t.lru.filter (fun n => decide (n.it = e'.lruIt)) ++ _ = _
    rw [hit, hfront]
    rfl
  · show e'.lruIt < t.nextNode
    rw [hit]
    exact h.fresh _ hmem

theorem Coherent.emplace (h : t.Coherent) (he : find cid t.entries = none) (seq : Int64)
    (index : UInt64) : (t.emplace cid seq index).Coherent ∧
      (t.emplace cid seq index).rows = bump cid ⟨seq, index⟩ t.rows := by
  refine h.toFront (e := { lastSeq := seq, lastIndex := index, lruIt := t.nextNode })
    (Or.inr ⟨he, rfl⟩) rfl ?_ (Nat.le_succ _) (Nat.lt_succ_self _)
  have hall : t.lru.filter (fun n => decide (n.it ≠ t.nextNode)) = t.lru :=
    List.filter_eq_self.mpr fun n hn => by
      have hlt := h.fresh n hn
      simp only [ne_eq, decide_eq_true_eq]
      omega
  show _ :: t.lru = _
  rw [hall]

theorem Coherent.evict (h : t.Coherent) (he : find cid t.entries = some e) :
    (t.evict cid e).Coherent ∧ (t.evict cid e).rows = remove cid t.rows := by
  have hiff : ∀ n ∈ t.lru, n.it = e.lruIt ↔ n.cid = cid := fun n hn => h.it_iff he hn
  have hmem : ∀ n, n ∈ (t.evict cid e).lru ↔ n ∈ t.lru ∧ n.it ≠ e.lruIt := fun n => by
    simp [Table.evict]
  refine ⟨⟨?_, ?_, fun n hn => ?_, fun n hn => ?_, fun c ec hc => ?_⟩, ?_⟩
  · exact h.distinct.sublist (List.filter_sublist.map _)
  · exact h.its.sublist (List.filter_sublist.map _)
  · exact h.fresh n ((hmem n).mp hn).1
  · obtain ⟨hn, hne⟩ := (hmem n).mp hn
    obtain ⟨en, hen, hnit⟩ := h.node n hn
    have hcid : cid ≠ n.cid := fun heq => hne ((hiff n hn).mpr heq.symm)
    exact ⟨en, (find_remove hcid t.entries).trans hen, hnit⟩
  · have hc' : find c t.entries = some ec := find_of_remove hc
    refine (hmem _).mpr ⟨h.listed c ec hc', fun heq => ?_⟩
    obtain rfl : c = cid := (hiff _ (h.listed c ec hc')).mp heq
    have hnone : find c (t.evict c e).entries = none := find_remove_self c t.entries
    rw [hnone] at hc
    cases hc
  · show (t.lru.filter fun n => decide (n.it ≠ e.lruIt)).filterMap (rowOf (remove cid t.entries)) = _
    rw [rows_others hiff]
    exact remove_congr fun n _ hc => rowOf_remove hc

end Table
end ChonKV.Lru
