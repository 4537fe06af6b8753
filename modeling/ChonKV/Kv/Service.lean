import ChonKV.Cluster.Feeding
import ChonKV.Kv.Convergence

/-!
The key/value state machine as the upper layer of Raft: what it makes of a beginning of the history is the state that
one server reaches that executes the entries in order.
-/

set_option autoImplicit false

namespace ChonKV

open Ballot Ballot.Ledger Assoc

theorem ofNat_toNat_int32 (c : Int32) : Int32.ofNat c.toBitVec.toNat = c :=
  Int32.toBitVec_inj.mp (by simp)

instance : DecidableEq KVState := fun s t =>
  decidable_of_iff (s.kvStore.entries = t.kvStore.entries ∧ (s.sessions.cap = t.sessions.cap ∧
      s.sessions.maxIdleIndex = t.sessions.maxIdleIndex ∧ s.sessions.rows = t.sessions.rows) ∧
      (∀ b : Fin (2^32), s.fenced (Int32.ofNat b) = t.fenced (Int32.ofNat b)) ∧ s.fenceFifo = t.fenceFifo) <| by
    refine ⟨fun ⟨hstore, ⟨hcap, hidle, hrows⟩, hfenced, hfifo⟩ => ?_, fun h => by simp [h]⟩
    refine KVState.ext (OrderedMap.ext hstore) (SessionTable.ext hcap hidle hrows) (funext fun c => ?_) hfifo
    have hc := hfenced c.toBitVec.toFin
    rwa [show ((c.toBitVec.toFin : Fin (2^32)) : Nat) = c.toBitVec.toNat from rfl, ofNat_toNat_int32] at hc

/-- `KVServer` as Raft sees it. `none` is a process that ended itself. -/
def kvService (cap : Nat) (maxIdleIndex : UInt64) : Service (Option KVState) where
  init := some (KVServer.fresh cap maxIdleIndex).state
  apply s m := s.map fun s => (({ state := s } : KVServer).applyCommand m).state
  load raw := (KVServer.fresh cap maxIdleIndex).state.applySnapshot raw

section
variable {cap : Nat} {maxIdleIndex : UInt64}

/-- The state at an index depends on the entries up to it. -/
theorem stateAt_congr {l l' : List LogEntry} : ∀ {k : Nat}, l.take k = l'.take k →
    stateAt cap maxIdleIndex l k = stateAt cap maxIdleIndex l' k
  | 0, _ => rfl
  | k+1, h => by
    have hget : l[k]? = l'[k]? := by
      rw [← List.getElem?_take_of_lt (Nat.lt_succ_self k), h, List.getElem?_take_of_lt (Nat.lt_succ_self k)]
    have htake : l.take k = l'.take k := by
      have h' := congrArg (List.take k) h
      rwa [List.take_take, List.take_take, Nat.min_eq_left (Nat.le_succ k)] at h'
    rw [stateAt, stateAt, hget, stateAt_congr htake]

/-- Entries that know their place. -/
def Indexed (l : List LogEntry) : Prop := ∀ (p : Nat) (e : LogEntry), l[p]? = some e → e.index = p + 1

theorem replay_kvService {l : List LogEntry} (h : Indexed l) :
    replay (kvService cap maxIdleIndex) l = some (stateAt cap maxIdleIndex l l.length).state := by
  induction l using List.reverseRecOn with
  | nil => rfl
  | append_singleton l e ih =>
    have hl : Indexed l := fun p e' he' => h p e' (by
      rw [List.getElem?_append_left (List.getElem?_eq_some_iff.mp he').1, he'])
    have he : e.index = l.length + 1 := h l.length e List.getElem?_concat_length
    have hsame : stateAt cap maxIdleIndex (l ++ [e]) l.length = stateAt cap maxIdleIndex l l.length :=
      stateAt_congr (by rw [List.take_left, List.take_length])
    rw [replay_concat, ih hl, List.length_append, List.length_singleton, stateAt, List.getElem?_concat_length]
    dsimp only [kvService]
    rw [Option.map_some, hsame, he]
    refine congrArg some (state_applyCommand_congr ?_ _)
    rfl

/-- What a snapshot brings back depends on the limits of the session table alone. -/
theorem applySnapshot_congr {s t : KVState} (hcap : s.sessions.cap = t.sessions.cap)
    (hidle : s.sessions.maxIdleIndex = t.sessions.maxIdleIndex) (raw : Bytes) :
    s.applySnapshot raw = t.applySnapshot raw := by
  have hclear : s.sessions.clear = t.sessions.clear := SessionTable.ext hcap hidle rfl
  rw [KVState.applySnapshot, KVState.applySnapshot, hclear]

variable {n : Nat} {E : Record} {G : Ghost} {K : Nat → Core} {x : Int}

/-- A state of the upper layer is that of a server that executed a settled beginning. -/
theorem StateOK.stateAt {s : Option KVState} (h : StateOK n (kvService cap maxIdleIndex) G (x, s))
    (hd : Draft n E G K) : ∃ (l : List LogEntry) (k : Nat) (T : Int), x = k ∧ G.L.Settled (majority n) l k T ∧
      s = some (ChonKV.stateAt cap maxIdleIndex l k).state := by
  obtain ⟨l, k, T, hx, hset, hs⟩ := h
  refine ⟨l, k, T, hx, hset, ?_⟩
  have hindexed : Indexed (l.take k) := fun p e he => by
    have hp : p < k := lt_of_lt_of_le (List.getElem?_eq_some_iff.mp he).1 (List.length_take_le k l)
    rw [List.getElem?_take_of_lt hp] at he
    exact (hd.settled_mem hset he hp).2
  have hlen : (l.take k).length = k := List.length_take_of_le hset.le_length
  have hs' : s = replay (kvService cap maxIdleIndex) (l.take k) := hs
  rw [hs', replay_kvService hindexed, hlen]
  exact congrArg (fun kv : KVServer => some kv.state) (stateAt_congr (by rw [List.take_take, Nat.min_self]))

end
end ChonKV
