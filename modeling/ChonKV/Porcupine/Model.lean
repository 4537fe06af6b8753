import ChonKV.Raft.Protocol
import Mathlib.Data.List.Induction
import Mathlib.Data.List.Nodup

/-!
`kvraft/porcupine.h` and `kvraft/kv_model.cpp`: recorded operations, and the key-value model that a
history of them is checked against, one key at a time.
-/

set_option autoImplicit false

namespace ChonKV.Porcupine

inductive CheckResult where
  | ok
  | illegal
  | unknown
  deriving DecidableEq

/-- An operation of a client with the times of its call and its return, in nanoseconds. -/
structure Operation (Input Output : Type) where
  clientId : Int := 0
  seqId : Int := 0
  input : Input
  output : Output
  callTimeNs : Int := 0
  returnTimeNs : Int := 0
  deriving DecidableEq

structure Model (Input Output State : Type) where
  partition : Option (List (Operation Input Output) → List (List Nat))
  init : State
  step : State → Input → Output → Bool × State
  equal : State → State → Bool

def kvOpGet : UInt8 := 0
def kvOpPut : UInt8 := 1
def kvOpAppend : UInt8 := 2

structure KvInput where
  op : UInt8 := 0
  key : Bytes := []
  value : Bytes := []
  deriving DecidableEq, Inhabited

structure KvOutput where
  value : Bytes := []
  deriving DecidableEq, Inhabited

abbrev KvState := Bytes

abbrev KvOperation := Operation KvInput KvOutput

/-- The bucket of the key takes the index; a new key gets a bucket at the end. -/
def addToBucket (key : Bytes) (i : Nat) : List (Bytes × List Nat) → List (Bytes × List Nat)
  | [] => [(key, [i])]
  | p :: buckets =>
    if p.1 = key then (p.1, p.2 ++ [i]) :: buckets else p :: addToBucket key i buckets

def kvBuckets (history : List KvOperation) : List (Bytes × List Nat) :=
  history.zipIdx.foldl (fun buckets p => addToBucket p.1.input.key p.2 buckets) []

def kvPartition (history : List KvOperation) : List (List Nat) := (kvBuckets history).map (·.2)

def kvStep (state : KvState) (inp : KvInput) (out : KvOutput) : Bool × KvState :=
  if inp.op = kvOpGet then (decide (out.value = state), state)
  else if inp.op = kvOpPut then (true, inp.value)
  else if inp.op = kvOpAppend then (true, state ++ inp.value)
  else (false, state)

def kvEqual (a b : KvState) : Bool := decide (a = b)

def makeKvModel : Model KvInput KvOutput KvState where
  partition := some kvPartition
  init := []
  step := kvStep
  equal := kvEqual

/-- The operations of one key, in the order of the history. -/
def ofKey (key : Bytes) (history : List KvOperation) : List KvOperation :=
  history.filter (·.input.key = key)

variable {key : Bytes} {i : Nat} {keys : List Bytes} {f : Bytes → List Nat}
  {history : List KvOperation}

/-- The operations of the key that `i` has, and of no other, are `i` longer. -/
theorem addToBucket_mem (hnd : keys.Nodup) (hk : key ∈ keys) :
    addToBucket key i (keys.map fun k => (k, f k)) =
      keys.map fun k => (k, if k = key then f k ++ [i] else f k) := by
  induction keys with
  | nil => simp at hk
  | cons k keys ih =>
    obtain ⟨hnot, hnd'⟩ := List.nodup_cons.mp hnd
    rw [List.map_cons, addToBucket]
    split_ifs with heq
    · have hrest : keys.map (fun k => (k, f k)) =
          keys.map fun k => (k, if k = key then f k ++ [i] else f k) := by
        refine List.map_congr_left fun b hb => ?_
        have hne : b ≠ key := fun h => hnot (by rw [show k = b from heq.trans h.symm]; exact hb)
        simp [hne]
      rw [hrest, List.map_cons, if_pos heq]
    · have hk' : key ∈ keys := (List.mem_cons.mp hk).resolve_left fun h => heq h.symm
      rw [ih hnd' hk', List.map_cons, if_neg heq]

theorem addToBucket_not_mem {buckets : List (Bytes × List Nat)} (hk : key ∉ buckets.map (·.1)) :
    addToBucket key i buckets = buckets ++ [(key, [i])] := by
  induction buckets with
  | nil => rfl
  | cons p buckets ih =>
    simp only [List.map_cons, List.mem_cons, not_or] at hk
    rw [addToBucket, if_neg (Ne.symm hk.1), ih hk.2, List.cons_append]

/-- One bucket for each key that occurs, with the indices of its operations in order. -/
theorem kvBuckets_eq (history : List KvOperation) :
    ∃ keys : List Bytes, keys.Nodup ∧ (∀ k, k ∈ keys ↔ ∃ o ∈ history, o.input.key = k) ∧
      kvBuckets history =
        keys.map fun k => (k, (history.zipIdx.filter (·.1.input.key = k)).map (·.2)) := by
  induction history using List.reverseRecOn with
  | nil => exact ⟨[], by simp, by simp, rfl⟩
  | append_singleton history o ih =>
    obtain ⟨keys, hnd, hkeys, heq⟩ := ih
    have hstep : kvBuckets (history ++ [o]) =
        addToBucket o.input.key history.length (kvBuckets history) := by
      simp [kvBuckets, List.zipIdx_append]
    rw [heq] at hstep
    by_cases hk : o.input.key ∈ keys
    · refine ⟨keys, hnd, fun k => ?_, ?_⟩
      · rw [hkeys k]
        constructor
        · rintro ⟨a, ha, hak⟩
          exact ⟨a, by simp [ha], hak⟩
        · rintro ⟨a, ha, rfl⟩
          rcases List.mem_append.mp ha with ha | ha
          · exact ⟨a, ha, rfl⟩
          · rw [List.mem_singleton.mp ha]
            exact (hkeys _).mp hk
      · rw [hstep, addToBucket_mem hnd hk]
        refine List.map_congr_left fun k _ => ?_
        by_cases hok : o.input.key = k
        · simp [List.zipIdx_append, hok]
        · simp [List.zipIdx_append, hok, Ne.symm hok]
    · refine ⟨keys ++ [o.input.key], ?_, fun k => ?_, ?_⟩
      · rw [List.nodup_append]
        refine ⟨hnd, by simp, fun a ha b hb hab => hk ?_⟩
        rw [← List.mem_singleton.mp hb, ← hab]
        exact ha
      · simp [hkeys k, or_and_right, exists_or, eq_comm]
      · rw [hstep, addToBucket_not_mem (by simpa using hk), List.map_append]
        congr 1
        · refine List.map_congr_left fun k hkk => ?_
          have hok : o.input.key ≠ k := fun h => hk (h ▸ hkk)
          simp [List.zipIdx_append, hok]
        · have hnone : history.zipIdx.filter (·.1.input.key = o.input.key) = [] := by
            rw [List.filter_eq_nil_iff]
            intro p hp hpk
            have hmem : p.1 ∈ history := List.fst_mem_of_mem_zipIdx hp
            exact hk ((hkeys _).mpr ⟨p.1, hmem, by simpa using hpk⟩)
          simp [List.zipIdx_append, hnone]

/-- The indices of a bucket pick the operations of its key. -/
theorem filterMap_indices (q : KvOperation → Bool) :
    ((history.zipIdx.filter fun p => q p.1).map (·.2)).filterMap (history[·]?) = history.filter q := by
  have hget : (history.zipIdx.filter fun p => q p.1).filterMap (fun p => history[p.2]?) =
      (history.zipIdx.filter fun p => q p.1).map (·.1) := by
    rw [← List.filterMap_eq_map]
    refine List.filterMap_congr fun p hp => ?_
    have hmem := List.mem_of_mem_filter hp
    have hp' : (p.1, p.2) ∈ history.zipIdx := hmem
    simpa using List.mk_mem_zipIdx_iff_getElem?.mp hp'
  rw [List.filterMap_map]
  refine hget.trans ?_
  have hfst : history.zipIdx.map (·.1) = history := List.zipIdx_map_fst 0 history
  conv_rhs => rw [← hfst]
  rw [List.filter_map]
  rfl

end ChonKV.Porcupine
