import ChonKV.Assoc.Merge
import ChonKV.Porcupine.Order

/-!
A history of the map is explained by one order exactly if the history of each key is explained by one
of its own.
-/

set_option autoImplicit false

namespace ChonKV.Porcupine

open Assoc

/-- A map of keys to values; a key that is missing reads as the empty string. -/
abbrev KvMap := Bytes → Option Bytes

def KvMap.value (m : KvMap) (key : Bytes) : Bytes := (m key).getD []

def KvMap.put (m : KvMap) (key value : Bytes) : KvMap := Function.update m key (some value)

/-- The operations done on a map one after the other; a read that recorded something else has no
replay. -/
def replay (m : KvMap) : List KvOperation → Option KvMap
  | [] => some m
  | o :: os =>
    if o.input.op = kvOpGet then
      if o.output.value = m.value o.input.key then replay m os else none
    else if o.input.op = kvOpPut then replay (m.put o.input.key o.input.value) os
    else if o.input.op = kvOpAppend then
      replay (m.put o.input.key (m.value o.input.key ++ o.input.value)) os
    else none

/-- `a` returned before `b` was called. -/
def Precedes (a b : KvOperation) : Prop := a.returnTimeNs < b.callTimeNs

/-- Some order of all operations that keeps `Precedes` has a replay. Operations whose closed intervals
touch are concurrent. -/
def Linearizable (history : List KvOperation) : Prop :=
  ∃ os : List KvOperation, os.Perm history ∧ os.Pairwise (fun a b => ¬ Precedes b a) ∧
    (replay (fun _ => none) os).isSome

/-- As `Linearizable`, with an order that also puts `a` before `b` where both are of one key and `a`
returned at the time `b` was called. -/
def LinearizableTouching (history : List KvOperation) : Prop :=
  ∃ os : List KvOperation, os.Perm history ∧
    os.Pairwise (fun a b => ¬ Precedes b a ∧
      ¬ (b.input.key = a.input.key ∧ b.returnTimeNs = a.callTimeNs)) ∧
    (replay (fun _ => none) os).isSome

/-- `a` returned before or at the time `b` was called. -/
def Meets (a b : KvOperation) : Prop := a.returnTimeNs ≤ b.callTimeNs

variable {key k : Bytes} {m : KvMap} {os history : List KvOperation} {o : KvOperation}

/-- One key of a replay, on the value that the map has for it. -/
abbrev RunsKv : KvState → List KvOperation → Prop :=
  Runs fun s (o : KvOperation) => makeKvModel.step s o.input o.output

@[simp] theorem KvMap.value_put (key value k : Bytes) :
    (m.put key value).value k = if k = key then value else m.value k := by
  simp only [KvMap.put, KvMap.value, Function.update_apply]
  split_ifs <;> rfl

/-- What an operation leaves of the map. -/
def KvMap.after (m : KvMap) (o : KvOperation) : KvMap :=
  if o.input.op = kvOpGet then m
  else m.put o.input.key (kvStep (m.value o.input.key) o.input o.output).2

theorem KvMap.value_after (o : KvOperation) (k : Bytes) : (m.after o).value k =
    if k = o.input.key then (kvStep (m.value o.input.key) o.input o.output).2 else m.value k := by
  rw [after]
  split_ifs with hget hk hk
  · simp [kvStep, hget, hk]
  · rfl
  · simp [hk]
  · simp [hk]

/-- The map takes the step of the key's own model. -/
theorem replay_cons (o : KvOperation) (os : List KvOperation) :
    (replay m (o :: os)).isSome ↔
      (kvStep (m.value o.input.key) o.input o.output).1 = true ∧ (replay (m.after o) os).isSome := by
  by_cases hget : o.input.op = kvOpGet
  · by_cases hv : o.output.value = m.value o.input.key
    · simp [replay, KvMap.after, kvStep, hget, hv]
    · simp [replay, kvStep, hget, hv]
  · by_cases hput : o.input.op = kvOpPut
    · have hne : ¬ kvOpPut = kvOpGet := by decide
      simp [replay, KvMap.after, kvStep, hput, hne]
    · by_cases happ : o.input.op = kvOpAppend
      · have hne : ¬ kvOpAppend = kvOpGet := by decide
        have hne' : ¬ kvOpAppend = kvOpPut := by decide
        simp [replay, KvMap.after, kvStep, happ, hne, hne']
      · simp [replay, kvStep, hget, hput, happ]

/-- A replay of the whole is a replay of each key. -/
theorem replay_iff : (replay m os).isSome ↔ ∀ k, RunsKv (m.value k) (ofKey k os) := by
  induction os generalizing m with
  | nil => simp [replay, ofKey, Runs]
  | cons o os ih =>
    have hkey : ofKey o.input.key (o :: os) = o :: ofKey o.input.key os := by simp [ofKey]
    have hother : ∀ k, k ≠ o.input.key → ofKey k (o :: os) = ofKey k os := fun k hk => by
      simp [ofKey, Ne.symm hk]
    rw [replay_cons, ih]
    constructor
    · rintro ⟨hok, hall⟩ k
      have hk' := hall k
      rw [KvMap.value_after] at hk'
      split_ifs at hk' with hk
      · rw [hk, hkey]
        exact ⟨hok, by rwa [hk] at hk'⟩
      · rwa [hother k hk]
    · intro hall
      have hfirst := hall o.input.key
      rw [hkey] at hfirst
      refine ⟨hfirst.1, fun k => ?_⟩
      rw [KvMap.value_after]
      split_ifs with hk
      · rw [hk]
        exact hfirst.2
      · have hk' := hall k
        rwa [hother k hk] at hk'

/-- Locality: what each key allows by itself is allowed by the whole. A relation of one key may ask for
more than `Precedes`, if only for operations that meet. -/
theorem exists_replay_iff (prec : KvOperation → KvOperation → Prop)
    (hw : ∀ o ∈ history, o.callTimeNs < o.returnTimeNs)
    (hprec : ∀ a b, Precedes a b → prec a b) :
    (∃ os : List KvOperation, os.Perm history ∧
      os.Pairwise (fun a b => ¬ Precedes b a ∧ (a.input.key = b.input.key → ¬ prec b a)) ∧
      (replay (fun _ => none) os).isSome) ↔
      ∀ k, Explained makeKvModel prec makeKvModel.init (ofKey k history) := by
  constructor
  · rintro ⟨os, hperm, hord, hr⟩ k
    refine ⟨ofKey k os, hperm.filter _, ?_, replay_iff.mp hr k⟩
    refine (hord.sublist List.filter_sublist).imp_of_mem fun {a b} ha hb hab => hab.2 ?_
    have ha' := (List.mem_filter.mp ha).2
    have hb' := (List.mem_filter.mp hb).2
    rw [decide_eq_true_eq] at ha' hb'
    rw [ha', hb']
  · intro hall
    choose per hper hord hr using hall
    have ht : ∀ k, Timely Operation.callTimeNs Operation.returnTimeNs (per k) := fun k =>
      (hord k).imp fun {a b} hab => by
        by_contra hlt
        exact hab (hprec _ _ (lt_of_not_ge hlt))
    obtain ⟨os, hperm, hkeys, htimely⟩ := exists_merge (fun o : KvOperation => o.input.key)
      (fun o ho => (hw o ho).le) per hper ht
    refine ⟨os, hperm, ?_, replay_iff.mpr fun k => ?_⟩
    · have hsame := pairwise_of_keys (l := os) (fun o : KvOperation => o.input.key)
        (R := fun a b => ¬ prec b a) fun k => by
          rw [hkeys k]
          exact hord k
      exact htimely.and hsame |>.imp fun {a b} hab => ⟨fun h => absurd hab.1 (not_le_of_gt h), hab.2⟩
    · have hk : ofKey k os = per k := hkeys k
      rw [hk]
      exact hr k

theorem linearizable_iff (hw : ∀ o ∈ history, o.callTimeNs < o.returnTimeNs) :
    Linearizable history ↔
      ∀ k, Explained makeKvModel Precedes makeKvModel.init (ofKey k history) := by
  rw [← exists_replay_iff Precedes hw fun _ _ h => h]
  refine exists_congr fun os => and_congr_right fun _ => and_congr_left fun _ => ?_
  exact ⟨fun h => h.imp fun hab => ⟨hab, fun _ => hab⟩, fun h => h.imp fun hab => hab.1⟩

theorem linearizableTouching_iff (hw : ∀ o ∈ history, o.callTimeNs < o.returnTimeNs) :
    LinearizableTouching history ↔
      ∀ k, Explained makeKvModel Meets makeKvModel.init (ofKey k history) := by
  rw [← exists_replay_iff Meets hw fun _ _ h => Int.le_of_lt h]
  refine exists_congr fun os => and_congr_right fun _ => and_congr_left fun _ => ?_
  have hsplit : ∀ a b : KvOperation, (¬ Precedes b a ∧
      ¬ (b.input.key = a.input.key ∧ b.returnTimeNs = a.callTimeNs)) ↔
      (¬ Precedes b a ∧ (a.input.key = b.input.key → ¬ Meets b a)) := fun a b => by
    refine and_congr_right fun hab => ?_
    rw [Precedes] at hab
    rw [Meets, not_and, eq_comm]
    refine imp_congr_right fun _ => not_congr ?_
    omega
  exact ⟨fun h => h.imp fun hab => (hsplit _ _).mp hab, fun h => h.imp fun hab => (hsplit _ _).mpr hab⟩

end ChonKV.Porcupine
