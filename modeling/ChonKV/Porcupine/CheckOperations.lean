import ChonKV.Porcupine.Locality

/-!
`CheckOperations` without a timeout: one thread for each part of the history, and the verdict of the
collector. On the key-value model the verdict is the linearizability of the history, unless this hangs
on two operations of one key of which one returns at the time at which the other is called.
-/

set_option autoImplicit false

namespace ChonKV.Porcupine

open Backtrack

variable {Input Output State : Type}

def partitionHistory (model : Model Input Output State) (history : List (Operation Input Output)) :
    List (List (Operation Input Output)) :=
  let indices := match model.partition with
    | some partition => partition history
    | none => [List.range history.length]
  indices.map fun idx => idx.filterMap (history[·]?)

section Check
variable [Inhabited Input] [Inhabited Output] (model : Model Input Output State)
  (hash : StateHash State) (sort : StdSort (TimeEntry Input Output) TimeEntry.before)

/-- What the thread of one part sets its promise to. -/
def checkPart (kill : Nat → Bool) (part : List (Operation Input Output)) : Option Bool :=
  let (h, head) := makeLinkedEntries sort part
  checkSingle model hash kill h head

/-- The collector: it waits for the parts in order, and stops at the first that is illegal. -/
def collect (kill : Nat → Nat → Bool) : Nat → List (List (Operation Input Output)) → Option CheckResult
  | _, [] => some .ok
  | i, part :: parts =>
    (checkPart model hash sort (kill i) part).bind fun r =>
      if r then collect kill (i + 1) parts else some .illegal

def checkParallel (kill : Nat → Nat → Bool) (parts : List (List (Operation Input Output))) :
    Option CheckResult :=
  collect model hash sort kill 0 parts

/-- What the turns of the threads read of `kill`, by part and turn: the collector raises it when it has
found a part illegal, and a part before that one has its answer by then. -/
def RaisedByCollector (kill : Nat → Nat → Bool) (parts : List (List (Operation Input Output))) : Prop :=
  ∀ i t, kill i t = true → ∃ j part, j < i ∧ parts[j]? = some part ∧
    checkPart model hash sort (kill j) part = some false

def checkOperations (kill : Nat → Nat → Bool) (history : List (Operation Input Output)) :
    Option CheckResult :=
  if history.isEmpty then some .ok
  else checkParallel model hash sort kill (partitionHistory model history)

variable {model hash sort}

/-- The collector says `Ok` when every part is found legal. -/
theorem collect_spec {kill : Nat → Nat → Bool} {parts : List (List (Operation Input Output))}
    (hk : RaisedByCollector model hash sort kill parts) (Legal : List (Operation Input Output) → Prop)
    (hs : ∀ part ∈ parts, ∀ kill : Nat → Bool, (∀ t, kill t = false) →
      ∃ r, checkPart model hash sort kill part = some r ∧ (r = true ↔ Legal part)) :
    ∃ r, checkParallel model hash sort kill parts = some r ∧
      (r = .ok ↔ ∀ part ∈ parts, Legal part) := by
  -- the parts in front of the one that is waited for have been found legal
  have hgo : ∀ todo done : List (List (Operation Input Output)), done ++ todo = parts →
      (∀ j part, done[j]? = some part → checkPart model hash sort (kill j) part = some true) →
      ∃ r, collect model hash sort kill done.length todo = some r ∧
        (r = .ok ↔ ∀ part ∈ todo, Legal part) := by
    intro todo
    induction todo with
    | nil => exact fun done _ _ => ⟨.ok, rfl, by simp⟩
    | cons part todo ih =>
      intro done hparts hdone
      have hlow : ∀ t, kill done.length t = false := by
        intro t
        by_contra ht
        obtain ⟨j, q, hj, hq, hfalse⟩ := hk _ t (by simpa using ht)
        rw [← hparts, List.getElem?_append_left hj] at hq
        rw [hdone j q hq] at hfalse
        cases hfalse
      obtain ⟨r, hr, hlegal⟩ := hs part (by simp [← hparts]) _ hlow
      cases r with
      | true =>
        obtain ⟨v, hv, hall⟩ := ih (done ++ [part]) (by simp [← hparts]) fun j q hq => by
          rcases Nat.lt_or_ge j done.length with hj | hj
          · rw [List.getElem?_append_left hj] at hq
            exact hdone j q hq
          · rw [List.getElem?_append_right hj, List.getElem?_singleton] at hq
            split_ifs at hq with hj0
            obtain rfl : j = done.length := by omega
            cases hq
            exact hr
        refine ⟨v, ?_, ?_⟩
        · simpa [collect, hr] using hv
        · simp [hall, hlegal.mp rfl]
      | false =>
        refine ⟨.illegal, by simp [collect, hr], ?_⟩
        have hnot : ¬ Legal part := fun h => by simpa using hlegal.mpr h
        simp [hnot]
  exact hgo parts [] rfl (by simp)

end Check

section Verdict

/-- What the search decides of the operations of one key. -/
def LegalPart (sort : StdSort (TimeEntry KvInput KvOutput) TimeEntry.before)
    (part : List KvOperation) : Prop :=
  (callProblem makeKvModel (makeLinkedEntries sort part).1.node).Solvable
    (entryOrder sort part, makeKvModel.init)

/-- The verdict is the linearizability, for each listing of the operations, each way to sort their
entries by time, each hash of the states and each course of the threads. -/
def JudgesRight (history : List KvOperation) : Prop :=
  ∀ (sort : StdSort (TimeEntry KvInput KvOutput) TimeEntry.before) (hash : StateHash KvState)
    (kill : Nat → Nat → Bool) (listing : List KvOperation), listing.Perm history →
    RaisedByCollector makeKvModel hash sort kill (partitionHistory makeKvModel listing) →
    ∃ r, checkOperations makeKvModel hash sort kill listing = some r ∧
      (r = .ok ↔ Linearizable history)

variable {sort : StdSort (TimeEntry KvInput KvOutput) TimeEntry.before} {hash : StateHash KvState}
  {kill : Nat → Nat → Bool} {history listing part : List KvOperation}

/-- One part for each key that occurs. -/
theorem partitionHistory_eq (history : List KvOperation) :
    ∃ keys : List Bytes, (∀ k, k ∈ keys ↔ ∃ o ∈ history, o.input.key = k) ∧
      partitionHistory makeKvModel history = keys.map fun k => ofKey k history := by
  obtain ⟨keys, -, hkeys, heq⟩ := kvBuckets_eq history
  refine ⟨keys, hkeys, ?_⟩
  simp only [partitionHistory, makeKvModel, kvPartition, heq, List.map_map]
  refine List.map_congr_left fun k _ => ?_
  exact filterMap_indices fun o => decide (o.input.key = k)

theorem checkOperations_spec
    (hk : RaisedByCollector makeKvModel hash sort kill (partitionHistory makeKvModel history)) :
    ∃ r, checkOperations makeKvModel hash sort kill history = some r ∧
      (r = .ok ↔ ∀ k, LegalPart sort (ofKey k history)) := by
  have hequal : ∀ x y, makeKvModel.equal x y = true → x = y := fun x y h => of_decide_eq_true h
  obtain ⟨r, hr, hall⟩ := collect_spec hk (LegalPart sort) fun part _ kill hk =>
    checkSingle_spec hequal hash hk sort part
  obtain ⟨keys, hkeys, heq⟩ := partitionHistory_eq history
  refine ⟨r, ?_, ?_⟩
  · cases history with
    | nil => simpa [checkOperations, partitionHistory, makeKvModel, kvPartition, kvBuckets,
        checkParallel, collect] using hr
    | cons o history => simpa [checkOperations] using hr
  · rw [hall, heq]
    simp only [List.forall_mem_map]
    refine ⟨fun h k => ?_, fun h k _ => h k⟩
    by_cases hk : k ∈ keys
    · exact h k hk
    · have hnil : ofKey k history = [] := by
        refine List.filter_eq_nil_iff.mpr fun o ho hok => hk ((hkeys k).mpr ⟨o, ho, ?_⟩)
        exact of_decide_eq_true hok
      rw [hnil]
      obtain ⟨hE, -⟩ := makeLinkedEntries_spec sort ([] : List KvOperation)
      exact .solved (List.eq_nil_of_length_eq_zero hE.length)

theorem Linearizable.perm (h : Linearizable history) (hp : history.Perm listing) :
    Linearizable listing := by
  obtain ⟨os, ho, hr⟩ := h
  exact ⟨os, ho.trans hp, hr⟩

theorem LinearizableTouching.perm (h : LinearizableTouching history) (hp : history.Perm listing) :
    LinearizableTouching listing := by
  obtain ⟨os, ho, hr⟩ := h
  exact ⟨os, ho.trans hp, hr⟩

theorem LegalPart.explained (hw : ∀ o ∈ part, o.callTimeNs < o.returnTimeNs)
    (h : LegalPart sort part) : Explained makeKvModel Precedes makeKvModel.init part :=
  explained_of_solvable (makeLinkedEntries_spec sort part).1 hw
    (fun _ _ _ _ hi hj hp => before_of_times hi hj hp) h

theorem legalPart_of_explained (hw : ∀ o ∈ part, o.callTimeNs < o.returnTimeNs)
    (h : Explained makeKvModel Meets makeKvModel.init part) : LegalPart sort part :=
  solvable_of_explained (makeLinkedEntries_spec sort part).1 hw
    (fun _ _ _ _ hi hj hb => returned_le hi hj hb) h

/-- By time, a return before a call of the same time. -/
def TimeEntry.returnFirst (a b : TimeEntry KvInput KvOutput) : Bool :=
  decide (a.timeNs < b.timeNs ∨ a.timeNs = b.timeNs ∧ (a.isCall = true → b.isCall = true))

theorem returnFirst_trans (a b c : TimeEntry KvInput KvOutput) (hab : a.returnFirst b = true)
    (hbc : b.returnFirst c = true) : a.returnFirst c = true := by
  simp only [TimeEntry.returnFirst, decide_eq_true_eq] at hab hbc ⊢
  rcases hab with hab | ⟨hab, hcab⟩
  · rcases hbc with hbc | ⟨hbc, -⟩ <;> exact Or.inl (by omega)
  · rcases hbc with hbc | ⟨hbc, hcbc⟩
    · exact Or.inl (by omega)
    · exact Or.inr ⟨hab.trans hbc, hcbc ∘ hcab⟩

theorem returnFirst_total (a b : TimeEntry KvInput KvOutput) :
    (a.returnFirst b || b.returnFirst a) = true := by
  simp only [TimeEntry.returnFirst, Bool.or_eq_true, decide_eq_true_eq]
  rcases Int.lt_trichotomy a.timeNs b.timeNs with h | h | h
  · exact Or.inl (Or.inl h)
  · cases hb : b.isCall
    · exact Or.inr (Or.inr ⟨h.symm, by simp⟩)
    · exact Or.inl (Or.inr ⟨h, by simp⟩)
  · exact Or.inr (Or.inl h)

def returnsFirst : StdSort (TimeEntry KvInput KvOutput) TimeEntry.before where
  sort l := l.mergeSort TimeEntry.returnFirst
  perm l := List.mergeSort_perm l _
  sorted l := by
    refine (List.pairwise_mergeSort returnFirst_trans returnFirst_total l).imp fun {a b} h => ?_
    simp only [TimeEntry.returnFirst, TimeEntry.before, decide_eq_true_eq,
      decide_eq_false_iff_not] at h ⊢
    omega

theorem LegalPart.touching (hw : ∀ o ∈ part, o.callTimeNs < o.returnTimeNs)
    (h : LegalPart returnsFirst part) : Explained makeKvModel Meets makeKvModel.init part := by
  refine explained_of_solvable (makeLinkedEntries_spec _ part).1 hw (fun i j o p hi hj hp => ?_) h
  refine before_of_not_after hi hj fun hsub => ?_
  have hs := List.pairwise_iff_forall_sublist.mp
    (List.pairwise_mergeSort returnFirst_trans returnFirst_total _) hsub
  simp only [TimeEntry.returnFirst, decide_eq_true_eq] at hs
  have hle : p.returnTimeNs ≤ o.callTimeNs := hp
  rcases hs with hs | ⟨-, hs⟩
  · exact absurd hs (Int.not_lt.mpr hle)
  · cases hs rfl

/-- The verdict is right exactly where touching intervals of one key need not be swapped. -/
theorem judgesRight_iff (history : List KvOperation)
    (hw : ∀ o ∈ history, o.callTimeNs < o.returnTimeNs) :
    JudgesRight history ↔ (Linearizable history → LinearizableTouching history) := by
  have hkey : ∀ {l : List KvOperation}, l.Perm history →
      ∀ k, ∀ o ∈ ofKey k l, o.callTimeNs < o.returnTimeNs := fun hl k o ho =>
    hw o (hl.mem_iff.mp (List.mem_filter.mp ho).1)
  constructor
  · intro hj hlin
    have hidle : RaisedByCollector makeKvModel (fun _ => 0) returnsFirst (fun _ _ => false)
        (partitionHistory makeKvModel history) := fun i t ht => by cases ht
    obtain ⟨r, hr, hok⟩ := hj returnsFirst (fun _ => 0) _ history (List.Perm.refl _) hidle
    obtain ⟨r', hr', hlegal⟩ := checkOperations_spec hidle
    rw [hr] at hr'
    cases hr'
    exact (linearizableTouching_iff hw).mpr fun k =>
      (hlegal.mp (hok.mpr hlin) k).touching (hkey (List.Perm.refl _) k)
  · intro himp sort hash kill listing hp hk
    have hw' : ∀ o ∈ listing, o.callTimeNs < o.returnTimeNs := fun o ho => hw o (hp.mem_iff.mp ho)
    obtain ⟨r, hr, hlegal⟩ := checkOperations_spec hk
    refine ⟨r, hr, fun hok => ?_, fun hlin => hlegal.mpr fun k => ?_⟩
    · refine Linearizable.perm ((linearizable_iff hw').mpr fun k => ?_) hp
      exact (hlegal.mp hok k).explained (hkey hp k)
    · exact legalPart_of_explained (hkey hp k)
        ((linearizableTouching_iff hw').mp ((himp hlin).perm hp.symm) k)

/-- By time, as insertion sort leaves it: entries of one time stay as they are listed. -/
def byInsertion : StdSort (TimeEntry KvInput KvOutput) TimeEntry.before where
  sort l := l.insertionSort fun a b => a.timeNs ≤ b.timeNs
  perm l := List.perm_insertionSort _ l
  sorted l := by
    have htrans : IsTrans (TimeEntry KvInput KvOutput) fun a b => a.timeNs ≤ b.timeNs :=
      ⟨fun _ _ _ => Int.le_trans⟩
    have htotal : Std.Total fun a b : TimeEntry KvInput KvOutput => a.timeNs ≤ b.timeNs :=
      ⟨fun _ _ => Int.le_total _ _⟩
    exact (List.pairwise_insertionSort _ l).imp fun {a b} h => decide_eq_false (Int.not_lt.mpr h)

/-- `Put("k", "1")` on [0, 10], and a `Get("k")` that returned `v` on [10, 20]. -/
def putThenGet (v : Bytes) : List KvOperation :=
  [{ input := ⟨kvOpPut, [0x6b], [0x31]⟩, output := ⟨[]⟩, callTimeNs := 0, returnTimeNs := 10 },
    { input := ⟨kvOpGet, [0x6b], []⟩, output := ⟨v⟩, callTimeNs := 10, returnTimeNs := 20 }]

theorem judgesRight_putThenGet : JudgesRight (putThenGet [0x31]) := by
  refine (judgesRight_iff (putThenGet [0x31]) (by decide)).mpr fun _ => ?_
  exact ⟨putThenGet [0x31], List.Perm.refl _, by simp [putThenGet, Precedes], by rfl⟩

/-- The read of the old value is judged by how the two operations are listed. -/
theorem touching_misjudged : Linearizable (putThenGet []) ∧
    checkOperations makeKvModel (fun _ => 0) byInsertion (fun _ _ => false) (putThenGet []) =
      some .illegal ∧
    checkOperations makeKvModel (fun _ => 0) byInsertion (fun _ _ => false) (putThenGet []).reverse =
      some .ok ∧
    ¬ JudgesRight (putThenGet []) := by
  have hlin : Linearizable (putThenGet []) :=
    ⟨(putThenGet []).reverse, List.reverse_perm _, by simp [putThenGet, Precedes], by rfl⟩
  have hbad : checkOperations makeKvModel (fun _ => 0) byInsertion (fun _ _ => false)
      (putThenGet []) = some .illegal := by decide
  refine ⟨hlin, hbad, by decide, fun hj => ?_⟩
  obtain ⟨r, hr, hok⟩ := hj byInsertion (fun _ => 0) (fun _ _ => false) (putThenGet [])
    (List.Perm.refl _) fun i t ht => by cases ht
  rw [hbad] at hr
  cases hr
  cases hok.mpr hlin

end Verdict

end ChonKV.Porcupine
