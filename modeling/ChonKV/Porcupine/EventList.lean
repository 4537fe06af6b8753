import ChonKV.Porcupine.CheckOperations

/-!
`CheckSingle` on any list of call and return nodes, not only on one that `MakeLinkedEntries` built: its
answer is whether some order of the operations that the list allows runs through, whatever the hash and
the capacity of the cache.
-/

set_option autoImplicit false

namespace ChonKV.Porcupine

open Backtrack

/-- `head` is the first node of a doubly linked list of the calls and the returns of `n` operations,
`L` are the nodes from front to back, and each call comes before its return. -/
structure EventList {Input Output : Type} (h : Heap Input Output) (head : Option Addr) (n : Nat)
    (L : List Addr) : Prop where
  head : head = L.head?
  threads : h.links.Threads L
  allocated : L.length ≤ h.allocated.length
  nodup : L.Nodup
  mem : ∀ a, a ∈ L ↔ ∃ i < n, a = .call i ∨ a = .ret i
  call : ∀ i < n, (h.node (.call i)).matching = some (.ret i) ∧ (h.node (.call i)).id = i
  ret : ∀ i < n, (h.node (.ret i)).matching = none
  order : ∀ i < n, [Addr.call i, .ret i].Sublist L

variable {Input Output State : Type} {h : Heap Input Output} {head : Option Addr} {n : Nat}
  {L M : List Addr} {is : List Nat} {i j : Nat} {ls : Links Addr} {node : Addr → Node Input Output}

/-- The operations whose calls and returns the nodes hold. -/
def operations (node : Addr → Node Input Output) (n : Nat) : List (Operation Input Output) :=
  (List.range n).map fun i => { input := (node (.call i)).input, output := (node (.ret i)).output }

theorem operations_get {o : Operation Input Output} (ho : (operations node n)[i]? = some o) :
    i < n ∧ o.input = (node (.call i)).input ∧ o.output = (node (.ret i)).output := by
  simp only [operations, List.getElem?_map, Option.map_eq_some_iff, List.getElem?_eq_some_iff] at ho
  obtain ⟨k, ⟨hk, rfl⟩, rfl⟩ := ho
  rw [List.length_range] at hk
  simp [hk]

/-- Each operation has two nodes. -/
theorem EventList.length (hL : EventList h head n L) : L.length = 2 * n := by
  have hperm : L.Perm ((List.range n).flatMap fun i => [Addr.call i, .ret i]) := by
    refine (List.perm_ext_iff_of_nodup hL.nodup ?_).mpr fun a => ?_
    · refine List.nodup_flatMap.mpr ⟨fun i _ => by simp, ?_⟩
      refine List.Pairwise.imp (fun {i j} hij => ?_) List.pairwise_lt_range
      intro a hi hj
      simp only [List.mem_cons, List.not_mem_nil, or_false] at hi hj
      rcases hi with rfl | rfl <;> rcases hj with hj | hj <;> cases hj <;> exact lt_irrefl _ hij
    · simp [hL.mem a]
  rw [hperm.length_eq]
  simp [List.length_flatMap]
  omega

theorem EventList.entries (hL : EventList h head n L) :
    Entries (operations h.node n) h.node L where
  nodup := hL.nodup
  length := by simp [operations, hL.length]
  mem a := by simp [operations, hL.mem a]
  call i o ho := by
    obtain ⟨hi, hin, -⟩ := operations_get ho
    exact ⟨hin.symm, hL.call i hi⟩
  ret i o ho := by
    obtain ⟨hi, -, hout⟩ := operations_get ho
    exact ⟨hout.symm, hL.ret i hi⟩

theorem EventList.paired (hL : EventList h head n L) : Paired L where
  nodup := hL.nodup
  mem a ha := by
    obtain ⟨i, -, hi⟩ := (hL.mem a).mp ha
    exact ⟨i, hi⟩
  mate i := by simp [hL.mem]
  order i hi := by
    obtain ⟨k, hk, heq⟩ := (hL.mem (.ret i)).mp (hi.subset (by simp))
    obtain rfl : i = k := by simpa using heq
    have hin : Addr.call i ∈ L := hi.subset (by simp)
    obtain ⟨A, C, hAC⟩ := List.append_of_mem hin
    have hnd := hL.nodup
    have ho := hL.order i hk
    rw [hAC] at hi ho hnd
    have hA := mem_of_before hnd hi
    -- the return is in front of the call, and so the call is twice in the list
    obtain ⟨A₁, A₂, rfl⟩ := List.append_of_mem hA
    rw [List.append_assoc, List.cons_append] at ho hnd
    have hcall := mem_of_before hnd ho
    exact (List.nodup_append.mp hnd).2.2 _ hcall (.call i) (by simp) rfl

theorem pair_remove (h : [Addr.call i, .ret i].Sublist M) (hij : i ≠ j) :
    [Addr.call i, .ret i].Sublist (remove j M) := by
  have hsub := h.filter fun a => decide (a ≠ .call j ∧ a ≠ .ret j)
  have hkeep : [Addr.call i, .ret i].filter (fun a => decide (a ≠ .call j ∧ a ≠ .ret j)) =
      [.call i, .ret i] := by
    simp [hij]
  rw [hkeep] at hsub
  exact hsub

/-- One operation is lifted out of a list that holds it, and put back. -/
theorem lift_one (hm : (node (.call i)).matching = some (.ret i))
    (hi : [Addr.call i, .ret i].Sublist M) (hnd : (Addr.headSentinel :: M).Nodup)
    (hl : ls.Threads (.headSentinel :: M)) :
    (lift node ls (.call i)).Threads (.headSentinel :: remove i M) ∧
      unlift node (lift node ls (.call i)) (.call i) = ls := by
  obtain ⟨r₁, r₂, rfl, hcall, hret⟩ := List.cons_sublist_iff.mp hi
  obtain ⟨A, B, rfl⟩ := List.append_of_mem hcall
  have hin : Addr.ret i ∈ r₂ := List.singleton_sublist.mp hret
  obtain ⟨B', C, rfl⟩ := List.append_of_mem hin
  have hshape : A ++ .call i :: B ++ (B' ++ .ret i :: C) =
      A ++ Addr.call i :: ((B ++ B') ++ .ret i :: C) := by
    simp
  rw [hshape] at hl hnd ⊢
  rw [remove_split (List.nodup_cons.mp hnd).2]
  exact lift_spec hm hl hnd

/-- Any operations are lifted out, one out of what the others leave, and put back in turn. -/
theorem lift_all (hm : ∀ i ∈ is, (node (.call i)).matching = some (.ret i))
    (hi : ∀ i ∈ is, [Addr.call i, .ret i].Sublist M) (hnd : (Addr.headSentinel :: M).Nodup)
    (hl : ls.Threads (.headSentinel :: M)) (his : is.Nodup) :
    (is.foldl (fun ls i => lift node ls (.call i)) ls).Threads
        (.headSentinel :: is.foldl (fun M i => remove i M) M) ∧
      is.foldr (fun i ls => unlift node ls (.call i))
        (is.foldl (fun ls i => lift node ls (.call i)) ls) = ls := by
  induction is generalizing ls M with
  | nil => exact ⟨hl, rfl⟩
  | cons j is ih =>
    obtain ⟨hj, his'⟩ := List.nodup_cons.mp his
    obtain ⟨hlift, hun⟩ := lift_one (hm j (by simp)) (hi j (by simp)) hnd hl
    have hnd' : (Addr.headSentinel :: remove j M).Nodup :=
      hnd.sublist (List.filter_sublist.cons_cons _)
    have hne : ∀ i ∈ is, i ≠ j := by
      rintro i hmem rfl
      exact hj hmem
    have hrest := ih (fun i hmem => hm i (by simp [hmem]))
      (fun i hmem => pair_remove (hi i (by simp [hmem])) (hne i hmem)) hnd' hlift his'
    refine ⟨hrest.1, ?_⟩
    rw [List.foldl_cons, List.foldr_cons, hrest.2, hun]

/-- The orders of the operations in which none is put behind one that was called after its return. -/
theorem orders_iff (hL : EventList h head n L) :
    Orders L is ↔ is.Perm (List.range n) ∧
      is.Pairwise fun i j => ¬ [Addr.ret j, .call i].Sublist L := by
  have hcall : ∀ i, Addr.call i ∈ L ↔ i < n := fun i => by simp [hL.mem]
  constructor
  · intro ho
    refine ⟨(List.perm_ext_iff_of_nodup ho.nodup List.nodup_range).mpr fun i => ?_, ho.after⟩
    rw [ho.mem, hcall, List.mem_range]
  · rintro ⟨hperm, hafter⟩
    refine ⟨hperm.nodup_iff.mpr List.nodup_range, fun i => ?_, hafter⟩
    rw [hperm.mem_iff, List.mem_range, hcall]

/-- What `MakeLinkedEntries` builds of operations that take time is such a list. -/
theorem eventList_makeLinkedEntries [Inhabited Input] [Inhabited Output]
    (sort : StdSort (TimeEntry Input Output) TimeEntry.before)
    (history : List (Operation Input Output)) (hw : ∀ o ∈ history, o.callTimeNs < o.returnTimeNs) :
    EventList (makeLinkedEntries sort history).1 (makeLinkedEntries sort history).2 history.length
      (entryOrder sort history) := by
  obtain ⟨hE, hthreads, hroot, hcount⟩ := makeLinkedEntries_spec sort history
  have hp := entryOrder_paired hE hw
  refine ⟨hroot, hthreads, by rw [hE.length, hcount], hE.nodup, hE.mem, fun i hi => ?_,
    fun i hi => ?_, fun i hi => ?_⟩
  · exact (hE.call i _ (List.getElem?_eq_getElem hi)).2
  · exact (hE.ret i _ (List.getElem?_eq_getElem hi)).2
  · have hcall := (hE.mem (.call i)).mpr ⟨i, hi, Or.inl rfl⟩
    have hret := (hE.mem (.ret i)).mpr ⟨i, hi, Or.inr rfl⟩
    exact (pair_total hcall hret (by simp)).resolve_right (hp.order i)

/-- The search is exact on every list of entries, for every hash and every capacity of the cache, and
what it lifts out in any nesting is put back as it was. -/
theorem checkSingle_exact [Inhabited Input] [Inhabited Output] (model : Model Input Output State)
    (heq : ∀ x y, model.equal x y = true ↔ x = y) (h : Heap Input Output) (head : Option Addr)
    (n : Nat) (L : List Addr) (hL : EventList h head n L) (kill : Nat → Bool)
    (hk : ∀ t, kill t = false) :
    (∃ r, (∀ hash, checkSingle model hash kill h head = some r ∧
          ∀ cap, checkSingleCapped model hash cap kill h head = some r) ∧
        (r = true ↔ ∃ is : List Nat, is.Perm (List.range n) ∧
          is.Pairwise (fun i j => ¬ [Addr.ret j, .call i].Sublist L) ∧
          Runs (fun s i => model.step s (h.node (.call i)).input (h.node (.ret i)).output)
            model.init is)) ∧
      ∀ (ls : Links Addr) (is : List Nat), ls.Threads (.headSentinel :: L) → is.Nodup →
        (∀ i ∈ is, i < n) →
        (is.foldl (fun ls i => lift h.node ls (.call i)) ls).Threads
            (.headSentinel :: is.foldl (fun M i => remove i M) L) ∧
          is.foldr (fun i ls => unlift h.node ls (.call i))
            (is.foldl (fun ls i => lift h.node ls (.call i)) ls) = ls := by
  have hE := hL.entries
  have hanswer : ∀ hash cap, ∃ r, checkSingleCapped model hash cap kill h head = some r ∧
      (r = true ↔ (callProblem model h.node).Solvable (L, model.init)) := fun hash cap =>
    checkSingleCapped_spec (fun x y => (heq x y).mp) hash cap hk hE hL.threads hL.head hL.allocated
  constructor
  · obtain ⟨r, -, hr⟩ := hanswer (fun _ => 0) 0
    have hall : ∀ hash cap, checkSingleCapped model hash cap kill h head = some r := by
      intro hash cap
      obtain ⟨r', hr', hiff⟩ := hanswer hash cap
      rw [hr', Bool.eq_iff_iff.mpr (hiff.trans hr.symm)]
    refine ⟨r, fun hash => ⟨hall hash _, hall hash⟩, ?_⟩
    rw [hr, solvable_iff hL.paired]
    constructor
    · rintro ⟨is, ho, hruns⟩
      obtain ⟨hperm, hafter⟩ := (orders_iff hL).mp ho
      exact ⟨is, hperm, hafter, hruns⟩
    · rintro ⟨is, hperm, hafter, hruns⟩
      exact ⟨is, (orders_iff hL).mpr ⟨hperm, hafter⟩, hruns⟩
  · intro ls is hl his hlt
    have hnd : (Addr.headSentinel :: L).Nodup := by
      have hr := hE.rest_nodup (b := Bitset.make 0)
      rwa [rest_make] at hr
    exact lift_all (fun i hi => (hL.call i (hlt i hi)).1) (fun i hi => hL.order i (hlt i hi)) hnd hl his

/-- A write that a read of its value follows is accepted without a cache. -/
theorem checkSingle_exact_putThenGet :
    checkSingleCapped makeKvModel (fun _ => 0) 0 (fun _ => false)
      (makeLinkedEntries byInsertion (putThenGet [0x31])).1
      (makeLinkedEntries byInsertion (putThenGet [0x31])).2 = some true := by
  have hlist := eventList_makeLinkedEntries byInsertion (putThenGet [0x31]) (by decide)
  obtain ⟨⟨r, hall, hiff⟩, -⟩ := checkSingle_exact makeKvModel (fun x y => decide_eq_true_iff) _ _ _ _
    hlist (fun _ => false) fun _ => rfl
  have hr : r = true := by
    refine hiff.mpr ⟨[0, 1], by decide, by decide, by decide, by decide, trivial⟩
  rw [(hall _).2 0, hr]

end ChonKV.Porcupine
