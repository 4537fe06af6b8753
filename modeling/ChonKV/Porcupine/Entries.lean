import ChonKV.Porcupine.CheckSingle
import Mathlib.Data.List.Induction

/-!
What the parts of the checker do: the bits of a set, the list that the sorted entries are linked into,
and a call that is lifted out of it and put back.
-/

set_option autoImplicit false

namespace ChonKV.Porcupine

open Backtrack

section Bits
variable {b : Bitset} {i j : Nat}

theorem Bitset.get_eq : b.get i = (b.words.getD (i / 64) 0).getLsbD (i % 64) := by
  rw [get, BitVec.and_one_eq_setWidth_ofBool_getLsbD, BitVec.getLsbD_ushiftRight, Nat.add_zero]
  cases (b.words.getD (i / 64) 0).getLsbD (i % 64) <;> rfl

theorem getLsbD_bit {m k : Nat} (hk : k < 64) : (1#64 <<< m).getLsbD k = decide (k = m) := by
  rw [Bool.eq_iff_iff]
  simp [hk]
  omega

theorem Bitset.get_set (hi : i / 64 < b.words.length) :
    (b.set i).get j = (b.get j || decide (j = i)) := by
  rw [get_eq, get_eq, set, List.getD_eq_getElem?_getD, List.getD_eq_getElem?_getD,
    List.getElem?_modify]
  by_cases hdiv : i / 64 = j / 64
  · have hlt : j % 64 < 64 := Nat.mod_lt _ (by decide)
    have hij : j % 64 = i % 64 ↔ j = i := by omega
    rw [← hdiv, List.getElem?_eq_getElem hi]
    simp [BitVec.getLsbD_or, getLsbD_bit hlt, hij]
  · have hne : j ≠ i := fun h => hdiv (by rw [h])
    simp [hdiv, hne]

theorem Bitset.clear_set (hi : b.get i = false) : (b.set i).clear i = b := by
  rw [get_eq, List.getD_eq_getElem?_getD] at hi
  have hwords : ((b.set i).clear i).words = b.words := by
    refine List.ext_getElem? fun j => ?_
    simp only [set, clear, List.getElem?_modify]
    split_ifs with hj
    · subst hj
      cases hw : b.words[i / 64]? with
      | none => rfl
      | some w =>
        have hbit : w.getLsbD (i % 64) = false := by simpa [hw] using hi
        refine congrArg some (BitVec.eq_of_getLsbD_eq fun k hk => ?_)
        rw [BitVec.getLsbD_and, BitVec.getLsbD_or, BitVec.getLsbD_not, getLsbD_bit hk]
        by_cases hki : k = i % 64
        · simp [hki, hbit]
        · simp [hki, hk]
    · simp
  cases b
  exact congrArg Bitset.mk hwords

@[simp] theorem Bitset.set_length : (b.set i).words.length = b.words.length := by
  simp [set]

theorem Bitset.get_make (n : Nat) : (Bitset.make n).get i = false := by
  rw [get_eq, make, List.getD_eq_getElem?_getD, List.getElem?_replicate]
  split_ifs <;> simp

end Bits

variable {Input Output State : Type} {node : Addr → Node Input Output} {ls : Links Addr}
  {A B C : List Addr} {a e r : Addr}

/-- Lifting takes the call and then its return out, and unlifting puts both back. -/
theorem lift_spec (hm : (node e).matching = some r) (h : ls.Threads (a :: (A ++ e :: (B ++ r :: C))))
    (hnd : (a :: (A ++ e :: (B ++ r :: C))).Nodup) :
    (lift node ls e).Threads (a :: (A ++ (B ++ C))) ∧ unlift node (lift node ls e) e = ls := by
  obtain ⟨D, d, hD⟩ := exists_before a A
  obtain ⟨F, f, hF⟩ := exists_before a (A ++ B)
  rw [hD] at h hnd
  obtain ⟨hne, hpe⟩ := h.apart hnd
  obtain ⟨hne', hpe'⟩ := h.unlink_own hnd
  have hthread := h.unlink hnd
  have hback := h.relink_unlink hnd
  have hnd' : (a :: (A ++ (B ++ r :: C))).Nodup := by
    rw [hD]
    exact hnd.sublist (List.Sublist.append_left (by simp) D)
  rw [← hD, ← List.append_assoc, hF] at hthread
  rw [← List.append_assoc, hF] at hnd'
  obtain ⟨hnr, hpr⟩ := hthread.apart hnd'
  obtain ⟨hnr', -⟩ := hthread.unlink_own hnd'
  have hlift : lift node ls e = (ls.unlink e).unlink r := by
    simp only [lift, hm]
    rw [← Links.unlink_prev_first hnr, ← Links.unlink_next_first hpe]
  have hthread' := hthread.unlink hnd'
  rw [← hF, List.append_assoc] at hthread'
  rw [hlift]
  refine ⟨hthread', ?_⟩
  have hret := hthread.relink_unlink hnd'
  have hunlift : unlift node ((ls.unlink e).unlink r) e =
      (((ls.unlink e).unlink r).relink r).relink e := by
    simp only [unlift, hm]
    rw [← Links.relink_writes (by rw [hret, hne']; exact hne),
      ← Links.relink_writes (by rw [hnr']; exact hnr)]
  rw [hunlift, hret, hback]

def TimeEntry.addr (e : TimeEntry Input Output) : Addr :=
  if e.isCall then .call e.opIndex else .ret e.opIndex

theorem Heap.new_links {h : Heap Input Output} {n : Node Input Output} (hn : h.links.next a = none)
    (hp : h.links.prev a = none) : (h.new a n).links = h.links := by
  simp only [new, Links.setNext, Links.setPrev]
  rw [Function.update_eq_self_iff.mpr hn.symm, Function.update_eq_self_iff.mpr hp.symm]

/-- A new node goes in front of the list. -/
theorem insertBefore_spec {l : List Addr} (h : ls.Threads l) (hnd : (a :: l).Nodup) (hn : ls.next a = none)
    (hp : ls.prev a = none) (hl : ∀ m ∈ l.head?, ls.prev m = none) :
    (insertBefore ls a l.head?).2 = a ∧ (insertBefore ls a l.head?).1.Threads (a :: l) ∧
      (insertBefore ls a l.head?).1.prev a = none ∧
      ∀ b ∉ a :: l, (insertBefore ls a l.head?).1.next b = ls.next b ∧
        (insertBefore ls a l.head?).1.prev b = ls.prev b := by
  cases l with
  | nil => exact ⟨rfl, hn, hp, fun b _ => ⟨rfl, rfl⟩⟩
  | cons m l =>
    have hm : ls.prev m = none := hl m rfl
    obtain ⟨ha, hml⟩ := List.nodup_cons.mp hnd
    have ham : a ≠ m := fun h => ha (by simp [h])
    have hins : insertBefore ls a (some m) =
        ((ls.setPrev (some m) (some a)).setNext (some a) (some m), a) := by
      simp [insertBefore, hm]
    rw [List.head?_cons, hins]
    refine ⟨rfl, ⟨?_, ?_, ?_⟩, ?_, fun b hb => ?_⟩
    · simp [Links.setNext_next]
    · simp [Links.setPrev_prev]
    · refine h.congr (fun y hy => ?_) (fun y hy => ?_)
      · have hay : a ≠ y := fun h => ha (h ▸ hy)
        simp [Links.setNext_next, hay]
      · have hmy : m ≠ y := fun h => (List.nodup_cons.mp hml).1 (h ▸ hy)
        simp [Links.setPrev_prev, hmy]
    · simp [Links.setPrev_prev, ham.symm, hp]
    · simp only [List.mem_cons, not_or] at hb
      simp [Links.setNext_next, Links.setPrev_prev, Ne.symm hb.1, Ne.symm hb.2.1]

section Linking
variable [Inhabited Input] [Inhabited Output] {e : TimeEntry Input Output}
  {es : List (TimeEntry Input Output)} {h h₀ : Heap Input Output}

def TimeEntry.retNode (e : TimeEntry Input Output) : Node Input Output :=
  ⟨default, e.output, false, none, e.opIndex⟩

def TimeEntry.callNode (e : TimeEntry Input Output) : Node Input Output :=
  ⟨e.input, default, true, some (.ret e.opIndex), e.opIndex⟩

theorem TimeEntry.addr_call (he : e.isCall = true) : e.addr = .call e.opIndex := by
  simp [addr, he]

theorem TimeEntry.addr_ret (he : e.isCall = false) : e.addr = .ret e.opIndex := by
  simp [addr, he]

/-- What the first loop over the entries leaves: the returns are allocated, and nothing is linked. -/
structure Allocated (h₀ h : Heap Input Output) (es : List (TimeEntry Input Output)) : Prop where
  returns : ∀ e ∈ es, e.isCall = false → h.node e.addr = e.retNode
  others : ∀ a ∉ es.map (·.addr), h.node a = h₀.node a
  loose : ∀ a, h.links.next a = none ∧ h.links.prev a = none
  count : h.allocated.length = h₀.allocated.length + es.countP (!·.isCall)

theorem allocated_foldl (h₀ : Heap Input Output) (hl : ∀ a, h₀.links.next a = none ∧ h₀.links.prev a = none)
    (hnd : (es.map (·.addr)).Nodup) : Allocated h₀ (es.foldl newRet h₀) es := by
  induction es using List.reverseRecOn with
  | nil => exact ⟨by simp, by simp, hl, by simp⟩
  | append_singleton es e ih =>
    rw [List.map_append, List.nodup_append] at hnd
    have ha := ih hnd.1
    have hne : ∀ x ∈ es, x.addr ≠ e.addr := fun x hx =>
      hnd.2.2 _ (List.mem_map_of_mem hx) _ (by simp)
    rw [List.foldl_append, List.foldl_cons, List.foldl_nil, newRet]
    split_ifs with hc
    · refine ⟨fun x hx hxc => ?_, fun b hb => ha.others b (by simp_all), ha.loose, ?_⟩
      · rcases List.mem_append.mp hx with hx | hx
        · exact ha.returns x hx hxc
        · rw [List.mem_singleton.mp hx, hc] at hxc
          cases hxc
      · simpa [hc] using ha.count
    · have hc' : e.isCall = false := by simpa using hc
      have haddr := TimeEntry.addr_ret hc'
      refine ⟨fun x hx hxc => ?_, fun b hb => ?_, fun b => ?_, ?_⟩
      · rcases List.mem_append.mp hx with hx | hx
        · have hx' := hne x hx
          rw [haddr] at hx'
          simp only [Heap.new, Function.update_of_ne hx']
          exact ha.returns x hx hxc
        · rw [List.mem_singleton.mp hx, haddr]
          simp [Heap.new, TimeEntry.retNode]
      · have hb' : b ≠ .ret e.opIndex := by
          rintro rfl
          simp [haddr] at hb
        simp only [Heap.new, Function.update_of_ne hb']
        exact ha.others b (by simp_all)
      · rw [Heap.new_links (ha.loose _).1 (ha.loose _).2]
        exact ha.loose b
      · simp only [Heap.new, List.length_cons, ha.count, List.countP_append, List.countP_singleton,
          hc', Bool.not_false, if_true]
        omega

theorem linkEntry_call {s : Heap Input Output × Option Addr} (he : e.isCall = true)
    (hn : s.1.links.next e.addr = none) (hp : s.1.links.prev e.addr = none) :
    linkEntry e s = ({ s.1.new e.addr e.callNode with
      links := (insertBefore s.1.links e.addr s.2).1 }, some (insertBefore s.1.links e.addr s.2).2) := by
  have hnew := Heap.new_links (n := e.callNode) hn hp
  rw [TimeEntry.addr_call he] at hnew ⊢
  rw [linkEntry, if_pos he]
  simp only [TimeEntry.callNode] at hnew ⊢
  rw [hnew]

theorem linkEntry_ret {s : Heap Input Output × Option Addr} (he : e.isCall = false) :
    linkEntry e s = ({ s.1 with links := (insertBefore s.1.links e.addr s.2).1 },
      some (insertBefore s.1.links e.addr s.2).2) := by
  simp [linkEntry, he, TimeEntry.addr_ret he]

/-- What the second loop has when it has come down to these entries. -/
structure LinkedUp (h₀ : Heap Input Output) (s : Heap Input Output × Option Addr)
    (es : List (TimeEntry Input Output)) : Prop where
  root : s.2 = (es.map (·.addr)).head?
  threads : s.1.links.Threads (es.map (·.addr))
  front : ∀ a ∈ (es.map (·.addr)).head?, s.1.links.prev a = none
  loose : ∀ a ∉ es.map (·.addr), s.1.links.next a = none ∧ s.1.links.prev a = none
  calls : ∀ e ∈ es, e.isCall = true → s.1.node e.addr = e.callNode
  returns : ∀ i, s.1.node (.ret i) = h₀.node (.ret i)
  count : s.1.allocated.length = h₀.allocated.length + es.countP (·.isCall)

theorem linkedUp_foldr (hl : ∀ a, h.links.next a = none ∧ h.links.prev a = none)
    (hnd : (es.map (·.addr)).Nodup) : LinkedUp h (es.foldr linkEntry (h, none)) es := by
  induction es with
  | nil => exact ⟨rfl, trivial, by simp, fun a _ => hl a, by simp, fun _ => rfl, rfl⟩
  | cons e es ih =>
    rw [List.map_cons] at hnd
    have hs := ih (List.nodup_cons.mp hnd).2
    rw [List.foldr_cons]
    generalize es.foldr linkEntry (h, none) = s at hs ⊢
    obtain ⟨hnext, hprev⟩ := hs.loose e.addr (List.nodup_cons.mp hnd).1
    have hins := insertBefore_spec hs.threads hnd hnext hprev hs.front
    rw [← hs.root] at hins
    obtain ⟨hroot, hthreads, hfront, hothers⟩ := hins
    have hhead : ∀ a ∈ ((e :: es).map (·.addr)).head?,
        (insertBefore s.1.links e.addr s.2).1.prev a = none := by
      rintro a ⟨⟩
      exact hfront
    have hloose : ∀ a ∉ (e :: es).map (·.addr), (insertBefore s.1.links e.addr s.2).1.next a = none ∧
        (insertBefore s.1.links e.addr s.2).1.prev a = none := by
      intro a ha
      obtain ⟨h1, h2⟩ := hothers a ha
      rw [h1, h2]
      exact hs.loose a fun hm => ha (List.mem_cons_of_mem _ hm)
    cases hc : e.isCall with
    | true =>
      have haddr := TimeEntry.addr_call hc
      rw [linkEntry_call hc hnext hprev]
      refine ⟨congrArg some hroot, hthreads, hhead, hloose, fun x hx hxc => ?_, fun i => ?_, ?_⟩
      · rcases List.mem_cons.mp hx with rfl | hx
        · simp [Heap.new]
        · have hne : x.addr ≠ e.addr := by
            intro heq
            exact (List.nodup_cons.mp hnd).1 (heq ▸ List.mem_map_of_mem hx)
          simp only [Heap.new, Function.update_of_ne hne]
          exact hs.calls x hx hxc
      · simpa [Heap.new, haddr] using hs.returns i
      · simp only [Heap.new, List.length_cons, hs.count, List.countP_cons, hc, if_true]
        omega
    | false =>
      rw [linkEntry_ret hc]
      refine ⟨congrArg some hroot, hthreads, hhead, hloose, fun x hx hxc => ?_, hs.returns, ?_⟩
      · rcases List.mem_cons.mp hx with rfl | hx
        · rw [hc] at hxc
          cases hxc
        · exact hs.calls x hx hxc
      · simpa [hc] using hs.count

/-- A walk along the links counts the list. -/
theorem Heap.length_eq {l : List Addr} (hl : h.links.Threads l) (hc : l.length ≤ h.allocated.length) :
    h.length l.head? = l.length := by
  rw [length]
  generalize h.allocated.length = fuel at hc
  induction l generalizing fuel with
  | nil => cases fuel <;> rfl
  | cons a l ih =>
    cases fuel with
    | zero => simp at hc
    | succ fuel =>
      have htail : h.links.Threads l := Links.Threads.right (A := [a]) hl
      rw [List.head?_cons, length.walk, hl.next_eq, ih htail fuel (by simpa using hc),
        List.length_cons]

end Linking

section History
variable [Inhabited Input] [Inhabited Output] {history : List (Operation Input Output)}
  {o : Operation Input Output} {i : Nat}

def Operation.callEntry (o : Operation Input Output) (i : Nat) : TimeEntry Input Output :=
  ⟨true, i, o.input, default, o.callTimeNs⟩

def Operation.retEntry (o : Operation Input Output) (i : Nat) : TimeEntry Input Output :=
  ⟨false, i, default, o.output, o.returnTimeNs⟩

theorem mem_timeEntries {e : TimeEntry Input Output} :
    e ∈ timeEntries history ↔
      ∃ (i : Nat) (o : Operation Input Output), history[i]? = some o ∧
        (e = o.callEntry i ∨ e = o.retEntry i) := by
  simp only [timeEntries, List.mem_flatMap, List.mem_cons, List.not_mem_nil, or_false, Prod.exists,
    List.mk_mem_zipIdx_iff_getElem?]
  exact exists_comm

theorem timeEntries_length : (timeEntries history).length = 2 * history.length := by
  simp [timeEntries, List.length_flatMap, Nat.mul_comm]

theorem timeEntries_nodup : ((timeEntries history).map (·.addr)).Nodup := by
  rw [timeEntries, List.map_flatMap, List.nodup_flatMap]
  refine ⟨fun p _ => by simp [TimeEntry.addr], ?_⟩
  have hidx : (history.zipIdx.map (·.2)).Nodup := by
    rw [List.zipIdx_map_snd]
    exact List.nodup_range'
  refine (List.pairwise_map.mp hidx).imp fun {a b} hab => ?_
  simp [Function.onFun, List.Disjoint, TimeEntry.addr, hab]

variable (sort : StdSort (TimeEntry Input Output) TimeEntry.before)
  (history : List (Operation Input Output))

/-- The nodes in the order of the sorted entries. -/
def entryOrder : List Addr := (sort.sort (timeEntries history)).map (·.addr)

/-- What `makeLinkedEntries` hands to the search. -/
structure Entries (node : Addr → Node Input Output) (L : List Addr) : Prop where
  nodup : L.Nodup
  length : L.length = 2 * history.length
  mem : ∀ a, a ∈ L ↔ ∃ i < history.length, a = .call i ∨ a = .ret i
  call : ∀ (i : Nat) (o : Operation Input Output), history[i]? = some o →
    (node (.call i)).input = o.input ∧ (node (.call i)).matching = some (.ret i) ∧ (node (.call i)).id = i
  ret : ∀ (i : Nat) (o : Operation Input Output), history[i]? = some o →
    (node (.ret i)).output = o.output ∧ (node (.ret i)).matching = none

theorem makeLinkedEntries_spec :
    Entries history (makeLinkedEntries sort history).1.node (entryOrder sort history) ∧
      (makeLinkedEntries sort history).1.links.Threads (entryOrder sort history) ∧
      (makeLinkedEntries sort history).2 = (entryOrder sort history).head? ∧
      (makeLinkedEntries sort history).1.allocated.length = 2 * history.length := by
  have hperm := sort.perm (timeEntries history)
  have hnd : (entryOrder sort history).Nodup :=
    (hperm.map _).nodup_iff.mpr timeEntries_nodup
  have halloc := allocated_foldl Heap.empty (fun a => ⟨rfl, rfl⟩) hnd
  have hlink := linkedUp_foldr halloc.loose hnd
  have hlen : (sort.sort (timeEntries history)).length = 2 * history.length := by
    rw [hperm.length_eq, timeEntries_length]
  have hmem : ∀ (i : Nat) (o : Operation Input Output), history[i]? = some o →
      o.callEntry i ∈ sort.sort (timeEntries history) ∧
        o.retEntry i ∈ sort.sort (timeEntries history) := fun i o ho =>
    ⟨hperm.mem_iff.mpr (mem_timeEntries.mpr ⟨i, o, ho, Or.inl rfl⟩),
      hperm.mem_iff.mpr (mem_timeEntries.mpr ⟨i, o, ho, Or.inr rfl⟩)⟩
  refine ⟨⟨hnd, by simp [entryOrder, hlen], fun a => ?_, fun i o ho => ?_, fun i o ho => ?_⟩,
    hlink.threads, hlink.root, ?_⟩
  · simp only [entryOrder, List.mem_map, hperm.mem_iff, mem_timeEntries]
    constructor
    · rintro ⟨e, ⟨i, o, ho, rfl | rfl⟩, rfl⟩
      · exact ⟨i, (List.getElem?_eq_some_iff.mp ho).1, Or.inl rfl⟩
      · exact ⟨i, (List.getElem?_eq_some_iff.mp ho).1, Or.inr rfl⟩
    · rintro ⟨i, hi, rfl | rfl⟩
      · exact ⟨_, ⟨i, _, List.getElem?_eq_getElem hi, Or.inl rfl⟩, rfl⟩
      · exact ⟨_, ⟨i, _, List.getElem?_eq_getElem hi, Or.inr rfl⟩, rfl⟩
  · have hnode := hlink.calls _ (hmem i o ho).1 rfl
    rw [show (o.callEntry i).addr = .call i from rfl] at hnode
    rw [makeLinkedEntries, hnode]
    exact ⟨rfl, rfl, rfl⟩
  · have hnode := halloc.returns _ (hmem i o ho).2 rfl
    rw [show (o.retEntry i).addr = .ret i from rfl] at hnode
    rw [makeLinkedEntries, hlink.returns, hnode]
    exact ⟨rfl, rfl⟩
  · have hcount := List.length_eq_countP_add_countP (·.isCall) (l := sort.sort (timeEntries history))
    have hnot : (sort.sort (timeEntries history)).countP (fun e => decide ¬e.isCall = true) =
        (sort.sort (timeEntries history)).countP (!·.isCall) := by
      congr 1
      funext e
      simp
    rw [makeLinkedEntries, hlink.count, halloc.count]
    simp only [Heap.empty, List.length_nil]
    omega

end History

end ChonKV.Porcupine
