import ChonKV.Porcupine.Entries

/-!
The loop of `CheckSingle` is a depth-first search over what is left of the history and the state that
was reached, so it answers whether some order of the calls runs through.
-/

set_option autoImplicit false

namespace ChonKV.Porcupine

open Backtrack

def Addr.opIndex : Addr → Nat
  | .headSentinel => 0
  | .call i => i
  | .ret i => i

def Addr.isCall : Addr → Prop
  | .call _ => True
  | _ => False

/-- The calls that no return comes before. -/
def leading : List Addr → List Nat
  | .call i :: l => i :: leading l
  | _ => []

def remove (i : Nat) (L : List Addr) : List Addr :=
  L.filter fun a => decide (a ≠ .call i ∧ a ≠ .ret i)

/-- What is left of the list when the operations of the set are lifted out. -/
def rest (L : List Addr) (b : Bitset) : List Addr := L.filter fun a => !b.get a.opIndex

variable {Input Output State : Type} {node : Addr → Node Input Output} {L A B C : List Addr}
  {i n : Nat} {b : Bitset} {a : Addr}

theorem leading_length (L : List Addr) : (leading L).length ≤ L.length := by
  induction L with
  | nil => simp [leading]
  | cons a L ih =>
    cases a with
    | call i => simpa [leading] using ih
    | headSentinel | ret i => simp [leading]

theorem call_mem_of_leading (h : i ∈ leading L) : Addr.call i ∈ L := by
  induction L with
  | nil => simp [leading] at h
  | cons a L ih =>
    cases a with
    | call j =>
      rcases List.mem_cons.mp h with rfl | h
      · exact List.mem_cons_self
      · exact List.mem_cons_of_mem _ (ih h)
    | headSentinel | ret j => simp [leading] at h

theorem remove_length_lt (h : Addr.call i ∈ L) : (remove i L).length < L.length :=
  List.length_filter_lt_length_iff_exists.mpr ⟨_, h, by simp⟩

theorem remove_split (hnd : (A ++ .call i :: (B ++ .ret i :: C)).Nodup) :
    remove i (A ++ .call i :: (B ++ .ret i :: C)) = A ++ (B ++ C) := by
  have hkeep : ∀ l : List Addr, Addr.call i ∉ l → Addr.ret i ∉ l → remove i l = l := by
    intro l hc hr
    refine List.filter_eq_self.mpr fun a ha => ?_
    simp only [ne_eq, decide_eq_true_eq]
    exact ⟨fun h => hc (h ▸ ha), fun h => hr (h ▸ ha)⟩
  obtain ⟨-, hnd', hA⟩ := List.nodup_append.mp hnd
  obtain ⟨hc, hnd''⟩ := List.nodup_cons.mp hnd'
  obtain ⟨-, hndC, hB⟩ := List.nodup_append.mp hnd''
  have hApart := hkeep A (fun h => hA _ h _ (by simp) rfl) (fun h => hA _ h _ (by simp) rfl)
  have hBpart := hkeep B (fun h => hc (by simp [h])) (fun h => hB _ h _ (by simp) rfl)
  have hCpart := hkeep C (fun h => hc (by simp [h])) (List.nodup_cons.mp hndC).1
  rw [remove] at hApart hBpart hCpart ⊢
  rw [List.filter_append, List.filter_cons_of_neg (by simp), List.filter_append,
    List.filter_cons_of_neg (by simp), hApart, hBpart, hCpart]

/-- The positions of the search: what is left of the list, and the state. -/
def callProblem (model : Model Input Output State) (node : Addr → Node Input Output) :
    Problem (List Addr × State) Nat where
  options p := leading p.1
  move p i :=
    let r := model.step p.2 (node (.call i)).input (node (.ret i)).output
    if r.1 then some (remove i p.1, r.2) else none
  solved p := p.1 = []
  rank p := p.1.length
  options_le p := leading_length p.1
  rank_lt {p i q} hi hq := by
    simp only [Option.ite_none_right_eq_some, Option.some.injEq] at hq
    rw [← hq.2]
    exact remove_length_lt (call_mem_of_leading hi)

/-- A place in the list that only calls come before, and what is still to be tried there. -/
def Stands (L : List Addr) (place : List Addr) (todo : List Nat) : Prop :=
  ∃ A, L = A ++ place ∧ (∀ a ∈ A, a.isCall) ∧ todo = leading place

/-- The stack of the calls: each was lifted from the list that the level below it was at. -/
def Stacked (node : Addr → Node Input Output) (L : List Addr) :
    Links Addr → Bitset → List (CallsEntry State) → List (Level (List Addr × State) Nat) → Prop
  | _, _, [], [] => True
  | links, linearized, c :: calls, f :: below =>
    ∃ i ls b place, c.entry = .call i ∧ b.get i = false ∧ linearized = b.set i ∧
      links = lift node ls (.call i) ∧ unlift node links (.call i) = ls ∧
      ls.Threads (.headSentinel :: rest L b) ∧ f.pos = (rest L b, c.state) ∧
      Stands (rest L b) (.call i :: place) (i :: f.todo) ∧ Stacked node L ls b calls below
  | _, _, _, _ => False

/-- The variables of the loop say where the search is. -/
structure Follows (node : Addr → Node Input Output) (L : List Addr) (n : Nat) (s : Search State)
    (a : Config (List Addr × State) Nat) : Prop where
  pos : a.top.pos = (rest L s.linearized, s.state)
  threads : s.links.Threads (.headSentinel :: rest L s.linearized)
  entry : ∃ place, s.entry = place.head? ∧ Stands (rest L s.linearized) place a.top.todo
  memo : ∀ q, a.memo q ↔ ∃ k, ∃ ce ∈ s.cache k, q = (rest L ce.linearized, ce.state)
  below : Stacked node L s.links s.linearized s.calls a.below
  size : n ≤ 64 * s.linearized.words.length

theorem Stands.skip {place : List Addr} {todo : List Nat} (h : Stands L (.call i :: place) todo) :
    todo = i :: leading place ∧ Stands L place (leading place) := by
  obtain ⟨A, hA, hcalls, rfl⟩ := h
  refine ⟨rfl, A ++ [.call i], by simpa using hA, fun a ha => ?_, rfl⟩
  rcases List.mem_append.mp ha with ha | ha
  · exact hcalls a ha
  · rw [List.mem_singleton.mp ha]
    trivial

theorem Stands.next {ls : Links Addr} {place : List Addr} {todo : List Nat}
    (h : Stands L (a :: place) todo) (hl : ls.Threads (.headSentinel :: L)) :
    ls.next a = place.head? := by
  obtain ⟨A, hA, -, -⟩ := h
  rw [hA] at hl
  exact (Links.Threads.right (A := .headSentinel :: A) hl).next_eq

theorem stands_first : Stands L L (leading L) := ⟨[], rfl, by simp, rfl⟩

theorem mem_rest : a ∈ rest L b ↔ a ∈ L ∧ b.get a.opIndex = false := by
  simp [rest]

section
variable {history : List (Operation Input Output)} {links : Links Addr}
  {o : Operation Input Output} (hE : Entries history node L)
include hE

theorem Entries.get_mem (ha : a ∈ L) : ∃ o, history[a.opIndex]? = some o := by
  obtain ⟨i, hi, rfl | rfl⟩ := (hE.mem a).mp ha <;>
    exact ⟨_, List.getElem?_eq_getElem hi⟩

/-- Marking an operation takes its call and its return away. -/
theorem Entries.rest_set (hi : i / 64 < b.words.length) : rest L (b.set i) = remove i (rest L b) := by
  rw [rest, remove, rest, List.filter_filter]
  refine List.filter_congr fun a ha => ?_
  rw [Bitset.get_set hi]
  obtain ⟨j, -, rfl | rfl⟩ := (hE.mem a).mp ha
  all_goals by_cases hji : j = i <;> simp [Addr.opIndex, hji]

/-- A call that is left has its return behind it. -/
theorem Entries.split {place : List Addr} {todo : List Nat}
    (h : Stands (rest L b) (.call i :: place) todo) :
    ∃ A B C, rest L b = A ++ .call i :: (B ++ .ret i :: C) ∧ place = B ++ .ret i :: C := by
  obtain ⟨A, hA, hcalls, -⟩ := h
  have hcall : Addr.call i ∈ rest L b := by simp [hA]
  have hret : Addr.ret i ∈ rest L b := by
    obtain ⟨hm, hb⟩ := mem_rest.mp hcall
    refine mem_rest.mpr ⟨(hE.mem _).mpr ?_, hb⟩
    obtain ⟨j, hj, heq⟩ := (hE.mem _).mp hm
    simp only [Addr.call.injEq, reduceCtorEq, or_false] at heq
    exact ⟨j, hj, Or.inr (by rw [heq])⟩
  rw [hA] at hret
  have hplace : Addr.ret i ∈ place := by
    rcases List.mem_append.mp hret with h | h
    · exact absurd (hcalls _ h) id
    · simpa using h
  obtain ⟨B, C, hBC⟩ := List.append_of_mem hplace
  exact ⟨A, B, C, by rw [hA, hBC], hBC⟩

theorem Entries.rest_nodup : (Addr.headSentinel :: rest L b).Nodup := by
  refine List.nodup_cons.mpr ⟨fun h => ?_, hE.nodup.filter _⟩
  obtain ⟨i, -, h | h⟩ := (hE.mem _).mp (mem_rest.mp h).1 <;> cases h

/-- Only calls are left when nothing is: each of them would have its return behind it. -/
theorem Entries.rest_nil {todo : List Nat} (h : Stands (rest L b) [] todo) : rest L b = [] := by
  obtain ⟨A, hA, hcalls, -⟩ := h
  rw [List.append_nil] at hA
  cases hr : rest L b with
  | nil => rfl
  | cons a l =>
    have ha := hcalls a (by rw [← hA, hr]; simp)
    cases a with
    | call i =>
      have hst : Stands (rest L b) (.call i :: l) (leading (.call i :: l)) := by
        rw [hr]
        exact stands_first
      obtain ⟨A', B, C, hsp, -⟩ := hE.split hst
      have hret := hcalls (.ret i) (by rw [← hA, hsp]; simp)
      exact absurd hret id
    | headSentinel | ret i => exact absurd ha id

variable {s : Search State} {memo : List Addr × State → Prop} {p : List Addr × State}
  {todo : List Nat} {below : List (Level (List Addr × State) Nat)}
  {model : Model Input Output State} {hash : StateHash State} {cap : Nat}

omit hE in
/-- The call is passed over. -/
theorem Follows.skip (h : Follows node L n s ⟨memo, ⟨p, todo⟩, below⟩)
    (he : s.entry = some (.call i)) :
    ∃ todo', todo = i :: todo' ∧
      Follows node L n { s with entry := s.links.next (.call i) } ⟨memo, ⟨p, todo'⟩, below⟩ := by
  obtain ⟨place, hplace, hst⟩ := h.entry
  rw [he] at hplace
  cases place with
  | nil => cases hplace
  | cons a place =>
    cases hplace
    obtain ⟨htodo, hst'⟩ := hst.skip
    exact ⟨_, htodo, h.pos, h.threads, ⟨place, hst.next h.threads, hst'⟩, h.memo, h.below, h.size⟩

/-- A call that the loop has come to has its bit in the set, unset. -/
theorem Follows.fresh (h : Follows node L n s ⟨memo, ⟨p, todo⟩, below⟩)
    (hn : history.length ≤ n) (hm : Addr.call i ∈ rest L s.linearized) :
    s.linearized.get i = false ∧ rest L (s.linearized.set i) = remove i p.1 := by
  obtain ⟨hL, hget⟩ := mem_rest.mp hm
  obtain ⟨o, ho⟩ := hE.get_mem hL
  have hi : i < history.length := (List.getElem?_eq_some_iff.mp ho).1
  have hsize : i / 64 < s.linearized.words.length := by
    have hs := h.size
    omega
  have hpos : p = (rest L s.linearized, s.state) := h.pos
  exact ⟨hget, by rw [hE.rest_set hsize, hpos]⟩

/-- The call is lifted out, and the search starts over on what is left. -/
theorem Follows.enter (h : Follows node L n s ⟨memo, ⟨p, i :: todo⟩, below⟩)
    (hn : history.length ≤ n) (he : s.entry = some (.call i)) (st : State)
    {cache : BitVec 64 → List (CacheEntry State)} {cacheSize : Nat}
    {memo' : List Addr × State → Prop}
    (hm : ∀ q, memo' q ↔ ∃ k, ∃ ce ∈ cache k, q = (rest L ce.linearized, ce.state)) :
    Follows node L n
      { links := lift node s.links (.call i), linearized := s.linearized.set i, cache := cache,
        cacheSize := cacheSize, calls := ⟨.call i, s.state⟩ :: s.calls, state := st,
        entry := (lift node s.links (.call i)).next .headSentinel }
      ⟨memo', (callProblem model node).level (remove i p.1, st), ⟨p, todo⟩ :: below⟩ := by
  obtain ⟨place, hplace, hst⟩ := h.entry
  rw [he] at hplace
  cases place with
  | nil => cases hplace
  | cons a place =>
    cases hplace
    obtain ⟨A, B, C, hsp, -⟩ := hE.split hst
    have hmem : Addr.call i ∈ rest L s.linearized := by simp [hsp]
    obtain ⟨hget, hrest⟩ := h.fresh hE hn hmem
    obtain ⟨o, ho⟩ := hE.get_mem (mem_rest.mp hmem).1
    have hnd := hE.rest_nodup (b := s.linearized)
    have hthreads := h.threads
    rw [hsp] at hnd hthreads
    obtain ⟨hlift, hunlift⟩ := lift_spec (hE.call i o ho).2.1 hthreads hnd
    have hpos : p = (rest L s.linearized, s.state) := h.pos
    have hleft : A ++ (B ++ C) = rest L (s.linearized.set i) := by
      rw [hrest, hpos, hsp, remove_split (List.nodup_cons.mp hnd).2]
    rw [hleft] at hlift
    refine ⟨?_, hlift, ?_, hm, ?_, by simpa using h.size⟩
    · simp [Problem.level, hrest]
    · refine ⟨rest L (s.linearized.set i), hlift.next_eq, ?_⟩
      have hfirst := stands_first (L := rest L (s.linearized.set i))
      simpa [Problem.level, callProblem, hrest] using hfirst
    · exact ⟨i, s.links, s.linearized, place, rfl, hget, rfl, rfl, hunlift, h.threads, hpos, hst,
        h.below⟩

/-- The last call that was lifted is put back, and the search goes on behind it. -/
theorem Follows.back {c : CallsEntry State} {calls : List (CallsEntry State)}
    {f : Level (List Addr × State) Nat}
    (h : Follows node L n s ⟨memo, ⟨p, todo⟩, f :: below⟩) (hc : s.calls = c :: calls) :
    Follows node L n
      { s with
        links := unlift node s.links c.entry,
        linearized := s.linearized.clear (node c.entry).id, calls := calls, state := c.state,
        entry := (unlift node s.links c.entry).next c.entry }
      ⟨memo, f, below⟩ := by
  have hb := h.below
  rw [hc] at hb
  obtain ⟨i, ls, b, place, hce, hget, hlin, hlinks, hun, hthreads, hpos, hst, hb'⟩ := hb
  have hmem : Addr.call i ∈ rest L b := by
    obtain ⟨A, hA, -, -⟩ := hst
    simp [hA]
  obtain ⟨o, ho⟩ := hE.get_mem (mem_rest.mp hmem).1
  have hclear : s.linearized.clear (node c.entry).id = b := by
    rw [hlin, hce, (hE.call i o ho).2.2, Bitset.clear_set hget]
  have hsize : n ≤ 64 * b.words.length := by
    have hs := h.size
    rw [hlin, Bitset.set_length] at hs
    exact hs
  obtain ⟨htodo, hst'⟩ := hst.skip
  rw [hclear, hce, hun]
  refine ⟨hpos, hthreads, ⟨place, hst.next hthreads, ?_⟩, h.memo, hb', hsize⟩
  rw [(List.cons.inj htodo).2]
  exact hst'

/-- One turn of the loop is one turn of the search. -/
theorem turn_follows (heq : ∀ x y, model.equal x y = true → x = y) (hn : history.length ≤ n)
    {a : Config (List Addr × State) Nat} (h : Follows node L n s a) :
    (∃ s' b, turn model hash cap node s = .inl s' ∧ Follows node L n s' b ∧
      (callProblem model node).Turn a b) ∨
      ∃ r, turn model hash cap node s = .inr r ∧ (callProblem model node).Ends a r := by
  obtain ⟨memo, ⟨p, todo⟩, below⟩ := a
  have hpos : p = (rest L s.linearized, s.state) := h.pos
  obtain ⟨place, hplace, hst⟩ := h.entry
  cases place with
  | nil =>
    have hnil := hE.rest_nil hst
    refine Or.inr ⟨true, by simp [turn, hplace], .found ?_⟩
    simp [callProblem, hpos, hnil]
  | cons x place =>
    have he : s.entry = some x := hplace
    have hx : x ∈ rest L s.linearized := by
      obtain ⟨A, hA, -, -⟩ := hst
      simp [hA]
    obtain ⟨i, hi, rfl | rfl⟩ := (hE.mem x).mp (mem_rest.mp hx).1
    · obtain ⟨todo', rfl, hskip⟩ := h.skip he
      obtain ⟨-, hmatch, hid⟩ := hE.call i _ (List.getElem?_eq_getElem hi)
      generalize hr : model.step s.state (node (.call i)).input (node (.ret i)).output = r
      obtain ⟨ok, st⟩ := r
      cases ok with
      | false =>
        refine Or.inl ⟨_, _, by simp [turn, he, hmatch, hr], hskip, .fail ?_⟩
        simp [callProblem, hpos, hr]
      | true =>
        have hrest := (h.fresh hE hn hx).2
        have hmove : (callProblem model node).move p i = some (remove i p.1, st) := by
          simp [callProblem, hpos, hr]
        generalize hseen : ((s.cache (cacheKey hash (s.linearized.set i) st)).any fun ce =>
          ce.linearized.equals (s.linearized.set i) && model.equal ce.state st) = seen
        cases seen with
        | true =>
          obtain ⟨ce, hce, hsame⟩ := List.any_eq_true.mp hseen
          rw [Bool.and_eq_true, Bitset.equals, decide_eq_true_eq] at hsame
          have hmem : memo (remove i p.1, st) := by
            refine (h.memo _).mpr ⟨_, ce, hce, ?_⟩
            have hlin : ce.linearized = s.linearized.set i := by
              cases hcl : ce.linearized
              cases hsl : s.linearized.set i
              rw [hcl, hsl] at hsame
              exact congrArg Bitset.mk hsame.1
            rw [hlin, hrest, heq _ _ hsame.2]
          exact Or.inl ⟨_, _, by simp [turn, he, hmatch, hid, hr, hseen], hskip, .prune hmove hmem⟩
        | false =>
          by_cases hcap : s.cacheSize < cap
          · have hturn : turn model hash cap node s = .inl {
                links := lift node s.links (.call i), linearized := s.linearized.set i,
                cache := Function.update s.cache (cacheKey hash (s.linearized.set i) st)
                  (s.cache (cacheKey hash (s.linearized.set i) st) ++
                    [⟨s.linearized.set i, st⟩]),
                cacheSize := s.cacheSize + 1, calls := ⟨.call i, s.state⟩ :: s.calls, state := st,
                entry := (lift node s.links (.call i)).next .headSentinel } := by
              simp [turn, he, hmatch, hid, hr, hseen, hcap]
            refine Or.inl ⟨_, _, hturn, h.enter hE hn he st fun q => Iff.rfl,
              .enter hmove fun q hq => ?_⟩
            obtain ⟨k, ce, hce, rfl⟩ := hq
            rw [Function.update_apply] at hce
            split_ifs at hce with hk
            · rcases List.mem_append.mp hce with hce | hce
              · exact Or.inl ((h.memo _).mpr ⟨_, ce, hce, rfl⟩)
              · rw [List.mem_singleton.mp hce, hrest]
                exact Or.inr rfl
            · exact Or.inl ((h.memo _).mpr ⟨k, ce, hce, rfl⟩)
          · have hturn : turn model hash cap node s = .inl {
                links := lift node s.links (.call i), linearized := s.linearized.set i,
                cache := s.cache, cacheSize := s.cacheSize, calls := ⟨.call i, s.state⟩ :: s.calls,
                state := st, entry := (lift node s.links (.call i)).next .headSentinel } := by
              simp [turn, he, hmatch, hid, hr, hseen, hcap]
            exact Or.inl ⟨_, _, hturn, h.enter hE hn he st h.memo,
              .enter hmove fun q hq => Or.inl hq⟩
    · obtain ⟨-, hmatch⟩ := hE.ret i _ (List.getElem?_eq_getElem hi)
      obtain ⟨A, hA, -, rfl⟩ := hst
      have hunsolved : ¬ (callProblem model node).solved p := by
        simp [callProblem, hpos, hA]
      cases hc : s.calls with
      | nil =>
        have hb := h.below
        rw [hc] at hb
        cases below with
        | nil => exact Or.inr ⟨false, by simp [turn, he, hmatch, hc], .lost hunsolved⟩
        | cons f below => exact hb.elim
      | cons c calls =>
        have hb := h.below
        rw [hc] at hb
        cases below with
        | nil => exact hb.elim
        | cons f below =>
          exact Or.inl ⟨_, _, by simp [turn, he, hmatch, hc], h.back hE hc, .back hunsolved⟩

omit hE in
/-- While the flag is not raised the loop is the plain loop of the search. -/
theorem loop_eq {kill : Nat → Bool} (hk : ∀ t, kill t = false) (fuel t : Nat) (s : Search State) :
    loop model hash cap node kill fuel t s = iterate (turn model hash cap node) fuel s := by
  induction fuel generalizing t s with
  | zero => rfl
  | succ fuel ih =>
    simp only [loop, iterate, hk, Bool.and_false, Bool.false_eq_true, if_false]
    cases turn model hash cap node s with
    | inl s' => exact ih _ _
    | inr r => rfl

end

theorem callProblem_sentinel (model : Model Input Output State) (node : Addr → Node Input Output) (x : Node Input Output) :
    callProblem model (Function.update node .headSentinel x) = callProblem model node := by
  simp [callProblem]

theorem Entries.sentinel {history : List (Operation Input Output)} (hE : Entries history node L)
    (x : Node Input Output) : Entries history (Function.update node .headSentinel x) L :=
  ⟨hE.nodup, hE.length, hE.mem, fun i o ho => by simpa using hE.call i o ho,
    fun i o ho => by simpa using hE.ret i o ho⟩

/-- The sentinel goes in front of the list. -/
theorem threads_sentinel {ls : Links Addr} {l : List Addr} (h : ls.Threads (a :: l))
    (hnd : (Addr.headSentinel :: a :: l).Nodup) :
    ((ls.setPrev (some a) (some .headSentinel)).setNext (some .headSentinel) (some a)).Threads
      (.headSentinel :: a :: l) := by
  obtain ⟨hs, hnd'⟩ := List.nodup_cons.mp hnd
  refine ⟨by simp [Links.setNext_next], by simp [Links.setPrev_prev], ?_⟩
  refine h.congr (fun y hy => ?_) (fun y hy => ?_)
  · have hy' : Addr.headSentinel ≠ y := fun h => hs (h ▸ hy)
    simp [Links.setNext_next, hy']
  · have hy' : a ≠ y := fun h => (List.nodup_cons.mp hnd').1 (h ▸ hy)
    simp [Links.setPrev_prev, hy']

theorem rest_make : rest L (Bitset.make n) = L :=
  List.filter_eq_self.mpr fun a _ => by simp [Bitset.get_make]

/-- The answer for a list of entries, of which no turn saw the flag raised. -/
theorem checkSingleCapped_spec [Inhabited Input] [Inhabited Output] {model : Model Input Output State}
    (heq : ∀ x y, model.equal x y = true → x = y) (hash : StateHash State) (cap : Nat)
    {kill : Nat → Bool} (hk : ∀ t, kill t = false) {history : List (Operation Input Output)}
    {h : Heap Input Output} {head : Option Addr} (hE : Entries history h.node L)
    (hthreads : h.links.Threads L) (hroot : head = L.head?) (hcount : L.length ≤ h.allocated.length) :
    ∃ r, checkSingleCapped model hash cap kill h head = some r ∧
      (r = true ↔ (callProblem model h.node).Solvable (L, model.init)) := by
  have hlen : h.length head / 2 = history.length := by
    rw [hroot, Heap.length_eq hthreads hcount, hE.length]
    omega
  cases L with
  | nil =>
    have hzero : history.length = 0 := by
      have hl := hE.length
      rw [List.length_nil] at hl
      omega
    exact ⟨true, by simp [checkSingleCapped, hlen, hzero],
      by simpa using Problem.Solvable.solved rfl⟩
  | cons a l =>
    obtain rfl : head = some a := hroot
    have hpos : history.length ≠ 0 := by
      have hl := hE.length
      rw [List.length_cons] at hl
      omega
    have hnd : (Addr.headSentinel :: a :: l).Nodup := by
      have hr := hE.rest_nodup (b := Bitset.make 0)
      rwa [rest_make] at hr
    have hnew : ((h.links.setNext (some .headSentinel) none).setPrev (some .headSentinel) none).Threads
        (a :: l) := by
      have hs := (List.nodup_cons.mp hnd).1
      refine hthreads.congr (fun y hy => ?_) (fun y hy => ?_)
      · have hy' : Addr.headSentinel ≠ y := fun h => hs (h ▸ hy)
        simp [Links.setNext_next, hy']
      · have hy' : Addr.headSentinel ≠ y := fun h => hs (h ▸ List.mem_cons_of_mem _ hy)
        simp [Links.setPrev_prev, hy']
    have hstart := threads_sentinel hnew hnd
    have hsound := Problem.Sound.start (callProblem model (Function.update h.node .headSentinel
      ⟨default, default, true, none, 0⟩)) (a :: l, model.init)
    have hwork := Problem.work_start (callProblem model (Function.update h.node .headSentinel
      ⟨default, default, true, none, 0⟩)) (fun _ => False) (a :: l, model.init)
    have hrank : (callProblem model (Function.update h.node .headSentinel
        ⟨default, default, true, none, 0⟩)).rank (a :: l, model.init) = 2 * history.length := hE.length
    rw [hrank] at hwork
    simp only [checkSingleCapped, hlen, hpos, if_false, Heap.new]
    rw [loop_eq hk,
      ← callProblem_sentinel model h.node ⟨default, default, true, none, 0⟩]
    refine iterate_search (R := Follows _ (a :: l) history.length)
      (fun s c hs _ => turn_follows (hE.sentinel _) heq le_rfl hs) ?_ hsound hwork
    refine ⟨?_, ?_, ?_, ?_, trivial, ?_⟩
    · simp [Problem.level, rest_make]
    · rw [rest_make]
      exact hstart
    · rw [rest_make]
      exact ⟨a :: l, hstart.next_eq, stands_first⟩
    · simp
    · simp only [Bitset.make, List.length_replicate]
      omega

/-- The answer for one sub-history. -/
theorem checkSingle_spec [Inhabited Input] [Inhabited Output] {model : Model Input Output State}
    (heq : ∀ x y, model.equal x y = true → x = y) (hash : StateHash State) {kill : Nat → Bool}
    (hk : ∀ t, kill t = false) (sort : StdSort (TimeEntry Input Output) TimeEntry.before)
    (history : List (Operation Input Output)) :
    ∃ r, checkSingle model hash kill (makeLinkedEntries sort history).1
        (makeLinkedEntries sort history).2 = some r ∧
      (r = true ↔ (callProblem model (makeLinkedEntries sort history).1.node).Solvable
        (entryOrder sort history, model.init)) := by
  obtain ⟨hE, hthreads, hroot, hcount⟩ := makeLinkedEntries_spec sort history
  rw [checkSingle]
  exact checkSingleCapped_spec heq hash _ hk hE hthreads hroot (by rw [hE.length, hcount])

end ChonKV.Porcupine
