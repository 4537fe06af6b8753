import ChonKV.Backtrack.Links
import ChonKV.Backtrack.Search
import ChonKV.Porcupine.Model
import Mathlib.Data.List.Sort

/-!
The checker of `kvraft/porcupine.cpp`: the linked entries of a history, and the search over them that
lifts the calls it has linearized out of the list and puts them back when it returns.
-/

set_option autoImplicit false

namespace ChonKV.Porcupine

open Backtrack

structure Bitset where
  words : List (BitVec 64)
  deriving DecidableEq

def Bitset.make (nBits : Nat) : Bitset := ⟨List.replicate ((nBits + 63) / 64) 0⟩

def Bitset.get (b : Bitset) (pos : Nat) : Bool :=
  decide ((b.words.getD (pos / 64) 0 >>> (pos % 64)) &&& 1#64 = 1#64)

def Bitset.set (b : Bitset) (pos : Nat) : Bitset :=
  ⟨b.words.modify (pos / 64) (· ||| (1#64 <<< (pos % 64)))⟩

def Bitset.clear (b : Bitset) (pos : Nat) : Bitset :=
  ⟨b.words.modify (pos / 64) (· &&& ~~~(1#64 <<< (pos % 64)))⟩

def Bitset.hash (b : Bitset) : BitVec 64 :=
  b.words.foldl (· ^^^ ·) 0 ^^^ BitVec.ofNat 64 (b.words.map fun w => w.cpop.toNat).sum

def Bitset.equals (a b : Bitset) : Bool := decide (a.words = b.words)

/-- What `std::sort` promises: equal elements come in any order. -/
structure StdSort (α : Type) (lt : α → α → Bool) where
  sort : List α → List α
  perm : ∀ l, (sort l).Perm l
  sorted : ∀ l, (sort l).Pairwise fun a b => lt b a = false

/-- The nodes are named by what they are allocated for. -/
inductive Addr where
  | headSentinel
  | call (opIndex : Nat)
  | ret (opIndex : Nat)
  deriving DecidableEq

/-- `matching` is the field `match`: a call has its return, a return has none. The links are kept
apart in the `Heap`. -/
structure Node (Input Output : Type) where
  input : Input
  output : Output
  isInput : Bool := true
  matching : Option Addr := none
  id : Nat := 0

/-- `allocated` lists the nodes, so that a walk along the links ends. -/
structure Heap (Input Output : Type) where
  node : Addr → Node Input Output
  links : Links Addr
  allocated : List Addr

structure TimeEntry (Input Output : Type) where
  isCall : Bool
  opIndex : Nat
  input : Input
  output : Output
  timeNs : Int

variable {Input Output State : Type}

def TimeEntry.before (a b : TimeEntry Input Output) : Bool := decide (a.timeNs < b.timeNs)

def Heap.new (h : Heap Input Output) (a : Addr) (n : Node Input Output) : Heap Input Output where
  node := Function.update h.node a n
  links := (h.links.setNext (some a) none).setPrev (some a) none
  allocated := a :: h.allocated

def insertBefore (ls : Links Addr) (n : Addr) (mark : Option Addr) : Links Addr × Addr :=
  match mark with
  | none => (ls, n)
  | some mark =>
    let beforeMark := ls.prev mark
    let ls := ls.setPrev (some mark) (some n)
    let ls := ls.setNext (some n) (some mark)
    match beforeMark with
    | none => (ls, n)
    | some beforeMark =>
      let ls := ls.setPrev (some n) (some beforeMark)
      let ls := ls.setNext (some beforeMark) (some n)
      (ls, n)

def Heap.length (h : Heap Input Output) (n : Option Addr) : Nat :=
  walk h.allocated.length n
where
  walk : Nat → Option Addr → Nat
    | 0, _ => 0
    | _ + 1, none => 0
    | fuel + 1, some a => walk fuel (h.links.next a) + 1

def lift (node : Addr → Node Input Output) (ls : Links Addr) (entry : Addr) : Links Addr :=
  let ls := ls.setNext (ls.prev entry) (ls.next entry)
  let ls := ls.setPrev (ls.next entry) (ls.prev entry)
  match (node entry).matching with
  | none => ls
  | some ret =>
    let ls := ls.setPrev (ls.next ret) (ls.prev ret)
    ls.setNext (ls.prev ret) (ls.next ret)

def unlift (node : Addr → Node Input Output) (ls : Links Addr) (entry : Addr) : Links Addr :=
  match (node entry).matching with
  | none => ls
  | some ret =>
    let ls := ls.setPrev (ls.next ret) (some ret)
    let ls := ls.setNext (ls.prev ret) (some ret)
    let ls := ls.setPrev (ls.next entry) (some entry)
    ls.setNext (ls.prev entry) (some entry)

section Entries
variable [Inhabited Input] [Inhabited Output]

def timeEntries (history : List (Operation Input Output)) : List (TimeEntry Input Output) :=
  history.zipIdx.flatMap fun p =>
    [⟨true, p.2, p.1.input, default, p.1.callTimeNs⟩,
      ⟨false, p.2, default, p.1.output, p.1.returnTimeNs⟩]

def Heap.empty : Heap Input Output where
  node := fun _ => ⟨default, default, true, none, 0⟩
  links := ⟨fun _ => none, fun _ => none⟩
  allocated := []

def newRet (h : Heap Input Output) (e : TimeEntry Input Output) : Heap Input Output :=
  if e.isCall then h else h.new (.ret e.opIndex) ⟨default, e.output, false, none, e.opIndex⟩

/-- One turn of the loop that links the entries from the last to the first. -/
def linkEntry (e : TimeEntry Input Output) (s : Heap Input Output × Option Addr) :
    Heap Input Output × Option Addr :=
  if e.isCall then
    let h := s.1.new (.call e.opIndex) ⟨e.input, default, true, some (.ret e.opIndex), e.opIndex⟩
    let (links, root) := insertBefore h.links (.call e.opIndex) s.2
    ({ h with links := links }, some root)
  else
    let (links, root) := insertBefore s.1.links (.ret e.opIndex) s.2
    ({ s.1 with links := links }, some root)

def makeLinkedEntries (sort : StdSort (TimeEntry Input Output) TimeEntry.before)
    (history : List (Operation Input Output)) : Heap Input Output × Option Addr :=
  let entries := sort.sort (timeEntries history)
  let h := entries.foldl newRet Heap.empty
  entries.foldr linkEntry (h, none)

end Entries

structure CacheEntry (State : Type) where
  linearized : Bitset
  state : State

structure CallsEntry (State : Type) where
  entry : Addr
  state : State

/-- `std::hash` of a state. -/
abbrev StateHash (State : Type) := State → BitVec 64

def cacheKey (hash : StateHash State) (lin : Bitset) (s : State) : BitVec 64 := lin.hash ^^^ hash s

def cacheCap (n : Nat) : Nat := min (n * 1024) (256 * 1024 * 1024 / (n / 8 + 64))

/-- The variables of `CheckSingle`; the top of `calls` comes first. -/
structure Search (State : Type) where
  links : Links Addr
  linearized : Bitset
  cache : BitVec 64 → List (CacheEntry State)
  cacheSize : Nat
  calls : List (CallsEntry State)
  state : State
  entry : Option Addr

/-- The body of the loop, after `kill` was looked at. -/
def turn (model : Model Input Output State) (hash : StateHash State) (cap : Nat)
    (node : Addr → Node Input Output) (s : Search State) : Search State ⊕ Bool :=
  match s.entry with
  | none => .inr true
  | some entry =>
    match (node entry).matching with
    | some ret =>
      let (ok, newState) := model.step s.state (node entry).input (node ret).output
      if ok then
        let newLin := s.linearized.set (node entry).id
        let k := cacheKey hash newLin newState
        let seen := (s.cache k).any fun ce =>
          ce.linearized.equals newLin && model.equal ce.state newState
        if !seen then
          let (cache, cacheSize) :=
            if s.cacheSize < cap then
              (Function.update s.cache k (s.cache k ++ [⟨newLin, newState⟩]), s.cacheSize + 1)
            else (s.cache, s.cacheSize)
          let links := lift node s.links entry
          .inl {
            links := links, linearized := s.linearized.set (node entry).id, cache := cache,
            cacheSize := cacheSize, calls := ⟨entry, s.state⟩ :: s.calls, state := newState,
            entry := links.next .headSentinel }
        else .inl { s with entry := s.links.next entry }
      else .inl { s with entry := s.links.next entry }
    | none =>
      match s.calls with
      | [] => .inr false
      | top :: calls =>
        let links := unlift node s.links top.entry
        .inl { s with
          links := links, linearized := s.linearized.clear (node top.entry).id, calls := calls,
          state := top.state, entry := links.next top.entry }

/-- The loop: `kill t` is what its turn `t` reads of the flag. It is cut off when the fuel is up. -/
def loop (model : Model Input Output State) (hash : StateHash State) (cap : Nat)
    (node : Addr → Node Input Output) (kill : Nat → Bool) : Nat → Nat → Search State → Option Bool
  | 0, _, _ => none
  | fuel + 1, t, s =>
    if s.entry.isSome && kill t then some false
    else
      match turn model hash cap node s with
      | .inl s => loop model hash cap node kill fuel (t + 1) s
      | .inr r => some r

/-- `CheckSingle` with the capacity of the cache left open. -/
def checkSingleCapped [Inhabited Input] [Inhabited Output] (model : Model Input Output State)
    (hash : StateHash State) (cap : Nat) (kill : Nat → Bool) (h : Heap Input Output)
    (head : Option Addr) : Option Bool :=
  let n := h.length head / 2
  if n = 0 then some true
  else
    let h := h.new .headSentinel ⟨default, default, true, none, 0⟩
    let links := match head with
      | none => h.links
      | some a => h.links.setPrev (some a) (some .headSentinel)
    let links := links.setNext (some .headSentinel) head
    loop model hash cap h.node kill (turns (2 * n + 1)) 0 {
      links := links, linearized := .make n, cache := fun _ => [], cacheSize := 0, calls := [],
      state := model.init, entry := links.next .headSentinel }

/-- The capacity is `cache_cap`. -/
def checkSingle [Inhabited Input] [Inhabited Output] (model : Model Input Output State)
    (hash : StateHash State) (kill : Nat → Bool) (h : Heap Input Output) (head : Option Addr) :
    Option Bool :=
  checkSingleCapped model hash (cacheCap (h.length head / 2)) kill h head

end ChonKV.Porcupine
