import ChonKV.Kv.Handlers
import ChonKV.Porcupine.Model
import ChonKV.Retry.Rotation

/-!
The retry loops of `Clerk::Get`, `Clerk::PutAppend` and `Clerk::GetStale` (`kvraft/client.cpp`),
without the deadline at which they give up.
-/

set_option autoImplicit false

namespace ChonKV

open Porcupine (KvOperation kvOpGet kvOpPut kvOpAppend)
open Retry (Cursors)

structure Clerk where
  servers : Nat
  clientId : Int32 := 0
  seqId : Int64 := 0
  leaderId : Nat := 0
  rr : Nat := 0
  usedHint : Bool := false
  history : List KvOperation := []
  deriving DecidableEq

namespace Clerk

def recordGet (c : Clerk) (key value : Bytes) (callTime returnTime : Int) : Clerk :=
  { c with
    history := c.history ++ [
      { clientId := c.clientId.toInt, seqId := c.seqId.toInt, input := ⟨kvOpGet, key, []⟩
        output := ⟨value⟩, callTimeNs := callTime, returnTimeNs := returnTime }] }

def recordPutAppend (c : Clerk) (key value : Bytes) (opCode : UInt8) (callTime returnTime : Int) :
    Clerk :=
  { c with
    history := c.history ++ [
      { clientId := c.clientId.toInt, seqId := c.seqId.toInt, input := ⟨opCode, key, value⟩
        output := ⟨[]⟩, callTimeNs := callTime, returnTimeNs := returnTime }] }

/-- `leader` answered that it is not the leader: the server to turn to. -/
def redirect (c : Clerk) (leader : Nat) (hint : Int32) : Clerk × Nat :=
  if 0 ≤ hint ∧ hint.toInt ≠ leader ∧ ¬ c.usedHint then
    ({ c with usedHint := true, rr := (hint.toInt.toNat + 1) % c.servers }, hint.toInt.toNat)
  else ({ c with rr := (c.rr + 1) % c.servers }, c.rr)

/-- The cursors after a success at `leader`. -/
def settle (c : Clerk) (leader : Nat) : Clerk :=
  { c with leaderId := leader, rr := (leader + 1) % c.servers, usedHint := false }

/-- One pass of the loop of `Get`, whose `leader` is a local. -/
def getTurn (call : Nat → Nat → GetArgs → Option GetReply) (args : GetArgs) (callTime : Int)
    (returnTime : Nat → Int) (k : Nat) (s : Clerk × Nat) : (Clerk × Nat) ⊕ (Clerk × Bytes) :=
  let c := s.1
  let leader := s.2
  match call k leader args with
  | none => .inl (c, (leader + 1) % c.servers)
  | some reply =>
    match reply.err with
    | .kOK =>
      .inr ((c.settle leader).recordGet args.key reply.value callTime (returnTime k), reply.value)
    | .kNoKey => .inr ((c.settle leader).recordGet args.key [] callTime (returnTime k), [])
    | .kBusy => .inl ({ c with usedHint := false }, leader)
    | .kWrongLeader | .kTimeout | .kSessionGone => .inl (c.redirect leader reply.leaderId)
    | .other _ _ => .inl (c, leader)

/-- What `Get` returns, and after how many calls. -/
def get (c : Clerk) (key : Bytes) (call : Nat → Nat → GetArgs → Option GetReply) (callTime : Int)
    (returnTime : Nat → Int) (fuel : Nat) : Option ((Clerk × Bytes) × Nat) :=
  if c.servers = 0 then some ((c, []), 0)
  else
    let c := { c with seqId := c.seqId + 1 }
    let args : GetArgs := { key := key, clientId := c.clientId, seqId := c.seqId }
    Retry.loop (getTurn call args callTime returnTime) fuel 0 (c, c.leaderId)

/-- One pass of the loop of `PutAppend`. `freshId` is the client id that is drawn when the session
is gone. -/
def putAppendTurn (call : Nat → Nat → PutAppendArgs → Option PutAppendReply) (args : PutAppendArgs)
    (freshId : Int32) (callTime : Int) (returnTime : Nat → Int) (k : Nat) (c : Clerk) :
    Clerk ⊕ (Clerk × Err) :=
  let opCode := if args.op = [0x50, 0x75, 0x74] then kvOpPut else kvOpAppend
  let behind := (c.leaderId + 1) % c.servers
  match call k c.leaderId args with
  | none => .inl { c with leaderId := behind }
  | some reply =>
    match reply.err with
    | .kOK =>
      .inr ((c.settle c.leaderId).recordPutAppend args.key args.value opCode callTime (returnTime k),
        .kOK)
    | .kSessionGone =>
      .inr ({ c with clientId := freshId, seqId := 0, usedHint := false, rr := behind },
        .kSessionGone)
    | .kNoKey => .inl { c with rr := behind, usedHint := false, leaderId := behind }
    | .kBusy => .inl { c with usedHint := false }
    | .kWrongLeader | .kTimeout =>
      let res := c.redirect c.leaderId reply.leaderId
      .inl { res.1 with leaderId := res.2 }
    | .other _ _ => .inl c

/-- What `PutAppend` returns, and after how many calls. -/
def putAppend (c : Clerk) (key value op : Bytes)
    (call : Nat → Nat → PutAppendArgs → Option PutAppendReply) (freshId : Int32) (callTime : Int)
    (returnTime : Nat → Int) (fuel : Nat) : Option ((Clerk × Err) × Nat) :=
  if c.servers = 0 then some ((c, .kOK), 0)
  else
    let c := { c with seqId := c.seqId + 1 }
    let args : PutAppendArgs :=
      { key := key, value := value, op := op, clientId := c.clientId, seqId := c.seqId }
    Retry.loop (putAppendTurn call args freshId callTime returnTime) fuel 0 c

/-- One pass of the loop of `GetStale`, which any server may answer. -/
def getStaleTurn (call : Nat → Nat → GetArgs → Option GetReply) (args : GetArgs) (k : Nat)
    (s : Clerk × Nat) : (Clerk × Nat) ⊕ (Clerk × Bytes) :=
  let c := s.1
  let leader := s.2
  match call k leader args with
  | none => .inl (c, (leader + 1) % c.servers)
  | some reply =>
    match reply.err with
    | .kOK => .inr ({ c with leaderId := leader }, reply.value)
    | .kNoKey => .inr ({ c with leaderId := leader }, [])
    | .kBusy => .inl (c, leader)
    | .kWrongLeader | .kTimeout | .kSessionGone | .other _ _ => .inl (c, (leader + 1) % c.servers)

/-- What `GetStale` returns, and after how many calls. -/
def getStale (c : Clerk) (key : Bytes) (call : Nat → Nat → GetArgs → Option GetReply) (fuel : Nat) :
    Option ((Clerk × Bytes) × Nat) :=
  if c.servers = 0 then some ((c, []), 0)
  else
    let c := { c with seqId := c.seqId + 1 }
    let args : GetArgs := { key := key, clientId := c.clientId, seqId := c.seqId }
    Retry.loop (getStaleTurn call args) fuel 0 (c, c.leaderId)

def cursors (c : Clerk) (leader : Nat) : Cursors := ⟨leader, c.rr, c.usedHint⟩

@[simp] theorem redirect_servers (c : Clerk) (leader : Nat) (hint : Int32) :
    (c.redirect leader hint).1.servers = c.servers := by
  rw [redirect]
  split_ifs <;> rfl

/-- A redirection goes round, or takes the one hint. -/
theorem redirect_cursors (c : Clerk) (leader : Nat) {hint : Int32} (hhint : hint.toInt < c.servers) :
    (c.redirect leader hint).1.cursors (c.redirect leader hint).2 =
        (c.cursors leader).turn c.servers ∨
      ∃ next < c.servers, c.usedHint = false ∧
        (c.redirect leader hint).1.cursors (c.redirect leader hint).2 =
          Cursors.jump c.servers next := by
  rw [redirect]
  split_ifs with h
  · obtain ⟨hpos, -, hfirst⟩ := h
    refine Or.inr ⟨hint.toInt.toNat, ?_, by simpa using hfirst, rfl⟩
    have h0 : 0 ≤ hint.toInt := Int32.le_iff_toInt_le.mp hpos
    omega
  · exact Or.inl rfl

section Progress
variable {n g leader : Nat} {c : Clerk} {hint : Int32}

theorem redirect_lowers (hn : c.servers = n) (hg : g < n) (hc : (c.cursors leader).InRange n)
    (hne : leader ≠ g) (hhint : hint.toInt < n) :
    ((c.redirect leader hint).1.cursors (c.redirect leader hint).2).InRange n ∧
    ((c.redirect leader hint).1.cursors (c.redirect leader hint).2).toGo n g <
      (c.cursors leader).toGo n g := by
  obtain h | ⟨next, hnext, hfirst, h⟩ := redirect_cursors c leader (hn ▸ hhint)
  · rw [h, hn]
    exact ⟨hc.turn, Cursors.turn_lowers hg hc hne⟩
  · rw [h, hn]
    exact ⟨Cursors.jump_inRange (hn ▸ hnext), Cursors.jump_lowers hg (hn ▸ hnext) hne hfirst⟩

end Progress

end Clerk

/-- How a server behaves throughout. -/
inductive Conduct where
  | unreachable
  | wrongLeader
  | ok
  deriving DecidableEq, Repr

/-- What a server of that conduct sends back; the hint may be any of `n` servers, or none. -/
def Conduct.Sends {ρ : Type} (err : ρ → Err) (hint : ρ → Int32) (n : Nat) :
    Conduct → Option ρ → Prop
  | .unreachable, answer => answer = none
  | .wrongLeader, answer =>
    ∃ reply, answer = some reply ∧ err reply = .kWrongLeader ∧ (hint reply).toInt < n
  | .ok, answer => ∃ reply, answer = some reply ∧ err reply = .kOK

namespace Clerk
section Servers
variable {n g : Nat} {conduct : Nat → Conduct}

/-- A pass of `Get` at a server that is not yet the one looked for comes nearer to it. -/
theorem getTurn_progress {call : Nat → Nat → GetArgs → Option GetReply}
    (hcall : ∀ k i args, i < n → (conduct i).Sends GetReply.err GetReply.leaderId n (call k i args))
    (hg : g < n) (hok : conduct g = .ok) (args : GetArgs) (callTime : Int) (returnTime : Nat → Int)
    (k : Nat) {c : Clerk} {leader : Nat} (hn : c.servers = n)
    (hc : (c.cursors leader).InRange n) :
    (∃ s, getTurn call args callTime returnTime k (c, leader) = .inl s ∧
      (s.1.servers = n ∧ (s.1.cursors s.2).InRange n) ∧
      (s.1.cursors s.2).toGo n g < (c.cursors leader).toGo n g) ∨
    ∃ res, getTurn call args callTime returnTime k (c, leader) = .inr res ∧
      res.1.leaderId < n ∧ conduct res.1.leaderId = .ok ∧
      ∃ k reply, call k res.1.leaderId args = some reply ∧ reply.err = .kOK ∧ reply.value = res.2 := by
  have hsends := hcall k leader args hc.1
  cases hkind : conduct leader with
  | unreachable =>
    have hnone : call k leader args = none := by simpa [hkind, Conduct.Sends] using hsends
    have hne : leader ≠ g := by rintro rfl; simp [hkind] at hok
    refine Or.inl ⟨(c, (leader + 1) % n), by simp [getTurn, hnone, hn], ⟨hn, hc.skip⟩, ?_⟩
    exact Cursors.skip_lowers hg hc hne
  | wrongLeader =>
    rw [hkind] at hsends
    obtain ⟨reply, hreply, herr, hhint⟩ := hsends
    have hne : leader ≠ g := by rintro rfl; simp [hkind] at hok
    obtain ⟨hrange, hlower⟩ := redirect_lowers hn hg hc hne hhint
    exact Or.inl ⟨c.redirect leader reply.leaderId, by simp [getTurn, hreply, herr],
      ⟨by simp [hn], hrange⟩, hlower⟩
  | ok =>
    rw [hkind] at hsends
    obtain ⟨reply, hreply, herr⟩ := hsends
    exact Or.inr ⟨((c.settle leader).recordGet args.key reply.value callTime (returnTime k), reply.value),
      by simp [getTurn, hreply, herr], hc.1, hkind, k, reply, hreply, herr, rfl⟩

/-- A pass of `PutAppend`, likewise. -/
theorem putAppendTurn_progress {call : Nat → Nat → PutAppendArgs → Option PutAppendReply}
    (hcall : ∀ k i args, i < n →
      (conduct i).Sends PutAppendReply.err PutAppendReply.leaderId n (call k i args))
    (hg : g < n) (hok : conduct g = .ok) (args : PutAppendArgs) (freshId : Int32) (callTime : Int)
    (returnTime : Nat → Int) (k : Nat) {c : Clerk} (hn : c.servers = n)
    (hc : (c.cursors c.leaderId).InRange n) :
    (∃ c', putAppendTurn call args freshId callTime returnTime k c = .inl c' ∧
      (c'.servers = n ∧ (c'.cursors c'.leaderId).InRange n) ∧
      (c'.cursors c'.leaderId).toGo n g < (c.cursors c.leaderId).toGo n g) ∨
    ∃ res, putAppendTurn call args freshId callTime returnTime k c = .inr res ∧
      res.1.leaderId < n ∧ conduct res.1.leaderId = .ok ∧ res.2 = .kOK := by
  have hsends := hcall k c.leaderId args hc.1
  cases hkind : conduct c.leaderId with
  | unreachable =>
    have hnone : call k c.leaderId args = none := by simpa [hkind, Conduct.Sends] using hsends
    have hne : c.leaderId ≠ g := by intro h; simp [← h, hkind] at hok
    refine Or.inl ⟨{ c with leaderId := (c.leaderId + 1) % n },
      by simp [putAppendTurn, hnone, hn], ⟨hn, hc.skip⟩, ?_⟩
    exact Cursors.skip_lowers hg hc hne
  | wrongLeader =>
    rw [hkind] at hsends
    obtain ⟨reply, hreply, herr, hhint⟩ := hsends
    have hne : c.leaderId ≠ g := by intro h; simp [← h, hkind] at hok
    obtain ⟨hrange, hlower⟩ := redirect_lowers hn hg hc hne hhint
    refine Or.inl ⟨{ (c.redirect c.leaderId reply.leaderId).1 with
      leaderId := (c.redirect c.leaderId reply.leaderId).2 }, ?_, ⟨?_, hrange⟩, hlower⟩
    · simp [putAppendTurn, hreply, herr]
    · simp [hn]
  | ok =>
    rw [hkind] at hsends
    obtain ⟨reply, hreply, herr⟩ := hsends
    refine Or.inr ⟨((c.settle c.leaderId).recordPutAppend args.key args.value
      (if args.op = [0x50, 0x75, 0x74] then kvOpPut else kvOpAppend) callTime (returnTime k), .kOK),
      ?_, hc.1, hkind, rfl⟩
    simp [putAppendTurn, hreply, herr]

/-- Wherever the cursors stand, the loops come to a server that answers after a number of calls
that the number of servers bounds. -/
theorem reaches_ok (hg : g < n) (hok : conduct g = .ok)
    {getCall : Nat → Nat → GetArgs → Option GetReply}
    (hget : ∀ k i args, i < n → (conduct i).Sends GetReply.err GetReply.leaderId n (getCall k i args))
    {putCall : Nat → Nat → PutAppendArgs → Option PutAppendReply}
    (hput : ∀ k i args, i < n →
      (conduct i).Sends PutAppendReply.err PutAppendReply.leaderId n (putCall k i args))
    (c : Clerk) (hn : c.servers = n) (hleader : c.leaderId < n) (hrr : c.rr < n)
    (callTime : Int) (returnTime : Nat → Int) (fuel : Nat) (hfuel : 2 * n * (n + 1) ≤ fuel) :
    (∀ key, ∃ c' value calls,
      c.get key getCall callTime returnTime fuel = some ((c', value), calls) ∧
      calls ≤ 2 * n * (n + 1) ∧ c'.leaderId < n ∧ conduct c'.leaderId = .ok ∧
      ∃ k args reply, getCall k c'.leaderId args = some reply ∧ reply.err = .kOK ∧
        reply.value = value) ∧
    ∀ key value op freshId, ∃ c' calls,
      c.putAppend key value op putCall freshId callTime returnTime fuel = some ((c', .kOK), calls) ∧
      calls ≤ 2 * n * (n + 1) ∧ c'.leaderId < n ∧ conduct c'.leaderId = .ok := by
  have hservers : c.servers ≠ 0 := by omega
  have hrange : (c.cursors c.leaderId).InRange n := ⟨hleader, hrr⟩
  have htogo : (c.cursors c.leaderId).toGo n g < 2 * n * (n + 1) := Cursors.toGo_lt hg
  refine ⟨fun key => ?_, fun key value op freshId => ?_⟩
  · obtain ⟨⟨c', value⟩, calls, hloop, hcalls, hlt, hkind, hreply⟩ :=
      Retry.loop_ends (fun s : Clerk × Nat => s.1.servers = n ∧ (s.1.cursors s.2).InRange n) _
        (fun s => (s.1.cursors s.2).toGo n g)
        (fun k s hs => getTurn_progress hget hg hok
          { key := key, clientId := c.clientId, seqId := c.seqId + 1 } callTime returnTime k hs.1 hs.2)
        (k := 0) (s := ({ c with seqId := c.seqId + 1 }, c.leaderId)) ⟨hn, hrange⟩
        (by exact Nat.lt_of_lt_of_le htogo hfuel)
    obtain ⟨k, reply, hcall, herr, hval⟩ := hreply
    refine ⟨c', value, calls, ?_, ?_, hlt, hkind, k, _, reply, hcall, herr, hval⟩
    · rw [get, if_neg hservers]
      exact hloop
    · exact Nat.le_trans hcalls (by rw [Nat.zero_add]; exact htogo)
  · obtain ⟨⟨c', e⟩, calls, hloop, hcalls, hlt, hkind, rfl⟩ :=
      Retry.loop_ends (fun s : Clerk => s.servers = n ∧ (s.cursors s.leaderId).InRange n) _
        (fun s => (s.cursors s.leaderId).toGo n g)
        (fun k s hs => putAppendTurn_progress hput hg hok
          { key := key, value := value, op := op, clientId := c.clientId, seqId := c.seqId + 1 }
          freshId callTime returnTime k hs.1 hs.2)
        (k := 0) (s := { c with seqId := c.seqId + 1 }) ⟨hn, hrange⟩
        (by exact Nat.lt_of_lt_of_le htogo hfuel)
    refine ⟨c', calls, ?_, ?_, hlt, hkind⟩
    · rw [putAppend, if_neg hservers]
      exact hloop
    · exact Nat.le_trans hcalls (by rw [Nat.zero_add]; exact htogo)

end Servers

theorem reaches_ok_third :
    ∃ c' value calls,
      ({ servers := 3, leaderId := 1, rr := 1 } : Clerk).get [7]
        (fun _ i _ =>
          if i = 0 then none else if i = 1 then some { err := .kWrongLeader, leaderId := 0 }
          else some { value := [5] })
        0 (fun _ => 1) 24 = some ((c', value), calls) ∧ calls ≤ 24 := by
  have hget : ∀ (k i : Nat) (args : GetArgs), i < 3 →
      (if i = 0 then Conduct.unreachable else if i = 1 then .wrongLeader else .ok).Sends
        GetReply.err GetReply.leaderId 3
        (if i = 0 then none else if i = 1 then some { err := .kWrongLeader, leaderId := 0 }
          else some { value := [5] }) := by
    intro k i args hi
    obtain rfl | rfl | rfl : i = 0 ∨ i = 1 ∨ i = 2 := by omega
    · rfl
    · exact ⟨_, rfl, rfl, by decide⟩
    · exact ⟨_, rfl, rfl⟩
  have hput : ∀ (k i : Nat) (args : PutAppendArgs), i < 3 →
      (if i = 0 then Conduct.unreachable else if i = 1 then .wrongLeader else .ok).Sends
        PutAppendReply.err PutAppendReply.leaderId 3
        (if i = 0 then none else if i = 1 then some { err := .kWrongLeader, leaderId := -1 }
          else some {}) := by
    intro k i args hi
    obtain rfl | rfl | rfl : i = 0 ∨ i = 1 ∨ i = 2 := by omega
    · rfl
    · exact ⟨_, rfl, rfl, by decide⟩
    · exact ⟨_, rfl, rfl⟩
  obtain ⟨c', value, calls, h, hcalls, -⟩ := (reaches_ok (n := 3) (g := 2) (by decide) rfl hget hput
    { servers := 3, leaderId := 1, rr := 1 } rfl (by decide) (by decide) 0 (fun _ => 1) 24
    (by decide)).1 [7]
  exact ⟨c', value, calls, h, hcalls⟩

section StaleReads
variable {n g : Nat} {call : Nat → Nat → GetArgs → Option GetReply}

/-- A pass of `GetStale` ends with what a server has in its store, or goes on to the next server. -/
theorem getStaleTurn_progress (hg : g < n) (hup : ∀ k args, call k g args ≠ none)
    (hsends : ∀ k i args reply, call k i args = some reply →
      ∃ (s : KVServer) (r : Raft), reply = s.getStale r args.key)
    (args : GetArgs) (k : Nat) {c : Clerk} {leader : Nat} (hn : c.servers = n) (hlt : leader < n) :
    (∃ s, getStaleTurn call args k (c, leader) = .inl s ∧ (s.1.servers = n ∧ s.2 < n) ∧
      Retry.away n g s.2 < Retry.away n g leader) ∨
    ∃ res, getStaleTurn call args k (c, leader) = .inr res ∧ res.1.leaderId < n ∧
      ∃ s : KVServer, res.2 = (s.state.lookup args.key).value := by
  cases hcall : call k leader args with
  | none =>
    have hne : leader ≠ g := by
      rintro rfl
      exact hup k args hcall
    have hnext := Retry.away_next hg hlt hne
    refine Or.inl ⟨(c, (leader + 1) % n), ?_, ⟨hn, Nat.mod_lt _ (by omega)⟩, ?_⟩
    · simp [getStaleTurn, hcall, hn]
    · dsimp only
      omega
  | some reply =>
    obtain ⟨s, r, rfl⟩ := hsends k leader args reply hcall
    refine Or.inr ⟨({ c with leaderId := leader }, (s.state.lookup args.key).value), ?_, hlt, s, rfl⟩
    cases hkey : s.state.kvStore.get args.key with
    | none => simp [getStaleTurn, hcall, KVServer.getStale, KVState.lookup, hkey]
    | some v => simp [getStaleTurn, hcall, KVServer.getStale, KVState.lookup, hkey]

/-- A stale read asks each server once at most: it ends at the first that is reachable, and `g` is. -/
theorem getStale_answered (hg : g < n) (hup : ∀ k args, call k g args ≠ none)
    (hsends : ∀ k i args reply, call k i args = some reply →
      ∃ (s : KVServer) (r : Raft), reply = s.getStale r args.key)
    (c : Clerk) (hn : c.servers = n) (hleader : c.leaderId < n) (key : Bytes) {fuel : Nat}
    (hfuel : n ≤ fuel) :
    ∃ c' calls, ∃ s : KVServer,
      c.getStale key call fuel = some ((c', (s.state.lookup key).value), calls) ∧
      calls ≤ n ∧ c'.leaderId < n := by
  have hservers : c.servers ≠ 0 := by omega
  have haway : Retry.away n g c.leaderId < n := Retry.away_lt (by omega)
  obtain ⟨⟨c', value⟩, calls, hloop, hcalls, hlt, s, rfl⟩ :=
    Retry.loop_ends (fun s : Clerk × Nat => s.1.servers = n ∧ s.2 < n) _
      (fun s => Retry.away n g s.2)
      (fun k s hs => getStaleTurn_progress hg hup hsends
        { key := key, clientId := c.clientId, seqId := c.seqId + 1 } k hs.1 hs.2)
      (k := 0) (s := ({ c with seqId := c.seqId + 1 }, c.leaderId)) ⟨hn, hleader⟩
      (by exact Nat.lt_of_lt_of_le haway hfuel)
  refine ⟨c', calls, s, ?_, ?_, hlt⟩
  · rw [getStale, if_neg hservers]
    exact hloop
  · exact Nat.le_trans hcalls (by rw [Nat.zero_add]; exact haway)

end StaleReads

end Clerk
end ChonKV
