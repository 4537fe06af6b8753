import ChonKV.Assoc.Keyed
import ChonKV.Raft.Protocol
import Mathlib.Logic.Function.Basic

/-!
The client side of the socket backend. `SendReq` calls, the reader threads of the connections and the
administration of the network interleave; one step runs up to the next lock that is taken.
-/

set_option autoImplicit false

namespace ChonKV

/-- What `RecvReplyFrame` read. -/
structure ReplyFrame where
  corr : Nat
  ok : Bool
  reply : Bytes
  deriving DecidableEq

/-- What `DeliverResult` handed to the caller, with the frame that it came from. -/
structure Outcome where
  ok : Bool
  reply : Bytes
  corr : Option Nat
  deriving DecidableEq

def ReplyFrame.outcome (f : ReplyFrame) : Outcome := ⟨f.ok, f.reply, some f.corr⟩

def Outcome.failed : Outcome := ⟨false, [], none⟩

/-- Where a call of `DeliverResult` stands: it looks at `cancel`, then exchanges `delivered`. Only the
exchange that finds it unset hands something over. -/
inductive Delivery where
  | check
  | exchange
  deriving DecidableEq

/-- Where `SendReq` stands. -/
inductive SendPhase where
  | uncalled
  | start
  | route
  /-- `GetOrCreateConn`: its tests, its look at `conns_`, `ShutdownConn` of the stale connection,
  `connect`, the second look, `ShutdownConn` of the replaced one, and the reader thread. -/
  | acquire (servername : Int)
  | look (servername : Int)
  | retire (servername : Int) (stale : Nat)
  | dial (servername : Int)
  | install (servername : Int)
  | replace (conn replaced : Nat)
  | spawn (conn : Nat)
  | register (conn : Nat)
  | join (conn : Nat)
  | number (conn : Nat)
  | enqueue (conn corr : Nat)
  | write (conn corr : Nat)
  | unqueue (conn corr : Nat)
  | fail (d : Delivery)
  | returned
  deriving DecidableEq

/-- Where `ConnReader` stands. -/
inductive ReaderPhase where
  | unstarted
  | loop
  | snapshot
  | recv
  | lookup (f : ReplyFrame)
  | deliver (req : Nat) (f : ReplyFrame) (d : Delivery)
  | drain
  | close (fails : List Nat)
  | failing (fails : List Nat) (d : Delivery)
  | unlist
  | exited
  deriving DecidableEq

structure Conn where
  fdOpen : Bool := true
  servername : Int := -1
  endname : String := ""
  pending : List (Nat × Nat) := []
  closed : Bool := false
  reader : ReaderPhase := .unstarted
  deriving DecidableEq

/-- A request with its `SendReq`: the number it drew, and the connection whose `pending` it entered. -/
structure ReqMsg where
  endname : String := ""
  args : Bytes := []
  cancel : Bool := false
  delivered : Bool := false
  phase : SendPhase := .uncalled
  corr : Option Nat := none
  queued : Option Nat := none
  outcomes : List Outcome := []
  deriving DecidableEq

/-- `conns_` holds the number of the connection of an end. `next_corr_` counts without a bound: its
64 bits do not wrap in a run. -/
structure SocketNetwork where
  basePort : Int
  hostOk : Bool := true
  portOk : Bool := true
  stopped : Bool := false
  reliable : Bool := true
  maxMessageBytes : Nat
  enabled : List (String × Bool) := []
  connections : List (String × Int) := []
  conns : List (String × Nat) := []
  nextCorr : Nat := 1
  reqs : Nat → ReqMsg := fun _ => {}
  heap : Nat → Conn := fun _ => {}
  numConns : Nat := 0

/-- What the system decides for `SendReq`: `RandInt`, `connect` and `SendRequestFrame`. -/
structure SendChoice where
  dropped : Bool := false
  connected : Bool := true
  sent : Bool := true

def portsInRange (basePort servername : Int) : Bool :=
  decide (1 ≤ basePort ∧ 0 ≤ servername ∧ basePort + servername ≤ 65535)

/-- `closed` is never taken back and a closed file descriptor stays closed, so that the two reads of
`conn_reusable` count as one. -/
def Conn.reusable (c : Conn) (servername : Int) : Bool :=
  !c.closed && c.fdOpen && decide (c.servername = servername)

/-- The `exchange` of `DeliverResult`. -/
def ReqMsg.exchange (q : ReqMsg) (o : Outcome) : ReqMsg :=
  if q.delivered then q else { q with delivered := true, outcomes := q.outcomes ++ [o] }

namespace SocketNetwork

def setReq (s : SocketNetwork) (r : Nat) (q : ReqMsg) : SocketNetwork :=
  { s with reqs := Function.update s.reqs r q }

def setConn (s : SocketNetwork) (c : Nat) (k : Conn) : SocketNetwork :=
  { s with heap := Function.update s.heap c k }

section

variable (s : SocketNetwork) (r c : Nat) (q : ReqMsg) (k : Conn)

@[simp] theorem setReq_reqs : (s.setReq r q).reqs = Function.update s.reqs r q := rfl

@[simp] theorem setReq_heap : (s.setReq r q).heap = s.heap := rfl

@[simp] theorem setReq_numConns : (s.setReq r q).numConns = s.numConns := rfl

@[simp] theorem setConn_reqs : (s.setConn c k).reqs = s.reqs := rfl

@[simp] theorem setConn_heap : (s.setConn c k).heap = Function.update s.heap c k := rfl

@[simp] theorem setConn_numConns : (s.setConn c k).numConns = s.numConns := rfl

end

/-- `SendReq` of `r` goes on at `p`. -/
def goto (s : SocketNetwork) (r : Nat) (p : SendPhase) : SocketNetwork :=
  s.setReq r { s.reqs r with phase := p }

/-- The reader of `c` goes on at `p`. -/
def readerAt (s : SocketNetwork) (c : Nat) (p : ReaderPhase) : SocketNetwork :=
  s.setConn c { s.heap c with reader := p }

/-- `ShutdownConn`. Waking the reader needs no step: its connection may break at any time. -/
def shutdownConn (s : SocketNetwork) (c : Nat) : SocketNetwork :=
  s.setConn c { s.heap c with closed := true }

/-- A new connection in the slot of `endname`. -/
def newConn (s : SocketNetwork) (endname : String) (servername : Int) : SocketNetwork :=
  { s with
    conns := Assoc.bump endname s.numConns s.conns
    heap := Function.update s.heap s.numConns { servername := servername, endname := endname }
    numConns := s.numConns + 1 }

/-- `SendReq`. -/
def sendReq (s : SocketNetwork) (r : Nat) (ch : SendChoice) : SocketNetwork :=
  match (s.reqs r).phase with
  | .uncalled | .returned => s
  | .start =>
    if 0 < s.maxMessageBytes ∧ s.maxMessageBytes < (s.reqs r).args.length then
      s.goto r (.fail .check)
    else s.goto r .route
  | .route =>
    if (Assoc.find (s.reqs r).endname s.enabled).getD false = false ∨
        (Assoc.find (s.reqs r).endname s.connections).getD (-1) < 0 then
      s.goto r (.fail .check)
    else if !s.reliable && ch.dropped then s.goto r (.fail .check)
    else s.goto r (.acquire ((Assoc.find (s.reqs r).endname s.connections).getD (-1)))
  | .acquire servername =>
    if s.stopped || !s.hostOk || !s.portOk || !portsInRange s.basePort servername then
      s.goto r (.fail .check)
    else s.goto r (.look servername)
  | .look servername =>
    match Assoc.find (s.reqs r).endname s.conns with
    | some c =>
      if (s.heap c).reusable servername then s.goto r (.number c) else s.goto r (.retire servername c)
    | none => s.goto r (.dial servername)
  | .retire servername stale => (s.goto r (.dial servername)).shutdownConn stale
  | .dial servername =>
    if ch.connected then s.goto r (.install servername) else s.goto r (.fail .check)
  | .install servername =>
    if s.stopped then s.goto r (.fail .check)
    else match Assoc.find (s.reqs r).endname s.conns with
      | some c =>
        if (s.heap c).reusable servername then s.goto r (.number c)
        else (s.newConn (s.reqs r).endname servername).goto r (.replace s.numConns c)
      | none => (s.newConn (s.reqs r).endname servername).goto r (.spawn s.numConns)
  | .replace conn replaced => (s.goto r (.spawn conn)).shutdownConn replaced
  | .spawn conn => (s.goto r (.register conn)).readerAt conn .loop
  | .register conn => if s.stopped then s.goto r (.join conn) else s.goto r (.number conn)
  | .join conn => if (s.heap conn).reader = .exited then s.goto r (.number conn) else s
  | .number conn =>
    { s with nextCorr := s.nextCorr + 1 }.setReq r
      { s.reqs r with corr := some s.nextCorr, phase := .enqueue conn s.nextCorr }
  | .enqueue conn corr =>
    if (s.heap conn).closed then s.goto r (.fail .check)
    else (s.setReq r { s.reqs r with queued := some conn, phase := .write conn corr }).setConn conn
      { s.heap conn with pending := Assoc.bump corr r (s.heap conn).pending }
  | .write conn corr =>
    if (s.heap conn).fdOpen && ch.sent then s.goto r .returned else s.goto r (.unqueue conn corr)
  | .unqueue conn corr =>
    (s.goto r (.fail .check)).setConn conn
      { s.heap conn with pending := Assoc.remove corr (s.heap conn).pending }
  | .fail .check =>
    if (s.reqs r).cancel then s.goto r .returned else s.goto r (.fail .exchange)
  | .fail .exchange => s.setReq r { (s.reqs r).exchange .failed with phase := .returned }

/-- `ConnReader`; `frame` is what `RecvReplyFrame` finds. -/
def connReader (s : SocketNetwork) (c : Nat) (frame : Option ReplyFrame) : SocketNetwork :=
  match (s.heap c).reader with
  | .unstarted | .exited => s
  | .loop => if s.stopped then s.readerAt c .drain else s.readerAt c .snapshot
  | .snapshot => if (s.heap c).fdOpen then s.readerAt c .recv else s.readerAt c .drain
  | .recv =>
    match frame with
    | none => s.readerAt c .drain
    | some f => s.readerAt c (.lookup f)
  | .lookup f =>
    match Assoc.find f.corr (s.heap c).pending with
    | none => s.readerAt c .loop
    | some r => s.setConn c
      { s.heap c with
        pending := Assoc.remove f.corr (s.heap c).pending
        reader := .deliver r f .check }
  | .deliver r f .check =>
    if (s.reqs r).cancel then s.readerAt c .loop else s.readerAt c (.deliver r f .exchange)
  | .deliver r f .exchange => (s.setReq r ((s.reqs r).exchange f.outcome)).readerAt c .loop
  | .drain => s.setConn c
    { s.heap c with
      pending := []
      closed := true
      reader := .close ((s.heap c).pending.map Prod.snd) }
  | .close fails => s.setConn c { s.heap c with fdOpen := false, reader := .failing fails .check }
  | .failing [] _ => s.readerAt c .unlist
  | .failing (r :: fails) .check =>
    if (s.reqs r).cancel then s.readerAt c (.failing fails .check)
    else s.readerAt c (.failing (r :: fails) .exchange)
  | .failing (r :: fails) .exchange =>
    (s.setReq r ((s.reqs r).exchange .failed)).readerAt c (.failing fails .check)
  | .unlist =>
    if Assoc.find (s.heap c).endname s.conns = some c then
      { s with conns := Assoc.remove (s.heap c).endname s.conns }.readerAt c .exited
    else s.readerAt c .exited

end SocketNetwork

/-- `shutdown` is `ShutdownConn` as `DeleteServer`, `RemoveClientEnd` and `Cleanup` call it, on what
they found in `conns_` earlier. -/
inductive SocketEvent where
  | call (r : Nat) (endname : String) (args : Bytes)
  | send (r : Nat) (ch : SendChoice)
  | read (c : Nat) (frame : Option ReplyFrame)
  | shutdown (c : Nat)
  | cancel (r : Nat)
  | makeEnd (endname : String)
  | connect (endname : String) (servername : Int)
  | enable (endname : String) (on : Bool)
  | removeClientEnd (endname : String)
  | setReliable (yes : Bool)
  | setMaxMessageBytes (n : Nat)
  /-- `Cleanup`: its first and its last block. -/
  | stop
  | clear

namespace SocketNetwork

def step (s : SocketNetwork) : SocketEvent → SocketNetwork
  | .call r endname args =>
    if (s.reqs r).phase = .uncalled then
      s.setReq r { s.reqs r with endname := endname, args := args, phase := .start }
    else s
  | .send r ch => s.sendReq r ch
  | .read c frame => s.connReader c frame
  | .shutdown c => s.shutdownConn c
  | .cancel r => s.setReq r { s.reqs r with cancel := true }
  | .makeEnd endname =>
    { s with
      enabled := Assoc.bump endname false s.enabled
      connections := Assoc.remove endname s.connections }
  | .connect endname servername =>
    { s with connections := Assoc.bump endname servername s.connections }
  | .enable endname on => { s with enabled := Assoc.bump endname on s.enabled }
  | .removeClientEnd endname =>
    { s with
      enabled := Assoc.remove endname s.enabled
      connections := Assoc.remove endname s.connections
      conns := Assoc.remove endname s.conns }
  | .setReliable yes => { s with reliable := yes }
  | .setMaxMessageBytes n => { s with maxMessageBytes := n }
  | .stop => { s with stopped := true }
  | .clear => if s.stopped then { s with conns := [], enabled := [], connections := [] } else s

def run (s : SocketNetwork) (es : List SocketEvent) : SocketNetwork := es.foldl step s

end SocketNetwork

/-- The connection that `SendReq` goes on with. -/
def SendPhase.conn : SendPhase → Option Nat
  | .replace c _ | .spawn c | .register c | .join c | .number c => some c
  | .enqueue c _ | .write c _ | .unqueue c _ => some c
  | _ => none

/-- The connection that `SendReq` made, before it starts its reader. -/
def SendPhase.makes : SendPhase → Option Nat
  | .replace c _ | .spawn c => some c
  | _ => none

/-- Where another thread has to deliver, since `SendReq` wrote the request or is about to. -/
def SendPhase.handsOver : SendPhase → Bool
  | .write _ _ | .returned => true
  | _ => false

/-- `SendReq` has not drawn a number yet. -/
def SendPhase.unnumbered : SendPhase → Bool
  | .enqueue _ _ | .write _ _ | .unqueue _ _ | .fail _ | .returned => false
  | _ => true

/-- The number and the connection fit the phase. -/
def ReqMsg.Placed (q : ReqMsg) : Prop :=
  match q.phase with
  | .enqueue _ n => q.corr = some n ∧ q.queued = none
  | .write c n | .unqueue c n => q.corr = some n ∧ q.queued = some c
  | .fail _ | .returned => True
  | _ => q.corr = none ∧ q.queued = none

def ReaderPhase.fails : ReaderPhase → List Nat
  | .close l | .failing l _ => l
  | _ => []

/-- `pending` has been emptied for good. -/
def ReaderPhase.drained : ReaderPhase → Bool
  | .close _ | .failing _ _ | .unlist | .exited => true
  | _ => false

/-- The reader of `k` still has to deliver to `r`, which drew the number `n`. -/
def Conn.Holds (k : Conn) (r n : Nat) : Prop :=
  Assoc.find n k.pending = some r ∨ (∃ f d, k.reader = .deliver r f d) ∨ r ∈ k.reader.fails

namespace SocketNetwork

/-- `q`, which is request `r`, is done with, or some reader will deliver to it. -/
def Settled (s : SocketNetwork) (r : Nat) (q : ReqMsg) : Prop :=
  q.cancel = true ∨ q.delivered = true ∨
    ∃ c n, q.queued = some c ∧ q.corr = some n ∧ (s.heap c).Holds r n

/-- What holds of `q`, which is request `r`. -/
structure ReqOK (s : SocketNetwork) (r : Nat) (q : ReqMsg) : Prop where
  conn_lt : ∀ c, q.phase.conn = some c → c < s.numConns
  queued_lt : ∀ c, q.queued = some c → c < s.numConns
  corr_lt : ∀ n, q.corr = some n → n < s.nextCorr
  fresh : ∀ c, q.phase.makes = some c → (s.heap c).reader = .unstarted
  placed : q.Placed
  settled : q.phase.handsOver = true → s.Settled r q
  count : q.outcomes.length = if q.delivered then 1 else 0
  frames : ∀ o ∈ q.outcomes, ∀ n, o.corr = some n → q.corr = some n

/-- What holds of `k`, which is connection `c`. -/
structure ConnOK (s : SocketNetwork) (c : Nat) (k : Conn) : Prop where
  owned : ∀ n r, Assoc.find n k.pending = some r →
    (s.reqs r).corr = some n ∧ (s.reqs r).queued = some c
  handed : ∀ r f d, k.reader = .deliver r f d → (s.reqs r).corr = some f.corr
  drained : k.reader.drained = true → k.closed = true ∧ k.pending = []

structure OK (s : SocketNetwork) : Prop where
  slots : ∀ e c, Assoc.find e s.conns = some c → c < s.numConns
  unique : ∀ r r' n, (s.reqs r).corr = some n → (s.reqs r').corr = some n → r = r'
  maker : ∀ r r' c, (s.reqs r).phase.makes = some c → (s.reqs r').phase.makes = some c → r = r'
  req : ∀ r, s.ReqOK r (s.reqs r)
  conn : ∀ c, s.ConnOK c (s.heap c)

/-- `SendReq` of `r` may go on at `p`: a connection that it makes there is its own. -/
def MakesOwn (s : SocketNetwork) (r : Nat) (p : SendPhase) : Prop :=
  p.makes = none ∨ p.makes = (s.reqs r).phase.makes ∨
    ∀ r' c, p.makes = some c → (s.reqs r').phase.makes ≠ some c

variable {s : SocketNetwork}

theorem OK.setReq (h : s.OK) {r : Nat} {q : ReqMsg} (hq : s.ReqOK r q)
    (hcorr : ∀ n, (s.reqs r).corr = some n → q.corr = some n)
    (hqueued : ∀ c, (s.reqs r).queued = some c → q.queued = some c)
    (hnew : q.corr = (s.reqs r).corr ∨ ∀ r' n, q.corr = some n → (s.reqs r').corr ≠ some n)
    (hmakes : s.MakesOwn r q.phase) : (s.setReq r q).OK := by
  have hmaker : ∀ r' c, r' ≠ r → q.phase.makes = some c → (s.reqs r').phase.makes ≠ some c := by
    intro r' c hne hc hr'
    rcases hmakes with hnone | hsame | hnew
    · rw [hnone] at hc
      cases hc
    · exact hne (h.maker r' r c hr' (hsame ▸ hc))
    · exact hnew r' c hc hr'
  have hunique : ∀ r' n, r' ≠ r → q.corr = some n → (s.reqs r').corr ≠ some n := by
    intro r' n hne hn hr'
    cases hnew with
    | inl heq => exact hne (h.unique r' r n hr' (heq ▸ hn))
    | inr hnew => exact hnew r' n hn hr'
  refine ⟨h.slots, fun r₁ r₂ n h₁ h₂ => ?_, fun r₁ r₂ c h₁ h₂ => ?_, fun r' => ?_, fun c => ?_⟩
  · simp only [setReq_reqs, Function.update_apply] at h₁ h₂
    split_ifs at h₁ h₂ with e₁ e₂ e₂
    · rw [e₁, e₂]
    · exact absurd h₂ (hunique r₂ n e₂ h₁)
    · exact absurd h₁ (hunique r₁ n e₁ h₂)
    · exact h.unique r₁ r₂ n h₁ h₂
  · simp only [setReq_reqs, Function.update_apply] at h₁ h₂
    split_ifs at h₁ h₂ with e₁ e₂ e₂
    · rw [e₁, e₂]
    · exact absurd h₂ (hmaker r₂ c e₂ h₁)
    · exact absurd h₁ (hmaker r₁ c e₁ h₂)
    · exact h.maker r₁ r₂ c h₁ h₂
  · simp only [setReq_reqs, Function.update_apply]
    split_ifs with e
    · rw [e]
      exact ⟨hq.1, hq.2, hq.3, hq.4, hq.5, hq.6, hq.7, hq.8⟩
    · have hr := h.req r'
      exact ⟨hr.1, hr.2, hr.3, hr.4, hr.5, hr.6, hr.7, hr.8⟩
  · have hc := h.conn c
    refine ⟨fun n r' hf => ?_, fun r' f d hd => ?_, hc.drained⟩
    · have hold := hc.owned n r' hf
      simp only [setReq_reqs, Function.update_apply]
      split_ifs with e
      · subst e
        exact ⟨hcorr n hold.1, hqueued c hold.2⟩
      · exact hold
    · have hold := hc.handed r' f d hd
      simp only [setReq_reqs, Function.update_apply]
      split_ifs with e
      · subst e
        exact hcorr f.corr hold
      · exact hold

/-- A connection may change when nothing that it holds for a request that is handed over gets lost. -/
theorem OK.setConn (h : s.OK) {c : Nat} {k : Conn} (hk : s.ConnOK c k)
    (hreader : k.reader = (s.heap c).reader ∨ ∀ r, (s.reqs r).phase.makes ≠ some c)
    (hholds : ∀ r n, (s.reqs r).phase.handsOver = true → (s.reqs r).queued = some c →
      (s.reqs r).corr = some n → (s.heap c).Holds r n →
      (s.reqs r).cancel = true ∨ (s.reqs r).delivered = true ∨ k.Holds r n) :
    (s.setConn c k).OK := by
  refine ⟨h.slots, h.unique, h.maker, fun r => ?_, fun c' => ?_⟩
  · have hr := h.req r
    refine ⟨hr.conn_lt, hr.queued_lt, hr.corr_lt, fun c' hc' => ?_, hr.placed, fun hp => ?_,
      hr.count, hr.frames⟩
    · have hold := hr.fresh c' hc'
      simp only [setConn_heap, Function.update_apply]
      split_ifs with e
      · subst e
        cases hreader with
        | inl heq => exact heq.trans hold
        | inr hnone => exact absurd hc' (hnone r)
      · exact hold
    rcases hr.settled hp with hcancel | hdel | ⟨c', n, hc', hn, hold⟩
    · exact .inl hcancel
    · exact .inr (.inl hdel)
    · by_cases e : c' = c
      · subst e
        rcases hholds r n hp hc' hn hold with hcancel | hdel | hnew
        · exact .inl hcancel
        · exact .inr (.inl hdel)
        · refine .inr (.inr ⟨c', n, hc', hn, ?_⟩)
          simpa using hnew
      · refine .inr (.inr ⟨c', n, hc', hn, ?_⟩)
        simpa [e] using hold
  · simp only [setConn_heap, Function.update_apply]
    split_ifs with e
    · rw [e]
      exact ⟨hk.1, hk.2, hk.3⟩
    · have hc := h.conn c'
      exact ⟨hc.1, hc.2, hc.3⟩

theorem OK.goto (h : s.OK) {r : Nat} {p : SendPhase}
    (hconn : ∀ c, p.conn = some c → c < s.numConns)
    (hfresh : ∀ c, p.makes = some c → (s.heap c).reader = .unstarted) (hmakes : s.MakesOwn r p)
    (hplaced : ({ s.reqs r with phase := p } : ReqMsg).Placed)
    (hsettled : p.handsOver = true → s.Settled r (s.reqs r)) : (s.goto r p).OK := by
  have hr := h.req r
  exact h.setReq
    ⟨hconn, hr.queued_lt, hr.corr_lt, hfresh, hplaced, hsettled, hr.count, hr.frames⟩
    (fun _ hn => hn) (fun _ hc => hc) (.inl rfl) hmakes

theorem OK.goto_returned (h : s.OK) {r : Nat} (hsettled : s.Settled r (s.reqs r)) :
    (s.goto r .returned).OK :=
  h.goto (by simp [SendPhase.conn]) (by simp [SendPhase.makes]) (.inl rfl) trivial fun _ => hsettled

theorem OK.goto_fail (h : s.OK) (r : Nat) (d : Delivery) : (s.goto r (.fail d)).OK :=
  h.goto (by simp [SendPhase.conn]) (by simp [SendPhase.makes]) (.inl rfl) trivial
    (by simp [SendPhase.handsOver])

theorem OK.shutdownConn (h : s.OK) (c : Nat) : (s.shutdownConn c).OK := by
  have hc := h.conn c
  exact h.setConn ⟨hc.owned, hc.handed, fun hd => ⟨rfl, (hc.drained hd).2⟩⟩ (.inl rfl)
    fun _ _ _ _ _ hold => .inr (.inr hold)

/-- The connection that is about to be made is in no request and no slot. -/
theorem OK.newConn (h : s.OK) (e : String) (x : Int) : (s.newConn e x).OK := by
  refine ⟨fun e' c hf => ?_, h.unique, h.maker, fun r => ?_, fun c => ?_⟩
  · simp only [SocketNetwork.newConn, Assoc.find_bump] at hf
    split_ifs at hf
    · cases hf
      exact Nat.lt_succ_self s.numConns
    · exact Nat.lt_succ_of_lt (h.slots e' c hf)
  · have hr := h.req r
    refine ⟨fun c hc => Nat.lt_succ_of_lt (hr.conn_lt c hc),
      fun c hc => Nat.lt_succ_of_lt (hr.queued_lt c hc), hr.corr_lt, fun c hc => ?_, hr.placed,
      fun hp => ?_, hr.count, hr.frames⟩
    · simp only [SocketNetwork.newConn, Function.update_apply]
      split_ifs
      · rfl
      · exact hr.fresh c hc
    rcases hr.settled hp with hcancel | hdel | ⟨c, n, hc, hn, hold⟩
    · exact .inl hcancel
    · exact .inr (.inl hdel)
    · have hne : c ≠ s.numConns := Nat.ne_of_lt (hr.queued_lt c hc)
      refine .inr (.inr ⟨c, n, hc, hn, ?_⟩)
      simpa [SocketNetwork.newConn, hne] using hold
  · simp only [SocketNetwork.newConn, Function.update_apply]
    split_ifs with e
    · exact ⟨by simp [Assoc.find], by simp, by simp [ReaderPhase.drained]⟩
    · have hc := h.conn c
      exact ⟨hc.1, hc.2, hc.3⟩

theorem placed_iff {q : ReqMsg} (hp : q.phase.unnumbered = true) :
    q.Placed ↔ q.corr = none ∧ q.queued = none := by
  rw [ReqMsg.Placed]
  cases hq : q.phase <;> simp_all [SendPhase.unnumbered]

theorem OK.unnumbered (h : s.OK) {r : Nat} (hp : (s.reqs r).phase.unnumbered = true) :
    (s.reqs r).corr = none ∧ (s.reqs r).queued = none :=
  (placed_iff hp).mp (h.req r).placed

/-- `SendReq` goes on without a number. -/
theorem OK.goto_unnumbered (h : s.OK) {r : Nat} {p : SendPhase}
    (hp : (s.reqs r).phase.unnumbered = true) (hp' : p.unnumbered = true)
    (hconn : ∀ c, p.conn = some c → c < s.numConns)
    (hfresh : ∀ c, p.makes = some c → (s.heap c).reader = .unstarted) (hmakes : s.MakesOwn r p) :
    (s.goto r p).OK := by
  refine h.goto hconn hfresh hmakes ((placed_iff hp').mpr (h.unnumbered hp)) fun hands => ?_
  cases p <;> simp_all [SendPhase.unnumbered, SendPhase.handsOver]

theorem ReqOK.exchange {r : Nat} {q : ReqMsg} (hq : s.ReqOK r q) {o : Outcome}
    (ho : ∀ n, o.corr = some n → q.corr = some n) : s.ReqOK r (q.exchange o) := by
  rw [ReqMsg.exchange]
  split_ifs with hd
  · exact hq
  · have hcount := hq.count
    rw [if_neg hd] at hcount
    refine ⟨hq.conn_lt, hq.queued_lt, hq.corr_lt, hq.fresh, hq.placed, fun _ => .inr (.inl rfl), ?_,
      ?_⟩
    · simp [hcount]
    · intro o' ho' n hn
      rcases List.mem_append.mp ho' with ho' | ho'
      · exact hq.frames o' ho' n hn
      · rw [List.mem_singleton.mp ho'] at hn
        exact ho n hn

@[simp] theorem exchange_corr (q : ReqMsg) (o : Outcome) : (q.exchange o).corr = q.corr := by
  rw [ReqMsg.exchange]
  split_ifs <;> rfl

@[simp] theorem exchange_queued (q : ReqMsg) (o : Outcome) : (q.exchange o).queued = q.queued := by
  rw [ReqMsg.exchange]
  split_ifs <;> rfl

@[simp] theorem exchange_phase (q : ReqMsg) (o : Outcome) : (q.exchange o).phase = q.phase := by
  rw [ReqMsg.exchange]
  split_ifs <;> rfl

@[simp] theorem exchange_delivered (q : ReqMsg) (o : Outcome) : (q.exchange o).delivered = true := by
  rw [ReqMsg.exchange]
  split_ifs with h
  · exact h
  · rfl

theorem OK.exchange (h : s.OK) {r : Nat} {o : Outcome}
    (ho : ∀ n, o.corr = some n → (s.reqs r).corr = some n) :
    (s.setReq r ((s.reqs r).exchange o)).OK :=
  h.setReq ((h.req r).exchange ho) (by simp) (by simp) (.inl (by simp)) (.inr (.inl (by simp)))

/-- What the requests and the connections do not see. -/
theorem OK.admin (h : s.OK) {s' : SocketNetwork} (hreqs : s'.reqs = s.reqs) (hheap : s'.heap = s.heap)
    (hnum : s'.numConns = s.numConns) (hcorr : s.nextCorr ≤ s'.nextCorr)
    (hslots : ∀ e c, Assoc.find e s'.conns = some c → c < s.numConns) : s'.OK := by
  refine ⟨hnum ▸ hslots, hreqs ▸ h.unique, hreqs ▸ h.maker, fun r => ?_, fun c => ?_⟩
  · have hr := h.req r
    rw [hreqs]
    exact ⟨hnum ▸ hr.1, hnum ▸ hr.2, fun n hn => Nat.lt_of_lt_of_le (hr.corr_lt n hn) hcorr, hheap ▸ hr.4,
      hr.5, by simpa [Settled, hheap] using hr.settled, hr.7, hr.8⟩
  · have hc := h.conn c
    rw [hheap]
    exact ⟨hreqs ▸ hc.1, hreqs ▸ hc.2, hc.3⟩

theorem OK.number (h : s.OK) {r c : Nat}
    (hnone : (s.reqs r).corr = none ∧ (s.reqs r).queued = none) (hc : c < s.numConns) :
    (({ s with nextCorr := s.nextCorr + 1 } : SocketNetwork).setReq r
      { s.reqs r with corr := some s.nextCorr, phase := .enqueue c s.nextCorr }).OK := by
  have hnext : ({ s with nextCorr := s.nextCorr + 1 } : SocketNetwork).OK :=
    h.admin rfl rfl rfl (Nat.le_succ _) h.slots
  have hr := h.req r
  refine hnext.setReq ⟨?_, hr.queued_lt, ?_, ?_, ⟨rfl, hnone.2⟩, ?_, hr.count, ?_⟩ ?_
    (fun _ hc => hc) ?_ (.inl rfl)
  · simpa [SendPhase.conn] using hc
  · simp
  · simp [SendPhase.makes]
  · simp [SendPhase.handsOver]
  · intro o ho n hn
    have hold := hr.frames o ho n hn
    rw [hnone.1] at hold
    exact absurd hold (by simp)
  · simp [hnone.1]
  · refine .inr fun r' n hn hr' => ?_
    cases hn
    exact Nat.lt_irrefl _ ((h.req r').corr_lt _ hr')

theorem OK.enqueue (h : s.OK) {r c n : Nat} (hp : (s.reqs r).phase = .enqueue c n)
    (hopen : (s.heap c).closed = false) :
    ((s.setReq r { s.reqs r with queued := some c, phase := .write c n }).setConn c
      { s.heap c with pending := Assoc.bump n r (s.heap c).pending }).OK := by
  have hr := h.req r
  have hc := h.conn c
  have hplaced := hr.placed
  simp only [ReqMsg.Placed, hp] at hplaced
  have hlt : c < s.numConns := hr.conn_lt c (by rw [hp]; rfl)
  -- entered first, written then: in between, `SendReq` would still take the entry back
  have h₁ : (s.setReq r { s.reqs r with queued := some c, phase := .unqueue c n }).OK := by
    refine h.setReq ⟨?_, ?_, hr.corr_lt, ?_, ⟨hplaced.1, rfl⟩, ?_, hr.count, hr.frames⟩
      (fun _ hn => hn) ?_ (.inl rfl) (.inl rfl)
    · simpa [SendPhase.conn] using hlt
    · simpa using hlt
    · simp [SendPhase.makes]
    · simp [SendPhase.handsOver]
    · simp [hplaced.2]
  have h₂ := h₁.setConn (c := c) (k := { s.heap c with pending := Assoc.bump n r (s.heap c).pending })
    ⟨fun n' r' hf => ?_, (h₁.conn c).handed, fun hd => ?_⟩ (.inl rfl)
    fun r' n' _ hq' hn' hold => ?_
  · have h₃ := h₂.goto (r := r) (p := .write c n) ?_ (by simp [SendPhase.makes]) (.inl rfl) ?_
      fun _ => ?_
    · simpa [SocketNetwork.goto, SocketNetwork.setReq, SocketNetwork.setConn] using h₃
    · simpa [SendPhase.conn] using hlt
    · simp [ReqMsg.Placed, hplaced.1]
    · refine .inr (.inr ⟨c, n, by simp, by simpa using hplaced.1, .inl ?_⟩)
      simp [Assoc.find_bump]
  · simp only [Assoc.find_bump] at hf
    split_ifs at hf with e
    · cases hf
      simp [← e, hplaced.1]
    · exact (h₁.conn c).owned n' r' hf
  · exact absurd (hc.drained hd).1 (by simp [hopen])
  · refine .inr (.inr ?_)
    rcases hold with hf | hold
    · refine .inl ?_
      rw [Assoc.find_bump]
      split_ifs with e
      · subst e
        exact congrArg some (h₁.unique r r' n (by simpa using hplaced.1) hn')
      · exact hf
    · exact .inr hold

theorem OK.unqueue (h : s.OK) {r c n : Nat} (hp : (s.reqs r).phase = .unqueue c n) :
    ((s.goto r (.fail .check)).setConn c
      { s.heap c with pending := Assoc.remove n (s.heap c).pending }).OK := by
  have hplaced := (h.req r).placed
  simp only [ReqMsg.Placed, hp] at hplaced
  have h₁ := h.goto_fail r .check
  have hc := h₁.conn c
  refine h₁.setConn ⟨fun n' r' hf => ?_, hc.handed, fun hd => ?_⟩ (.inl rfl)
    fun r' n' hands _ hn' hold => ?_
  · by_cases e : n = n'
    · simp [e] at hf
    · rw [Assoc.find_remove e] at hf
      exact hc.owned n' r' hf
  · obtain ⟨hclosed, hpending⟩ := hc.drained hd
    refine ⟨hclosed, ?_⟩
    rw [show (s.heap c).pending = [] from hpending]
    rfl
  · refine .inr (.inr ?_)
    rcases hold with hf | hold
    · refine .inl ?_
      by_cases e : n = n'
      · -- the number is that of `r`, which is about to fail
        subst e
        have hr' : r' = r := h₁.unique r' r n hn' (by simpa [SocketNetwork.goto] using hplaced.1)
        subst hr'
        simp [SocketNetwork.goto, SendPhase.handsOver] at hands
      · rwa [Assoc.find_remove e]
    · exact .inr hold

theorem OK.goto_plain (h : s.OK) {r : Nat} {p : SendPhase}
    (hp : (s.reqs r).phase.unnumbered = true) (hp' : p.unnumbered = true) (hconn : p.conn = none) :
    (s.goto r p).OK := by
  have hmakes : p.makes = none := by cases p <;> simp_all [SendPhase.conn, SendPhase.makes]
  exact h.goto_unnumbered hp hp' (by simp [hconn]) (by simp [hmakes]) (.inl hmakes)

theorem OK.goto_on (h : s.OK) {r c : Nat} {p : SendPhase}
    (hp : (s.reqs r).phase.unnumbered = true) (hp' : p.unnumbered = true) (hmakes : p.makes = none)
    (hconn : p.conn = some c) (hc : c < s.numConns) : (s.goto r p).OK :=
  h.goto_unnumbered hp hp' (by simpa [hconn] using hc) (by simp [hmakes]) (.inl hmakes)

theorem makes_conn {p : SendPhase} {c : Nat} (h : p.makes = some c) : p.conn = some c := by
  cases p <;> simp_all [SendPhase.makes, SendPhase.conn]

theorem OK.make (h : s.OK) {r : Nat} (x : Int) {p : SendPhase}
    (hp : (s.reqs r).phase.unnumbered = true) (hp' : p.unnumbered = true)
    (hconn : p.conn = some s.numConns) (hmakes : p.makes = some s.numConns) :
    ((s.newConn (s.reqs r).endname x).goto r p).OK := by
  refine (h.newConn _ x).goto_unnumbered hp hp' ?_ ?_ (.inr (.inr fun r' c hc hr' => ?_))
  · simp [hconn, SocketNetwork.newConn]
  · simp [hmakes, SocketNetwork.newConn]
  · rw [hmakes] at hc
    cases hc
    have hlt := (h.req r').conn_lt s.numConns
    exact Nat.lt_irrefl _ (hlt (makes_conn hr'))

theorem OK.spawn (h : s.OK) {r c : Nat} (hp : (s.reqs r).phase = .spawn c) :
    ((s.goto r (.register c)).readerAt c .loop).OK := by
  have hr := h.req r
  have hmakes : (s.reqs r).phase.makes = some c := by rw [hp]; rfl
  have h₁ := h.goto_on (r := r) (c := c) (p := .register c) (by rw [hp]; rfl) rfl rfl rfl
    (hr.conn_lt c (by rw [hp]; rfl))
  have hc := h₁.conn c
  have hunstarted : ((s.goto r (.register c)).heap c).reader = .unstarted := hr.fresh c hmakes
  refine h₁.setConn ⟨hc.owned, by simp, by simp [ReaderPhase.drained]⟩ (.inr fun r' hr' => ?_)
    fun r' n _ _ _ hold => .inr (.inr ?_)
  · by_cases e : r' = r
    · subst e
      simp [SocketNetwork.goto, SendPhase.makes] at hr'
    · refine e (h.maker r' r c ?_ hmakes)
      simpa [SocketNetwork.goto, e] using hr'
  · simpa [Conn.Holds, hunstarted, ReaderPhase.fails] using hold

theorem OK.sendReq (h : s.OK) (r : Nat) (ch : SendChoice) : (s.sendReq r ch).OK := by
  have hr := h.req r
  rw [SocketNetwork.sendReq]
  cases hp : (s.reqs r).phase with
  | uncalled => exact h
  | returned => exact h
  | start =>
    dsimp only
    split_ifs
    · exact h.goto_fail r _
    · exact h.goto_plain (by rw [hp]; rfl) rfl rfl
  | route =>
    dsimp only
    split_ifs
    · exact h.goto_fail r _
    · exact h.goto_fail r _
    · exact h.goto_plain (by rw [hp]; rfl) rfl rfl
  | acquire x =>
    dsimp only
    split_ifs
    · exact h.goto_fail r _
    · exact h.goto_plain (by rw [hp]; rfl) rfl rfl
  | look x =>
    dsimp only
    cases hf : Assoc.find (s.reqs r).endname s.conns with
    | none => exact h.goto_plain (by rw [hp]; rfl) rfl rfl
    | some c =>
      dsimp only
      split_ifs
      · exact h.goto_on (by rw [hp]; rfl) rfl rfl rfl (h.slots _ c hf)
      · exact h.goto_plain (by rw [hp]; rfl) rfl rfl
  | retire x stale => exact (h.goto_plain (by rw [hp]; rfl) rfl rfl).shutdownConn stale
  | dial x =>
    dsimp only
    split_ifs
    · exact h.goto_plain (by rw [hp]; rfl) rfl rfl
    · exact h.goto_fail r _
  | install x =>
    dsimp only
    split_ifs
    · exact h.goto_fail r _
    · cases hf : Assoc.find (s.reqs r).endname s.conns with
      | none => exact h.make x (by rw [hp]; rfl) rfl rfl rfl
      | some c =>
        dsimp only
        split_ifs
        · exact h.goto_on (by rw [hp]; rfl) rfl rfl rfl (h.slots _ c hf)
        · exact h.make x (by rw [hp]; rfl) rfl rfl rfl
  | replace c replaced =>
    have hlt := hr.conn_lt c (by rw [hp]; rfl)
    have hfresh := hr.fresh c (by rw [hp]; rfl)
    refine (h.goto_unnumbered (by rw [hp]; rfl) rfl ?_ ?_ (.inr (.inl ?_))).shutdownConn replaced
    · simpa [SendPhase.conn] using hlt
    · simpa [SendPhase.makes] using hfresh
    · rw [hp]
      rfl
  | spawn c => exact h.spawn hp
  | register c =>
    have hlt := hr.conn_lt c (by rw [hp]; rfl)
    dsimp only
    split_ifs
    all_goals exact h.goto_on (by rw [hp]; rfl) rfl rfl rfl hlt
  | join c =>
    have hlt := hr.conn_lt c (by rw [hp]; rfl)
    dsimp only
    split_ifs
    · exact h.goto_on (by rw [hp]; rfl) rfl rfl rfl hlt
    · exact h
  | number c => exact h.number (h.unnumbered (by rw [hp]; rfl)) (hr.conn_lt c (by rw [hp]; rfl))
  | enqueue c n =>
    dsimp only
    split_ifs with hclosed
    · exact h.goto_fail r _
    · exact h.enqueue hp (by simpa using hclosed)
  | write c n =>
    have hlt := hr.conn_lt c (by rw [hp]; rfl)
    have hplaced := hr.placed
    simp only [ReqMsg.Placed, hp] at hplaced
    dsimp only
    split_ifs
    · exact h.goto_returned (hr.settled (by rw [hp]; rfl))
    · exact h.goto (by simpa [SendPhase.conn] using hlt) (by simp [SendPhase.makes]) (.inl rfl)
        hplaced (by simp [SendPhase.handsOver])
  | unqueue c n => exact h.unqueue hp
  | fail d =>
    cases d with
    | check =>
      dsimp only
      split_ifs with hcancel
      · exact h.goto_returned (.inl hcancel)
      · exact h.goto_fail r _
    | exchange =>
      have h₁ := (h.exchange (r := r) (o := .failed) (by simp [Outcome.failed])).goto_returned
        (r := r) (.inr (.inl (by simp)))
      simpa [SocketNetwork.goto, SocketNetwork.setReq] using h₁

/-- The reader goes on; the connection keeps its entries, or the reader has taken them. -/
theorem OK.reading (h : s.OK) {c : Nat} {k : Conn} (hk : s.ConnOK c k)
    (hreader : (s.heap c).reader ≠ .unstarted)
    (hholds : ∀ r n, (s.reqs r).corr = some n → (s.heap c).Holds r n →
      (s.reqs r).cancel = true ∨ (s.reqs r).delivered = true ∨ k.Holds r n) :
    (s.setConn c k).OK :=
  h.setConn hk (.inr fun r hr => hreader ((h.req r).fresh c hr)) fun r n _ _ hn => hholds r n hn

/-- Where nothing but the place of the reader changes, and it holds nothing outside `pending`. -/
theorem OK.readerAt (h : s.OK) {c : Nat} {p : ReaderPhase}
    (hreader : (s.heap c).reader ≠ .unstarted)
    (hhanded : ∀ r f d, p = .deliver r f d → (s.heap c).reader = .deliver r f .check)
    (hdrained : p.drained = true → (s.heap c).reader.drained = true)
    (hdeliver : ∀ r f d, (s.heap c).reader = .deliver r f d →
      (s.reqs r).cancel = true ∨ (s.reqs r).delivered = true ∨ p = .deliver r f .exchange)
    (hfails : ∀ r ∈ (s.heap c).reader.fails,
      (s.reqs r).cancel = true ∨ (s.reqs r).delivered = true ∨ r ∈ p.fails) :
    (s.readerAt c p).OK := by
  have hc := h.conn c
  refine h.reading ⟨hc.owned, fun r f d hp => hc.handed r f _ (hhanded r f d hp),
    fun hd => hc.drained (hdrained hd)⟩ hreader fun r n _ hold => ?_
  rcases hold with hf | ⟨f, d, hd⟩ | hf
  · exact .inr (.inr (.inl hf))
  · rcases hdeliver r f d hd with hcancel | hdel | hp
    · exact .inl hcancel
    · exact .inr (.inl hdel)
    · exact .inr (.inr (.inr (.inl ⟨f, .exchange, hp⟩)))
  · rcases hfails r hf with hcancel | hdel | hp
    · exact .inl hcancel
    · exact .inr (.inl hdel)
    · exact .inr (.inr (.inr (.inr hp)))

theorem OK.lookup (h : s.OK) {c r : Nat} {f : ReplyFrame} (hp : (s.heap c).reader = .lookup f)
    (hf : Assoc.find f.corr (s.heap c).pending = some r) :
    (s.setConn c { s.heap c with
      pending := Assoc.remove f.corr (s.heap c).pending
      reader := .deliver r f .check }).OK := by
  have hc := h.conn c
  have howned := hc.owned f.corr r hf
  refine h.reading ⟨fun n' r' hf' => ?_, fun r' f' d' hd => ?_, by simp [ReaderPhase.drained]⟩
    (by simp [hp]) fun r' n hn hold => .inr (.inr ?_)
  · by_cases e : f.corr = n'
    · simp [e] at hf'
    · rw [Assoc.find_remove e] at hf'
      exact hc.owned n' r' hf'
  · cases hd
    exact howned.1
  · simp only [Conn.Holds, hp, ReaderPhase.fails] at hold
    rcases hold with hold | ⟨f', d, hd⟩ | hold
    · by_cases e : f.corr = n
      · -- the entry of the number is the one that the reader takes
        rw [← e, hf] at hold
        cases hold
        exact .inr (.inl ⟨f, .check, rfl⟩)
      · exact .inl ((Assoc.find_remove e _).trans hold)
    · cases hd
    · cases hold

theorem OK.drain (h : s.OK) {c : Nat} (hp : (s.heap c).reader = .drain) :
    (s.setConn c { s.heap c with
      pending := []
      closed := true
      reader := .close ((s.heap c).pending.map Prod.snd) }).OK := by
  refine h.reading ⟨by simp [Assoc.find], by simp, fun _ => ⟨rfl, rfl⟩⟩ (by simp [hp])
    fun r n _ hold => .inr (.inr ?_)
  simp only [Conn.Holds, hp, ReaderPhase.fails] at hold
  rcases hold with hold | ⟨f, d, hd⟩ | hold
  · exact .inr (.inr (List.mem_map.mpr ⟨(n, r), Assoc.mem_of_find hold, rfl⟩))
  · cases hd
  · cases hold

theorem OK.connReader (h : s.OK) (c : Nat) (frame : Option ReplyFrame) :
    (s.connReader c frame).OK := by
  have hc := h.conn c
  unfold SocketNetwork.connReader
  cases hp : (s.heap c).reader with
  | unstarted => exact h
  | exited => exact h
  | loop =>
    dsimp only
    split_ifs
    all_goals apply h.readerAt <;> simp [hp, ReaderPhase.fails, ReaderPhase.drained]
  | snapshot =>
    dsimp only
    split_ifs
    all_goals apply h.readerAt <;> simp [hp, ReaderPhase.fails, ReaderPhase.drained]
  | recv =>
    cases frame with
    | none => apply h.readerAt <;> simp [hp, ReaderPhase.fails, ReaderPhase.drained]
    | some f => apply h.readerAt <;> simp [hp, ReaderPhase.fails, ReaderPhase.drained]
  | lookup f =>
    dsimp only
    cases hf : Assoc.find f.corr (s.heap c).pending with
    | none => apply h.readerAt <;> simp [hp, ReaderPhase.fails, ReaderPhase.drained]
    | some r => exact h.lookup hp hf
  | deliver r f d =>
    cases d with
    | check =>
      dsimp only
      split_ifs with hcancel
      · apply h.readerAt <;> simp [hp, ReaderPhase.fails, ReaderPhase.drained, hcancel]
      · apply h.readerAt <;> simp [hp, ReaderPhase.fails, ReaderPhase.drained]
    | exchange =>
      have hcorr := hc.handed r f .exchange hp
      have h₁ := h.exchange (r := r) (o := f.outcome) (by simpa [ReplyFrame.outcome] using hcorr)
      apply h₁.readerAt <;> simp [hp, ReaderPhase.fails, ReaderPhase.drained]
  | drain => exact h.drain hp
  | close fails =>
    have hdrained := hc.drained (by rw [hp]; rfl)
    refine h.reading ⟨hc.owned, by simp, fun _ => hdrained⟩ (by simp [hp])
      fun r n _ hold => .inr (.inr ?_)
    simpa [Conn.Holds, hp, ReaderPhase.fails] using hold
  | failing fails d =>
    cases fails with
    | nil => apply h.readerAt <;> simp [hp, ReaderPhase.fails, ReaderPhase.drained]
    | cons r fails =>
      cases d with
      | check =>
        dsimp only
        split_ifs with hcancel
        · apply h.readerAt <;> simp +contextual [hp, ReaderPhase.fails, ReaderPhase.drained, hcancel]
        · apply h.readerAt <;> simp +contextual [hp, ReaderPhase.fails, ReaderPhase.drained]
      | exchange =>
        have h₁ := h.exchange (r := r) (o := .failed) (by simp [Outcome.failed])
        apply h₁.readerAt <;> simp +contextual [hp, ReaderPhase.fails, ReaderPhase.drained]
  | unlist =>
    dsimp only
    split_ifs
    · have h₁ : ({ s with
          conns := Assoc.remove (s.heap c).endname s.conns } : SocketNetwork).OK :=
        h.admin rfl rfl rfl (Nat.le_refl _) fun e c' hf => h.slots e c' (Assoc.find_of_remove hf)
      apply h₁.readerAt <;> simp [hp, ReaderPhase.fails, ReaderPhase.drained]
    · apply h.readerAt <;> simp [hp, ReaderPhase.fails, ReaderPhase.drained]

theorem OK.call (h : s.OK) (r : Nat) (e : String) (args : Bytes)
    (hp : (s.reqs r).phase = .uncalled) :
    (s.setReq r { s.reqs r with endname := e, args := args, phase := .start }).OK := by
  have hr := h.req r
  have hnone := h.unnumbered (r := r) (by rw [hp]; rfl)
  refine h.setReq ⟨?_, hr.queued_lt, hr.corr_lt, ?_, hnone, ?_, hr.count, hr.frames⟩
    (fun _ hn => hn) (fun _ hc => hc) (.inl rfl) (.inl rfl)
  · simp [SendPhase.conn]
  · simp [SendPhase.makes]
  · simp [SendPhase.handsOver]

theorem OK.cancel (h : s.OK) (r : Nat) : (s.setReq r { s.reqs r with cancel := true }).OK := by
  have hr := h.req r
  exact h.setReq ⟨hr.conn_lt, hr.queued_lt, hr.corr_lt, hr.fresh, hr.placed, fun _ => .inl rfl,
    hr.count, hr.frames⟩ (fun _ hn => hn) (fun _ hc => hc) (.inl rfl) (.inr (.inl rfl))

theorem OK.step (h : s.OK) (e : SocketEvent) : (s.step e).OK := by
  cases e with
  | call r e args =>
    rw [SocketNetwork.step]
    split_ifs with hp
    · exact h.call r e args hp
    · exact h
  | send r ch => exact h.sendReq r ch
  | read c frame => exact h.connReader c frame
  | shutdown c => exact h.shutdownConn c
  | cancel r => exact h.cancel r
  | makeEnd e => exact h.admin rfl rfl rfl (Nat.le_refl _) h.slots
  | connect e x => exact h.admin rfl rfl rfl (Nat.le_refl _) h.slots
  | enable e on => exact h.admin rfl rfl rfl (Nat.le_refl _) h.slots
  | removeClientEnd e =>
    exact h.admin rfl rfl rfl (Nat.le_refl _) fun e' c hf => h.slots e' c (Assoc.find_of_remove hf)
  | setReliable yes => exact h.admin rfl rfl rfl (Nat.le_refl _) h.slots
  | setMaxMessageBytes n => exact h.admin rfl rfl rfl (Nat.le_refl _) h.slots
  | stop => exact h.admin rfl rfl rfl (Nat.le_refl _) h.slots
  | clear =>
    rw [SocketNetwork.step]
    split_ifs
    · exact h.admin rfl rfl rfl (Nat.le_refl _) (by simp [Assoc.find])
    · exact h

theorem OK.run (h : s.OK) (es : List SocketEvent) : (s.run es).OK := by
  induction es generalizing s with
  | nil => exact h
  | cons e es ih => exact ih (h.step e)

/-- The network as its constructor leaves it. -/
def init (basePort : Int) (hostOk portOk : Bool) (maxMessageBytes : Nat) : SocketNetwork :=
  { basePort, hostOk, portOk, maxMessageBytes }

theorem init_OK (basePort : Int) (hostOk portOk : Bool) (maxMessageBytes : Nat) :
    (init basePort hostOk portOk maxMessageBytes).OK := by
  refine ⟨by simp [init, Assoc.find], by simp [init], by simp [init, SendPhase.makes],
    fun r => ?_, fun c => ?_⟩
  · exact ⟨by simp [init, SendPhase.conn], by simp [init], by simp [init],
      by simp [init, SendPhase.makes], ⟨rfl, rfl⟩, by simp [init, SendPhase.handsOver], rfl,
      by simp [init]⟩
  · exact ⟨by simp [init, Assoc.find], by simp [init], by simp [init, ReaderPhase.drained]⟩

/-- What an exited reader leaves behind is empty. -/
theorem OK.exited (h : s.OK) {c : Nat} (hc : (s.heap c).reader = .exited) (r n : Nat) :
    ¬(s.heap c).Holds r n := by
  have hpending := ((h.conn c).drained (by rw [hc]; rfl)).2
  simp [Conn.Holds, hc, hpending, ReaderPhase.fails, Assoc.find]

theorem OK.delivered (h : s.OK) {r : Nat} (hcancel : (s.reqs r).cancel = false)
    (hreturned : (s.reqs r).phase = .returned)
    (hexited : ∀ c, (s.reqs r).queued = some c → (s.heap c).reader = .exited) :
    (s.reqs r).outcomes.length = 1 := by
  have hr := h.req r
  have hdel : (s.reqs r).delivered = true := by
    rcases hr.settled (by rw [hreturned]; rfl) with hc | hdel | ⟨c, n, hc, -, hold⟩
    · exact absurd (hcancel.symm.trans hc) Bool.false_ne_true
    · exact hdel
    · exact absurd hold (h.exited (hexited c hc) r n)
  rw [hr.count, if_pos hdel]

end SocketNetwork

open SocketNetwork

/-- A request gets one outcome at most, and none from a frame of another request; it has one when its
`SendReq` has returned and the reader of its connection is gone, and no exited reader leaves a request
in `pending`. -/
theorem one_outcome (basePort : Int) (hostOk portOk : Bool) (maxMessageBytes : Nat)
    (es : List SocketEvent) :
    let s := (init basePort hostOk portOk maxMessageBytes).run es
    (∀ r,
      (s.reqs r).outcomes.length ≤ 1 ∧
      (∀ o ∈ (s.reqs r).outcomes, ∀ n, o.corr = some n →
        (s.reqs r).corr = some n ∧ ∀ r', r' ≠ r → (s.reqs r').corr ≠ some n) ∧
      ((s.reqs r).cancel = false → (s.reqs r).phase = .returned →
        (∀ c, (s.reqs r).queued = some c → (s.heap c).reader = .exited) →
        (s.reqs r).outcomes.length = 1)) ∧
    ∀ c, (s.heap c).reader = .exited → (s.heap c).pending = [] := by
  intro s
  have h : s.OK := (init_OK basePort hostOk portOk maxMessageBytes).run es
  refine ⟨fun r => ⟨?_, fun o ho n hn => ?_, h.delivered⟩, fun c hc => ?_⟩
  · rw [(h.req r).count]
    split_ifs <;> simp
  · have hcorr := (h.req r).frames o ho n hn
    exact ⟨hcorr, fun r' hne hr' => hne (h.unique r' r n hr' hcorr)⟩
  · exact ((h.conn c).drained (by rw [hc]; rfl)).2

-- one reply, after which the peer closes the connection
example :
    let s := (init 9000 true true 0).run
      ([.connect "a" 1, .enable "a" true, .call 0 "a" []] ++ List.replicate 11 (.send 0 {}) ++
        List.replicate 6 (.read 0 (some ⟨1, true, [7]⟩)) ++ List.replicate 7 (.read 0 none))
    (s.reqs 0).outcomes = [⟨true, [7], some 1⟩] ∧ (s.reqs 0).phase = .returned ∧
      (s.heap 0).reader = .exited := by
  decide

end ChonKV
