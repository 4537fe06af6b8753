import ChonKV.Cluster.LogView

/-!
The abstract state of a run: the ledger of its terms, who owns each term, who voted for whom, and
what the candidates announced. A term may be owned by several nodes in turn; its history goes on.
-/

set_option autoImplicit false

namespace ChonKV

open Ballot Ballot.Ledger
open Function (update)

/-- What safety sees of a node. -/
structure Core where
  state : ServerState
  currentTerm : Int
  votedFor : Int
  voteGranted : List Int
  logs : List LogEntry
  snapshotIndex : Int
  snapshotTerm : Int
  commitIndex : Int
  lastApplied : Int
  nextIndex : List Int
  matchIndex : List Int

def Raft.core (r : Raft) : Core where
  state := r.state
  currentTerm := r.currentTerm
  votedFor := r.votedFor
  voteGranted := r.voteGranted
  logs := r.logs
  snapshotIndex := r.snapshotIndex
  snapshotTerm := r.snapshotTerm
  commitIndex := r.commitIndex
  lastApplied := r.lastApplied
  nextIndex := r.nextIndex
  matchIndex := r.matchIndex

/-- `owner T` is the node that last became leader of `T`; `vote q T` the other node that `q` voted
for in `T`; `asked c T a` says that `c` asked for votes in `T` with a log that ended at `a`. -/
structure Ghost where
  L : Ledger Nat LogEntry Int
  owner : Int → Nat
  vote : Nat → Int → Option Nat
  asked : Nat → Int → Int × Nat → Prop

/-- What a whole run shows: who led which term, the terms in which a node that had led them granted
a vote, the snapshots that the upper layer handed over, and the buffers that passed as snapshots. -/
structure Record where
  led : Nat → Int → Prop
  relapsed : Int → Prop
  taken : Bytes → Prop
  assembled : Bytes → Prop

/-- Length and checksum told the buffers of the run apart from other snapshots. -/
def Record.intact (E : Record) : Prop :=
  ∀ buf data, E.assembled buf → E.taken data → buf.length = data.length →
    crc32 buf = crc32 data → buf = data

section
variable (n : Nat) (E : Record)

/-- `G'` is a later state than `G`. -/
structure Ghost.Le (G G' : Ghost) : Prop where
  ext : Ext G.L G'.L
  vote : ∀ q T c, G.vote q T = some c → G'.vote q T = some c
  asked : ∀ c T a, G.asked c T a → G'.asked c T a
  owner : ∀ T, G.L.opened T → G'.owner T = G.owner T ∨ E.relapsed T

theorem Ghost.Le.refl (G : Ghost) : G.Le E G :=
  ⟨Ext.refl G.L, fun _ _ _ h => h, fun _ _ _ h => h, fun _ _ => .inl rfl⟩

variable {E} in
theorem Ghost.Le.trans {G G' G'' : Ghost} (h : G.Le E G') (h' : G'.Le E G'') : G.Le E G'' where
  ext := h.ext.trans h'.ext
  vote q T c hv := h'.vote q T c (h.vote q T c hv)
  asked c T a ha := h'.asked c T a (h.asked c T a ha)
  owner T ho := by
    rcases h'.owner T (h.ext.opened_mono T ho) with h2 | h2
    · rcases h.owner T ho with h1 | h1
      · exact .inl (h2.trans h1)
      · exact .inr h1
    · exact .inr h2

/-- A log whose last entry is of the term `T` is a part of the history of `T`. -/
def Tail (L : Ledger Nat LogEntry Int) (l : List LogEntry) (T : Int) : Prop :=
  L.opened T ∧ l = (L.hist T).take l.length

theorem Tail.ext {L L' : Ledger Nat LogEntry Int} {l : List LogEntry} {T : Int} (h : Tail L l T)
    (hx : Ext L L') : Tail L' l T := by
  obtain ⟨ho, hl⟩ := h
  have hlen : l.length ≤ (L.hist T).length := by
    have hq := congrArg List.length hl
    rw [List.length_take] at hq
    omega
  exact ⟨hx.opened_mono T ho, by rw [hx.hist_take hlen, ← hl]⟩

/-- Node `i` leads its term: its log is the history of the term, its match positions are sound. -/
structure Leads (G : Ghost) (i : Nat) (k : Core) : Prop where
  opened : G.L.opened k.currentTerm
  owner : G.owner k.currentTerm = i
  log : G.L.log i = G.L.hist k.currentTerm
  self : Acks (majority n) G.L i k.currentTerm (G.L.hist k.currentTerm).length
  matched : ∀ s, ∃ m : Nat, k.matchIndex.getD s 0 = m ∧ Acks (majority n) G.L s k.currentTerm m
  next : ∀ s, k.nextIndex.getD s 0 ≤ (G.L.hist k.currentTerm).length + 1

/-- Node `i` stands in its term: it never led it, and the votes it counts were cast for it. -/
structure Stands (G : Ghost) (i : Nat) (k : Core) : Prop where
  fresh : G.L.opened k.currentTerm → G.owner k.currentTerm ≠ i
  granted : ∀ s, k.voteGranted.getD s 0 = 1 → s = i ∨ G.vote s k.currentTerm = some i
  last : (G.L.lastOf (G.L.log i)).1 = k.currentTerm → Tail G.L (G.L.log i) k.currentTerm

structure NodeInv (G : Ghost) (i : Nat) (k : Core) : Prop where
  shows : Shows k.snapshotIndex k.snapshotTerm k.logs (G.L.log i) (G.L.base i)
  term : G.L.term i = k.currentTerm
  nonneg : 0 ≤ k.currentTerm
  commit : ∃ c : Nat, k.commitIndex = c ∧
    G.L.Settled (majority n) (G.L.log i) c (G.L.term i)
  applied : k.snapshotIndex ≤ k.lastApplied ∧ k.lastApplied ≤ k.commitIndex
  votes : k.state ≠ .kFollower → k.votedFor = i ∧ 0 < k.currentTerm
  leads : k.state = .kLeader → Leads n G i k
  stands : k.state = .kCandidate → Stands G i k

/-- While `c` is candidate in `T`, its log carries what it announced. -/
def Campaigns (G : Ghost) (k : Core) (c : Nat) (T : Int) (a : Int × Nat) : Prop :=
  k.state = .kCandidate → k.currentTerm = T → Covers (majority n) G.L (G.L.log c) T a ∧
    (a.1 = T → a.2 ≤ (G.L.log c).length ∧ Tail G.L (G.L.log c) T)

/-- A quorum elected the owner of `T`. -/
def Won (G : Ghost) (T : Int) : Prop :=
  ∃ A, (majority n).IsQuorum A ∧ ∀ q ∈ A, q = G.owner T ∨ G.vote q T = some (G.owner T)

/-- The invariant of every run, over the abstract state and what safety sees of the nodes. It lacks
one thing, which a new leader settles before it releases the lock. -/
structure Draft (G : Ghost) (K : Nat → Core) : Prop where
  wf : G.L.WF (majority n)
  floor : G.L.floor = 0
  aligned : ∀ T, Aligned (G.L.hist T)
  noConf : ∀ T, ∀ e ∈ G.L.hist T, e.type ≠ .kConfChange
  node : ∀ i < n, NodeInv n G i (K i)
  ownerTerm : ∀ T, G.L.opened T → G.owner T < n ∧ T ≤ G.L.term (G.owner T)
  won : ∀ T, G.L.opened T → Won n G T
  ownLog : ∀ T, G.L.opened T → G.L.term (G.owner T) = T → G.L.log (G.owner T) = G.L.hist T
  voted : ∀ q T c, G.vote q T = some c → q < n ∧ c < n ∧ q ≠ c ∧
    (T < G.L.term q ∨ (T = G.L.term q ∧ (K q).votedFor = c ∧ (K q).state = .kFollower))
  backing : ∀ q T c, G.vote q T = some c → ∃ a, G.asked c T a ∧ Backs (majority n) G.L q T a ∧
    (G.L.opened T → G.owner T = q → G.L.UpToDate (G.L.hist T) a)
  asks : ∀ c T a, G.asked c T a → c < n ∧ G.L.Advert a ∧ a.1 ≤ T ∧ T ≤ G.L.term c ∧
    Campaigns n G (K c) c T a
  ledBy : ∀ T, G.L.opened T → E.led (G.owner T) T
  relapse : ∀ T c, G.L.opened T → G.vote (G.owner T) T = some c → E.relapsed T

/-- A term has an entry of its own, or all it has was settled before it. -/
def Written (G : Ghost) (T : Int) : Prop :=
  (∃ p, OwnAt T (G.L.hist T) p) ∨
    ∃ t, t < T ∧ G.L.Settled (majority n) (G.L.hist T) (G.L.hist T).length t

structure Inv (G : Ghost) (K : Nat → Core) : Prop extends Draft n E G K where
  written : ∀ T, G.L.opened T → Written n G T

/-- Node `i` can come to `k'`, with the invariant and `P` for a later abstract state. -/
def Moves (G : Ghost) (K : Nat → Core) (i : Nat) (k' : Core) (P : Ghost → Prop) : Prop :=
  ∃ G', G.Le E G' ∧ Inv n E G' (update K i k') ∧ P G'

variable {n E} {G : Ghost} {K : Nat → Core} {i : Nat}

theorem Moves.imp {k' : Core} {P Q : Ghost → Prop} (h : Moves n E G K i k' P)
    (hPQ : ∀ G', G.Le E G' → P G' → Q G') : Moves n E G K i k' Q := by
  obtain ⟨G', hle, hinv, hp⟩ := h
  exact ⟨G', hle, hinv, hPQ G' hle hp⟩

theorem Moves.trans {k₁ k₂ : Core} {P Q : Ghost → Prop} (h : Moves n E G K i k₁ P)
    (hnext : ∀ G₁, G.Le E G₁ → Inv n E G₁ (update K i k₁) → P G₁ →
      Moves n E G₁ (update K i k₁) i k₂ Q) : Moves n E G K i k₂ Q := by
  obtain ⟨G₁, hle, hinv, hp⟩ := h
  obtain ⟨G₂, hle', hinv', hq⟩ := hnext G₁ hle hinv hp
  exact ⟨G₂, hle.trans hle', by simpa using hinv', hq⟩

theorem Moves.refl (h : Inv n E G K) {k : Core} (hk : K i = k) {P : Ghost → Prop} (hp : P G) :
    Moves n E G K i k P :=
  ⟨G, Ghost.Le.refl E G, by rwa [← hk, Function.update_eq_self], hp⟩

theorem UpToDate.congr_floor {L L' : Ledger Nat LogEntry Int} (hf : L'.floor = L.floor)
    {l : List LogEntry} {a : Int × Nat} (h : L.UpToDate l a) : L'.UpToDate l a := by
  rwa [UpToDate, lastOf, hf]

theorem lastOf_congr {L L' : Ledger Nat LogEntry Int} (hf : L'.floor = L.floor)
    (l : List LogEntry) : L'.lastOf l = L.lastOf l := by
  rw [lastOf, hf, lastOf]

theorem Draft.lastOf_eq (h : Draft n E G K) (l : List LogEntry) :
    G.L.lastOf l = (termAt l l.length, l.length) := by
  rw [lastOf, h.floor, termAt, List.take_length]
  rfl

/-- What a node stays when another node moves. -/
theorem NodeInv.frame {G' : Ghost} {k : Core} (h : NodeInv n G i k) (hx : Ext G.L G'.L)
    (hlog : G'.L.log i = G.L.log i) (hbase : G'.L.base i = G.L.base i)
    (hterm : G'.L.term i = G.L.term i)
    (hlead : k.state = .kLeader → G'.L.hist k.currentTerm = G.L.hist k.currentTerm ∧
      G'.owner k.currentTerm = G.owner k.currentTerm)
    (hfresh : G'.L.opened k.currentTerm → G'.owner k.currentTerm = i →
      G.L.opened k.currentTerm ∧ G.owner k.currentTerm = i)
    (hvote : ∀ s, G.vote s k.currentTerm = some i → G'.vote s k.currentTerm = some i) :
    NodeInv n G' i k := by
  obtain ⟨shows, term, nonneg, commit, applied, votes, leads, stands⟩ := h
  refine ⟨by rwa [hlog, hbase], hterm.trans term, nonneg, ?_, applied, votes, fun hl => ?_,
    fun hc => ?_⟩
  · obtain ⟨c, hc, hs⟩ := commit
    exact ⟨c, hc, by rw [hlog, hterm]; exact hs.ext hx⟩
  · obtain ⟨ho, hown, hlg, hself, hm, hnx⟩ := leads hl
    obtain ⟨hhist, howner⟩ := hlead hl
    refine ⟨hx.opened_mono _ ho, howner.trans hown, ?_, ?_, fun s => ?_, ?_⟩
    · rw [hlog, hhist, hlg]
    · rw [hhist]
      exact hself.ext hx
    · obtain ⟨m, hm, ha⟩ := hm s
      exact ⟨m, hm, ha.ext hx⟩
    · rwa [hhist]
  · obtain ⟨hf, hg, hla⟩ := stands hc
    refine ⟨fun ho hown => ?_, fun s hs => ?_, fun hlast => ?_⟩
    · obtain ⟨ho', hown'⟩ := hfresh ho hown
      exact hf ho' hown'
    · exact (hg s hs).imp_right (hvote s)
    · rw [lastOf_congr hx.floor_eq, hlog] at hlast
      rw [hlog]
      exact (hla hlast).ext hx

/-- A candidate keeps what it announced when another node moves. -/
theorem Campaigns.frame {G' : Ghost} {k : Core} {c : Nat} {T : Int} {a : Int × Nat}
    (h : Campaigns n G k c T a) (hL : G.L.WF (majority n)) (hL' : G'.L.WF (majority n))
    (hx : Ext G.L G'.L) (ha : G.L.Advert a) (hlog : G'.L.log c = G.L.log c) :
    Campaigns n G' k c T a := by
  intro hs ht
  obtain ⟨hcov, htail⟩ := h hs ht
  rw [hlog]
  refine ⟨hcov.ext hL hL' ha hx, fun haT => ?_⟩
  obtain ⟨hlen, htl⟩ := htail haT
  exact ⟨hlen, htl.ext hx⟩

theorem Written.ext {G' : Ghost} {T : Int} (h : Written n G T) (hx : Ext G.L G'.L)
    (hh : G'.L.hist T = G.L.hist T) : Written n G' T := by
  rcases h with ⟨p, hp⟩ | ⟨t, ht, hs⟩
  · exact .inl ⟨p, hx.own hp⟩
  · exact .inr ⟨t, ht, by rw [hh]; exact hs.ext hx⟩

/-- A step of node `i` that opens no term, appends to none and casts no vote. -/
theorem Inv.local (h : Inv n E G K) {L' : Ledger Nat LogEntry Int} {k' : Core}
    (hwf : L'.WF (majority n)) (hx : Ext G.L L') (hhist : L'.hist = G.L.hist)
    (hopen : L'.opened = G.L.opened) (hlog : ∀ j, j ≠ i → L'.log j = G.L.log j)
    (hbase : ∀ j, j ≠ i → L'.base j = G.L.base j) (hterm : ∀ j, j ≠ i → L'.term j = G.L.term j)
    (node : NodeInv n { G with L := L' } i k')
    (own : ∀ T, G.L.opened T → G.owner T = i → L'.term i = T → L'.log i = G.L.hist T)
    (voted : ∀ T c, G.vote i T = some c → T < L'.term i ∨
      (T = L'.term i ∧ k'.votedFor = c ∧ k'.state = .kFollower))
    (asks : ∀ T a, G.asked i T a → Campaigns n { G with L := L' } k' i T a)
    {P : Ghost → Prop} (post : P { G with L := L' }) : Moves n E G K i k' P := by
  refine ⟨{ G with L := L' }, ⟨hx, fun _ _ _ hv => hv, fun _ _ _ ha => ha, fun _ _ => .inl rfl⟩, ?_, post⟩
  refine ⟨⟨hwf, hx.floor_eq.trans h.floor, ?_, ?_, ?_, ?_, ?_, ?_, ?_, ?_, ?_, ?_, ?_⟩, ?_⟩
  · simpa only [hhist] using h.aligned
  · simpa only [hhist] using h.noConf
  · intro j hj
    by_cases hji : j = i
    · subst hji
      simpa using node
    · rw [Function.update_of_ne hji]
      refine (h.node j hj).frame hx (hlog j hji) (hbase j hji) (hterm j hji) (fun _ => ?_)
        (fun ho hown => ?_) (fun _ hv => hv)
      · exact ⟨congrFun hhist _, rfl⟩
      · exact ⟨hopen ▸ ho, hown⟩
  · intro T ho
    simp only [hopen] at ho
    obtain ⟨hlt, hle⟩ := h.ownerTerm T ho
    exact ⟨hlt, hle.trans (hx.term_mono _)⟩
  · intro T ho
    simp only [hopen] at ho
    exact h.won T ho
  · intro T ho ht
    simp only [hopen] at ho
    simp only [hhist]
    by_cases hoi : G.owner T = i
    · rw [hoi]
      exact own T ho hoi (hoi ▸ ht)
    · simp only [hlog _ hoi]
      exact h.ownLog T ho (by simpa only [hterm _ hoi] using ht)
  · intro q T c hv
    obtain ⟨hq, hc, hne, hcase⟩ := h.voted q T c hv
    refine ⟨hq, hc, hne, ?_⟩
    by_cases hqi : q = i
    · subst hqi
      simpa using voted T c hv
    · simpa only [hterm q hqi, Function.update_of_ne hqi] using hcase
  · intro q T c hv
    obtain ⟨a, ha, hb, hu⟩ := h.backing q T c hv
    refine ⟨a, ha, hb.ext h.wf hx, fun ho hown => ?_⟩
    simp only [hopen] at ho
    simp only [hhist]
    exact UpToDate.congr_floor hx.floor_eq (hu ho hown)
  · intro c T a ha
    obtain ⟨hc, had, hle, hT, hcamp⟩ := h.asks c T a ha
    refine ⟨hc, had.ext hx, hle, hT.trans (hx.term_mono c), ?_⟩
    by_cases hci : c = i
    · subst hci
      simpa using asks T a ha
    · rw [Function.update_of_ne hci]
      exact hcamp.frame h.wf hwf hx had (hlog c hci)
  · intro T ho
    simp only [hopen] at ho
    exact h.ledBy T ho
  · intro T c ho hv
    simp only [hopen] at ho
    exact h.relapse T c ho hv
  · intro T ho
    simp only [hopen] at ho
    exact (h.written T ho).ext hx (congrFun hhist T)

/-- A step of node `i`, the owner of the term `T` from now on, that adds to the history of `T`. -/
theorem Draft.grow (h : Draft n E G K) (hi : i < n) {G' : Ghost} {k' : Core} {T : Int}
    (hwf : G'.L.WF (majority n)) (hx : Ext G.L G'.L) (hne : ∀ U, U ≠ T → G'.L.hist U = G.L.hist U)
    (hopen : ∀ U, G'.L.opened U ↔ G.L.opened U ∨ U = T)
    (hlog : ∀ j, j ≠ i → G'.L.log j = G.L.log j) (hbase : ∀ j, j ≠ i → G'.L.base j = G.L.base j)
    (hterm : G'.L.term = G.L.term) (hvote : G'.vote = G.vote) (hasked : G'.asked = G.asked)
    (hown : ∀ U, U ≠ T → G'.owner U = G.owner U) (hownT : G'.owner T = i)
    (aligned : Aligned (G'.L.hist T)) (noConf : ∀ e ∈ G'.L.hist T, e.type ≠ .kConfChange)
    (node : NodeInv n G' i k') (hk : k'.state = .kLeader) (hiT : G.L.term i = T)
    (hlogT : G'.L.log i = G'.L.hist T) (hnone : ∀ c, G.vote i T ≠ some c) (won : Won n G' T)
    (hleft : ∀ j < n, j ≠ i → (K j).state = .kLeader → (K j).currentTerm ≠ T)
    (led : E.led i T) (relapse : G.L.opened T → G.owner T = i ∨ E.relapsed T) :
    G.Le E G' ∧ Draft n E G' (update K i k') := by
  have hfl := hx.floor_eq
  refine ⟨⟨hx, fun _ _ _ hv => hvote ▸ hv, fun _ _ _ ha => hasked ▸ ha, fun U ho => ?_⟩, ?_⟩
  · by_cases hU : U = T
    · subst hU
      rw [hownT]
      exact (relapse ho).imp_left Eq.symm
    · exact .inl (hown U hU)
  refine ⟨hwf, hfl.trans h.floor, ?_, ?_, ?_, ?_, ?_, ?_, ?_, ?_, ?_, ?_, ?_⟩
  · intro U
    by_cases hU : U = T
    · exact hU ▸ aligned
    · exact hne U hU ▸ h.aligned U
  · intro U
    by_cases hU : U = T
    · exact hU ▸ noConf
    · exact hne U hU ▸ h.noConf U
  · intro j hj
    by_cases hji : j = i
    · subst hji
      simpa using node
    · rw [Function.update_of_ne hji]
      refine (h.node j hj).frame hx (hlog j hji) (hbase j hji) (congrFun hterm j) (fun hl => ?_)
        (fun ho ho' => ?_) (fun _ hv => hvote ▸ hv)
      · have hT := hleft j hj hji hl
        exact ⟨hne _ hT, hown _ hT⟩
      · have hT : (K j).currentTerm ≠ T := by
          rintro hT
          rw [hT, hownT] at ho'
          exact hji ho'.symm
        rw [hown _ hT] at ho'
        exact ⟨((hopen _).mp ho).resolve_right hT, ho'⟩
  · intro U ho
    by_cases hU : U = T
    · subst hU
      rw [hownT, hterm]
      exact ⟨hi, hiT.ge⟩
    · rw [hown U hU, hterm]
      exact h.ownerTerm U (((hopen U).mp ho).resolve_right hU)
  · intro U ho
    by_cases hU : U = T
    · exact hU ▸ won
    · obtain ⟨A, hA, hq⟩ := h.won U (((hopen U).mp ho).resolve_right hU)
      exact ⟨A, hA, by rwa [hown U hU, hvote]⟩
  · intro U ho ht
    by_cases hU : U = T
    · subst hU
      rw [hownT, hlogT]
    · rw [hown U hU] at ht ⊢
      rw [hterm] at ht
      have hoi : G.owner U ≠ i := by
        rintro hoi
        rw [hoi] at ht
        exact hU (ht.symm.trans hiT)
      rw [hlog _ hoi, hne U hU]
      exact h.ownLog U (((hopen U).mp ho).resolve_right hU) ht
  · intro q U c hv
    rw [hvote] at hv
    rw [hterm]
    obtain ⟨hq, hc, hqc, hcase⟩ := h.voted q U c hv
    refine ⟨hq, hc, hqc, ?_⟩
    by_cases hqi : q = i
    · subst hqi
      rcases hcase with hlt | ⟨hU, -, -⟩
      · exact .inl hlt
      · rw [hU, hiT] at hv
        exact absurd hv (hnone c)
    · rwa [Function.update_of_ne hqi]
  · intro q U c hv
    rw [hvote] at hv
    rw [hasked]
    obtain ⟨a, ha, hb, hu⟩ := h.backing q U c hv
    refine ⟨a, ha, hb.ext h.wf hx, fun ho ho' => ?_⟩
    have hU : U ≠ T := by
      rintro rfl
      rw [hownT] at ho'
      exact hnone c (ho' ▸ hv)
    rw [hown U hU] at ho'
    rw [hne U hU]
    exact UpToDate.congr_floor hfl (hu (((hopen U).mp ho).resolve_right hU) ho')
  · intro c U a ha
    rw [hasked] at ha
    rw [hterm]
    obtain ⟨hc, had, hle, hT, hcamp⟩ := h.asks c U a ha
    refine ⟨hc, had.ext hx, hle, hT, ?_⟩
    by_cases hci : c = i
    · subst hci
      intro hs
      simp [hk] at hs
    · rw [Function.update_of_ne hci]
      exact hcamp.frame h.wf hwf hx had (hlog c hci)
  · intro U ho
    by_cases hU : U = T
    · subst hU
      rwa [hownT]
    · rw [hown U hU]
      exact h.ledBy U (((hopen U).mp ho).resolve_right hU)
  · intro U c ho hv
    rw [hvote] at hv
    by_cases hU : U = T
    · subst hU
      rw [hownT] at hv
      exact absurd hv (hnone c)
    · rw [hown U hU] at hv
      exact h.relapse U c (((hopen U).mp ho).resolve_right hU) hv

/-- Terms other than `T` stay written when the history of `T` grows. -/
theorem Inv.of_grow (h : Inv n E G K) {G' : Ghost} {K' : Nat → Core} {T : Int}
    (hd : Draft n E G' K') (hx : Ext G.L G'.L) (hne : ∀ U, U ≠ T → G'.L.hist U = G.L.hist U)
    (hopen : ∀ U, G'.L.opened U ↔ G.L.opened U ∨ U = T) (hT : Written n G' T) : Inv n E G' K' where
  toDraft := hd
  written U ho := by
    by_cases hU : U = T
    · exact hU ▸ hT
    · exact (h.written U (((hopen U).mp ho).resolve_right hU)).ext hx (hne U hU)

end

end ChonKV
