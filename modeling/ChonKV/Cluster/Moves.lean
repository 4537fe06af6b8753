import ChonKV.Cluster.Ghost

/-!
What a node can do to the abstract state: leave its role, stand, announce itself, vote, count a
vote, take office, append, merge, replace a prefix. Each keeps the invariant.
-/

set_option autoImplicit false

namespace ChonKV

open Ballot Ballot.Ledger
open Function (update)

section
variable {n : Nat} {E : Record} {G : Ghost} {K : Nat → Core} {i : Nat}

namespace Inv

/-- Node `i` leaves its role, in its own term or in a later one, or crashes. -/
theorem stepDown (h : Inv n E G K) (hi : i < n) {k' : Core}
    (hT : (K i).currentTerm ≤ k'.currentTerm) (hs : k'.state = .kFollower)
    (hv : (K i).state = .kFollower → k'.currentTerm = (K i).currentTerm →
      k'.votedFor = (K i).votedFor)
    (hlogs : k'.logs = (K i).logs) (hsi : k'.snapshotIndex = (K i).snapshotIndex)
    (hst : k'.snapshotTerm = (K i).snapshotTerm)
    (ha : k'.snapshotIndex ≤ k'.lastApplied ∧ k'.lastApplied ≤ k'.commitIndex)
    (hc : k'.commitIndex ≤ (K i).commitIndex) : Moves n E G K i k' fun _ => True := by
  have node := h.node i hi
  have hterm : G.L.term i ≤ k'.currentTerm := node.term.le.trans hT
  have hx := ext_raise hterm
  have hself : (G.L.raise i k'.currentTerm).term i = k'.currentTerm := by simp [raise]
  refine h.local (h.wf.raise hterm) hx rfl rfl
    (fun _ _ => rfl) (fun _ _ => rfl) (fun j hj => by simp [raise, hj]) ?_ ?_ ?_ ?_ trivial
  · obtain ⟨c, hcc, hset⟩ := node.commit
    refine ⟨?_, hself, node.nonneg.trans hT, ⟨k'.commitIndex.toNat, ?_, ?_⟩, ha, ?_, ?_, ?_⟩
    · rw [hlogs, hsi, hst]
      exact node.shows
    · have hb := node.shows.index
      omega
    · exact (hset.ext hx).mono (by omega) (by simpa [raise] using hterm)
    · simp [hs]
    · simp [hs]
    · simp [hs]
  · intro T ho hown ht
    by_cases hq : G.L.term i = T
    · have hl := h.ownLog T ho (by rwa [hown])
      rwa [hown] at hl
    · have hle := (h.ownerTerm T ho).2
      rw [hown] at hle
      have := ht ▸ hself
      omega
  · intro T c hvote
    rw [hself]
    rcases (h.voted i T c hvote).2.2.2 with hlt | ⟨rfl, hvf, hf⟩
    · exact .inl (hlt.trans_le hterm)
    · rcases hterm.eq_or_lt with heq | hlt
      · exact .inr ⟨heq, (hv hf (heq ▸ node.term)).trans hvf, hs⟩
      · exact .inl hlt
  · intro T a _ hcand
    simp [hs] at hcand

/-- Node `i` stands for the next term. -/
theorem stand (h : Inv n E G K) (hi : i < n) {k' : Core}
    (hT : k'.currentTerm = (K i).currentTerm + 1) (hs : k'.state = .kCandidate)
    (hv : k'.votedFor = i) (hg : ∀ s, k'.voteGranted.getD s 0 = 1 → s = i)
    (hlogs : k'.logs = (K i).logs) (hsi : k'.snapshotIndex = (K i).snapshotIndex)
    (hst : k'.snapshotTerm = (K i).snapshotTerm) (ha : k'.lastApplied = (K i).lastApplied)
    (hc : k'.commitIndex = (K i).commitIndex) : Moves n E G K i k' fun _ => True := by
  have node := h.node i hi
  have hlt : G.L.term i < k'.currentTerm := by
    rw [node.term]
    omega
  have hx := ext_raise hlt.le
  have hself : (G.L.raise i k'.currentTerm).term i = k'.currentTerm := by simp [raise]
  refine h.local (h.wf.raise hlt.le) hx rfl rfl
    (fun _ _ => rfl) (fun _ _ => rfl) (fun j hj => by simp [raise, hj]) ?_ ?_ ?_ ?_ trivial
  · obtain ⟨c, hcc, hset⟩ := node.commit
    refine ⟨?_, hself, node.nonneg.trans (by omega), ⟨c, hc.trans hcc, ?_⟩, ?_,
      fun _ => ⟨hv, by have := node.nonneg; omega⟩, ?_, ?_⟩
    · rw [hlogs, hsi, hst]
      exact node.shows
    · exact (hset.ext hx).mono le_rfl (by simpa [raise] using hlt.le)
    · rw [hsi, ha, hc]
      exact node.applied
    · simp [hs]
    · refine fun _ => ⟨fun ho hown => ?_, fun s hv => .inl (hg s hv), fun hlast => ?_⟩
      · have hle := (h.ownerTerm _ ho).2
        rw [show G.owner k'.currentTerm = i from hown] at hle
        omega
      · -- a log ends in no term that its node has not reached
        have hle := h.wf.last_le (q := i) (by rw [h.floor, node.term]; exact node.nonneg)
        rw [lastOf_congr hx.floor_eq] at hlast
        have heq : (G.L.lastOf (G.L.log i)).1 = k'.currentTerm := hlast
        omega
  · intro T ho hown ht
    have hle := (h.ownerTerm T ho).2
    rw [hown] at hle
    have := ht ▸ hself
    omega
  · intro T c hvote
    rw [hself]
    rcases (h.voted i T c hvote).2.2.2 with hlt' | ⟨rfl, -, -⟩
    · exact .inl (hlt'.trans hlt)
    · exact .inl hlt
  · intro T a hask _ heq
    have hle := (h.asks i T a hask).2.2.2.1
    omega

/-- A step of node `i` that leaves its term, its role, its vote and its log as they are. -/
theorem keep (h : Inv n E G K) (hi : i < n) {x : Core}
    (hT : x.currentTerm = (K i).currentTerm) (hs : x.state = (K i).state)
    (hv : x.votedFor = (K i).votedFor) (hlogs : x.logs = (K i).logs)
    (hsi : x.snapshotIndex = (K i).snapshotIndex) (hst : x.snapshotTerm = (K i).snapshotTerm)
    (ha : x.snapshotIndex ≤ x.lastApplied ∧ x.lastApplied ≤ x.commitIndex)
    (hc : ∃ c : Nat, x.commitIndex = c ∧ G.L.Settled (majority n) (G.L.log i) c (G.L.term i))
    (hl : x.state = .kLeader → Leads n G i x)
    (hg : x.state = .kCandidate → ∀ s, x.voteGranted.getD s 0 = 1 →
      s = i ∨ G.vote s x.currentTerm = some i) : Moves n E G K i x fun _ => True := by
  have node := h.node i hi
  refine h.local h.wf (Ext.refl G.L) rfl rfl
    (fun _ _ => rfl) (fun _ _ => rfl) (fun _ _ => rfl) ?_ ?_ ?_ ?_ trivial
  · refine ⟨?_, node.term.trans hT.symm, hT ▸ node.nonneg, hc, ha, ?_, hl, fun hcand => ?_⟩
    · rw [hlogs, hsi, hst]
      exact node.shows
    · rw [hs, hv, hT]
      exact node.votes
    · have hst := node.stands (hs ▸ hcand)
      exact ⟨hT ▸ hst.fresh, hg hcand, hT ▸ hst.last⟩
  · intro T ho hown ht
    have hlog := h.ownLog T ho (by rwa [hown])
    rwa [hown] at hlog
  · intro T c hvote
    rw [hs, hv]
    exact (h.voted i T c hvote).2.2.2
  · intro T a hask hcand heq
    exact (h.asks i T a hask).2.2.2.2 (hs ▸ hcand) (hT ▸ heq)

/-- A candidate announces the end of its log. -/
theorem ask (h : Inv n E G K) (hi : i < n) (hs : (K i).state = .kCandidate) :
    ∃ G', G.Le E G' ∧ Inv n E G' K ∧
      G'.asked i (K i).currentTerm (G.L.lastOf (G.L.log i)) := by
  have node := h.node i hi
  have stands := node.stands hs
  let G' : Ghost := { G with
    asked := fun c T a => G.asked c T a ∨
      (c = i ∧ T = (K i).currentTerm ∧ a = G.L.lastOf (G.L.log i)) }
  have hmono : ∀ c T a, G.asked c T a → G'.asked c T a := fun _ _ _ ha => .inl ha
  refine ⟨G', ⟨Ext.refl G.L, fun _ _ _ hv => hv, hmono, fun _ _ => .inl rfl⟩, ?_,
    .inr ⟨rfl, rfl, rfl⟩⟩
  refine ⟨⟨h.wf, h.floor, h.aligned, h.noConf, fun j hj => ?_, h.ownerTerm, h.won, h.ownLog,
    h.voted, fun q T c hv => ?_, ?_, h.ledBy, h.relapse⟩, h.written⟩
  · exact (h.node j hj).frame (Ext.refl G.L) rfl rfl rfl (fun _ => ⟨rfl, rfl⟩)
      (fun ho hown => ⟨ho, hown⟩) (fun _ hv => hv)
  · obtain ⟨a, ha, hb, hu⟩ := h.backing q T c hv
    exact ⟨a, .inl ha, hb, hu⟩
  · rintro c T a (ha | ⟨rfl, rfl, rfl⟩)
    · exact h.asks c T a ha
    · have hle := h.wf.last_le (q := c) (by rw [h.floor, node.term]; exact node.nonneg)
      refine ⟨hi, h.wf.advert_last c, node.term ▸ hle, node.term.ge, fun _ _ => ?_⟩
      exact ⟨h.wf.covers_last c _, fun hlast => ⟨le_rfl, stands.last hlast⟩⟩

/-- Node `i` votes for `c`. -/
theorem grant (h : Inv n E G K) (hi : i < n) {x : Core} {c : Nat} {a : Int × Nat}
    (hs : (K i).state = .kFollower) (hv : (K i).votedFor = -1 ∨ (K i).votedFor = c) (hc : c ≠ i)
    (hask : G.asked c (K i).currentTerm a) (hu : G.L.UpToDate (G.L.log i) a)
    (hr : E.led i (K i).currentTerm → E.relapsed (K i).currentTerm)
    (hk : x = { K i with votedFor := c }) :
    Moves n E G K i x fun G' => G'.vote i (K i).currentTerm = some c := by
  have node := h.node i hi
  let T := (K i).currentTerm
  let G' : Ghost := { G with vote := update G.vote i (update (G.vote i) T (some c)) }
  have hself : G'.vote i T = some c := by simp [G']
  have hcase : ∀ q U, (q = i ∧ U = T) ∨ G'.vote q U = G.vote q U := by
    intro q U
    by_cases hq : q = i
    · subst hq
      by_cases hU : U = T
      · exact .inl ⟨rfl, hU⟩
      · exact .inr (by simp [G', hU])
    · exact .inr (by simp [G', hq])
  have hmono : ∀ q U d, G.vote q U = some d → G'.vote q U = some d := by
    intro q U d hd
    rcases hcase q U with ⟨rfl, rfl⟩ | heq
    · have hdc : d = c := by
        rcases (h.voted q T d hd).2.2.2 with hlt | ⟨-, hvd, -⟩
        · exact absurd hlt (by rw [node.term]; exact lt_irrefl _)
        · omega
      rw [hself, hdc]
    · rwa [heq]
  have hx := Ext.refl G.L
  have hT : T = G.L.term i := node.term.symm
  refine ⟨G', ⟨hx, hmono, fun _ _ _ ha => ha, fun _ _ => .inl rfl⟩, ?_, hself⟩
  refine ⟨⟨h.wf, h.floor, h.aligned, h.noConf, ?_, h.ownerTerm, ?_, h.ownLog, ?_, ?_, ?_, h.ledBy,
    ?_⟩, h.written⟩
  · intro j hj
    by_cases hji : j = i
    · subst hji
      obtain ⟨shows, term, nonneg, commit, applied, -, -, -⟩ := node
      rw [Function.update_self, hk]
      exact ⟨shows, term, nonneg, commit, applied, fun hne => absurd hs hne,
        fun hl => by simp [hs] at hl, fun hl => by simp [hs] at hl⟩
    · rw [Function.update_of_ne hji]
      exact (h.node j hj).frame hx rfl rfl rfl (fun _ => ⟨rfl, rfl⟩) (fun ho hown => ⟨ho, hown⟩)
        (fun s hvs => hmono s _ j hvs)
  · intro U ho
    obtain ⟨A, hA, hq⟩ := h.won U ho
    exact ⟨A, hA, fun q hqA => (hq q hqA).imp_right (hmono q U _)⟩
  · intro q U d hd
    rcases hcase q U with ⟨rfl, rfl⟩ | heq
    · rw [hself] at hd
      cases hd
      refine ⟨hi, (h.asks c T a hask).1, hc.symm, .inr ⟨hT, ?_, ?_⟩⟩
      · simp [hk]
      · simp [hk, hs]
    · rw [heq] at hd
      obtain ⟨hq, hdn, hne, hlast⟩ := h.voted q U d hd
      refine ⟨hq, hdn, hne, ?_⟩
      by_cases hqi : q = i
      · subst hqi
        rcases hlast with hlt | ⟨hU, -, -⟩
        · exact .inl hlt
        · rw [show U = T from hU.trans hT.symm] at hd heq
          rw [hself, hd] at heq
          cases heq
          refine .inr ⟨hU, ?_, ?_⟩ <;> simp [hk, hs]
      · rwa [Function.update_of_ne hqi]
  · intro q U d hd
    rcases hcase q U with ⟨rfl, rfl⟩ | heq
    · rw [hself] at hd
      cases hd
      refine ⟨a, hask, h.wf.backs hT.le hu, fun ho hown => ?_⟩
      have hlog := h.ownLog T ho (by rw [show G.owner T = q from hown, ← hT])
      rw [show G.owner T = q from hown] at hlog
      rwa [← hlog]
    · rw [heq] at hd
      exact h.backing q U d hd
  · intro d U b hb
    obtain ⟨hd, had, hle, hU, hcamp⟩ := h.asks d U b hb
    refine ⟨hd, had, hle, hU, ?_⟩
    by_cases hdi : d = i
    · subst hdi
      intro hcand
      simp [hk, hs] at hcand
    · rw [Function.update_of_ne hdi]
      exact hcamp.frame h.wf h.wf hx had rfl
  · intro U d ho hd
    rcases hcase (G.owner U) U with ⟨hown, rfl⟩ | heq
    · have hled := h.ledBy T ho
      rw [show G.owner T = i from hown] at hled
      exact hr hled
    · exact h.relapse U d ho (heq ▸ hd)

section Office
variable (h : Inv n E G K) (hi : i < n) (hs : (K i).state = .kCandidate)
  (hq : (majority n).IsQuorum {s | (K i).voteGranted.getD s 0 = 1})
include h hi hs hq

/-- The owner of a term voted for whoever takes the term over. -/
theorem ousted (ho : G.L.opened (K i).currentTerm) :
    G.vote (G.owner (K i).currentTerm) (K i).currentTerm = some i := by
  have node := h.node i hi
  obtain ⟨B, hB, hwon⟩ := h.won _ ho
  obtain ⟨q, hqA, hqB⟩ := (majority n).meet hq hB
  have hfresh := (node.stands hs).fresh ho
  have hno : ∀ c, G.vote i (K i).currentTerm ≠ some c := by
    intro c hc
    rcases (h.voted i _ c hc).2.2.2 with hlt | ⟨-, -, hf⟩
    · exact absurd hlt (by rw [node.term]; exact lt_irrefl _)
    · simp [hs] at hf
  rcases (node.stands hs).granted q hqA with rfl | hvi
  · rcases hwon q hqB with heq | hv
    · exact absurd heq.symm hfresh
    · exact absurd hv (hno _)
  · rcases hwon q hqB with heq | hv
    · rwa [← heq]
    · rw [hvi] at hv
      exact absurd (Option.some.inj hv).symm hfresh

theorem prevails : Prevails (majority n) G.L i (K i).currentTerm := by
  have node := h.node i hi
  refine ⟨_, hq, fun q hqA => ?_⟩
  rcases (node.stands hs).granted q hqA with rfl | hv
  · exact ⟨node.term.ge, fun U p _ hp hlt => h.wf.holds q U p hp hlt⟩
  · obtain ⟨a, hask, hb, -⟩ := h.backing q _ i hv
    exact hb.carries ((h.asks i _ a hask).2.2.2.2 hs rfl).1

/-- Where the term already has entries of its own, the candidate has them all. -/
theorem log_of_own {p : Nat}
    (hp : OwnAt (K i).currentTerm (G.L.hist (K i).currentTerm) p) :
    G.L.log i = G.L.hist (K i).currentTerm := by
  have ho := h.wf.own_opened hp
  obtain ⟨a, hask, -, hu⟩ := h.backing _ _ i (h.ousted hi hs hq ho)
  obtain ⟨-, -, hle, -, hcamp⟩ := h.asks i _ a hask
  obtain ⟨ha, hlen⟩ := h.wf.upToDate_own hp (hu ho rfl) hle
  obtain ⟨hal, -, htail⟩ := (hcamp hs rfl).2 ha
  rw [htail, List.take_of_length_le (by omega)]

/-- Otherwise what the term has was settled before it. -/
theorem hist_prefix (hown : ∀ p, ¬ OwnAt (K i).currentTerm (G.L.hist (K i).currentTerm) p) :
    G.L.hist (K i).currentTerm <+: G.L.log i := by
  by_cases ho : G.L.opened (K i).currentTerm
  · rcases h.written _ ho with ⟨p, hp⟩ | ⟨t, ht, hset⟩
    · exact absurd hp (hown p)
    rcases hset with h0 | ⟨U, p, hc, hle, hU, heq⟩
    · rw [List.length_eq_zero_iff.mp h0]
      exact List.nil_prefix
    · rcases (h.prevails hi hs hq).carries (hU.trans_lt ht) hc.2.1 with hb | ⟨htk, -⟩
      · exact absurd hb hc.not_blocked
      · rw [List.take_length] at heq
        rw [heq, ← take_of_take htk hle]
        exact List.take_prefix _ _
  · rw [h.wf.unopened _ ho]
    exact List.nil_prefix

theorem seize : ∃ L', Ext G.L L' ∧ L'.WF (majority n) ∧
    (∀ U, L'.opened U ↔ G.L.opened U ∨ U = (K i).currentTerm) ∧
    (∀ U, U ≠ (K i).currentTerm → L'.hist U = G.L.hist U) ∧
    L'.hist (K i).currentTerm = G.L.log i ∧ L'.term = G.L.term ∧ L'.log = G.L.log ∧
    L'.base = G.L.base ∧ Acks (majority n) L' i (K i).currentTerm (G.L.log i).length := by
  have node := h.node i hi
  by_cases hex : ∃ p, OwnAt (K i).currentTerm (G.L.hist (K i).currentTerm) p
  · obtain ⟨p, hp⟩ := hex
    have hlog := h.log_of_own hi hs hq hp
    have ho := h.wf.own_opened hp
    obtain ⟨L', hx, hwf, hopen, hhist, hterm, hl, hb, hack⟩ := h.wf.retake ho node.term hlog
    refine ⟨L', hx, hwf, fun U => ?_, fun U _ => by rw [hhist], by rw [hhist, hlog], hterm, hl, hb,
      by rwa [hlog]⟩
    rw [hopen]
    exact ⟨.inl, fun hU => hU.elim id fun heq => heq ▸ ho⟩
  · push Not at hex
    have hpre := h.hist_prefix hi hs hq hex
    have hf : G.L.floor < (K i).currentTerm := by
      rw [h.floor]
      exact (node.votes (by simp [hs])).2
    refine ⟨G.L.openBallot i (K i).currentTerm, ext_openBallot h.wf node.term hpre,
      h.wf.openBallot hf node.term (h.prevails hi hs hq) hpre hex, fun U => Iff.rfl,
      fun U hU => by simp [openBallot, hU], by simp [openBallot], rfl, rfl, rfl, .inl ?_⟩
    simp [openBallot]

/-- Node `i` leads its term, with the log it has. -/
theorem office (led : E.led i (K i).currentTerm) :
    ∃ G', G.Le E G' ∧
      Draft n E G' (update K i { K i with state := .kLeader, nextIndex := [], matchIndex := [] }) ∧
      (∀ U, U ≠ (K i).currentTerm → G'.L.hist U = G.L.hist U) ∧
      (∀ U, G'.L.opened U ↔ G.L.opened U ∨ U = (K i).currentTerm) ∧
      G'.L.hist (K i).currentTerm = G.L.log i ∧ G'.L.log = G.L.log := by
  have node := h.node i hi
  obtain ⟨L', hx, hwf, hopen, hne, hT, hterm, hlog, hbase, hack⟩ := h.seize hi hs hq
  have hout := h.ousted hi hs hq
  have haligned : Aligned (L'.hist (K i).currentTerm) := hT ▸ node.shows.aligned
  have hnoConf : ∀ e ∈ L'.hist (K i).currentTerm, e.type ≠ .kConfChange := by
    rw [hT]
    intro e he
    obtain ⟨p, hp⟩ := List.mem_iff_getElem?.mp he
    by_cases hown : ∃ p, OwnAt (K i).currentTerm (G.L.hist (K i).currentTerm) p
    · obtain ⟨p, hp⟩ := hown
      rw [h.log_of_own hi hs hq hp] at he
      exact h.noConf _ e he
    · push Not at hown
      obtain ⟨-, hm⟩ := (h.prevails hi hs hq).matching h.wf node.term hown
      have hstamp := getElem?_of_take (hm p e hp).2.2 (Nat.lt_succ_self p)
      exact h.noConf _ e (List.mem_iff_getElem?.mpr ⟨p, hstamp ▸ hp⟩)
  have hnone : ∀ c, G.vote i (K i).currentTerm ≠ some c := by
    intro c hc
    rcases (h.voted i _ c hc).2.2.2 with hlt | ⟨-, -, hf⟩
    · exact absurd hlt (by rw [node.term]; exact lt_irrefl _)
    · simp [hs] at hf
  let G' : Ghost := { G with L := L', owner := update G.owner (K i).currentTerm i }
  have hself : G'.owner (K i).currentTerm = i := by simp [G']
  have hnode : NodeInv n G' i { K i with state := .kLeader, nextIndex := [], matchIndex := [] } := by
    obtain ⟨shows, term, nonneg, ⟨c, hc, hset⟩, applied, votes, -, -⟩ := node
    refine ⟨?_, ?_, nonneg, ⟨c, hc, ?_⟩, applied, fun _ => votes (by simp [hs]), fun _ => ?_, ?_⟩
    · simpa only [G', hlog, hbase] using shows
    · simpa only [G', hterm] using term
    · simpa only [G', hlog, hterm] using hset.ext hx
    · refine ⟨(hopen _).mpr (.inr rfl), hself, ?_, ?_, fun s => ⟨0, rfl, ?_⟩, fun s => ?_⟩
      · simp only [G', hlog, hT]
      · simpa only [G', hT] using hack
      · exact .inl (Nat.zero_le _)
      · simp
        omega
    · simp
  have hwon : Won n G' (K i).currentTerm := by
    refine ⟨_, hq, fun q hqA => ?_⟩
    rw [hself]
    exact (node.stands hs).granted q hqA
  have hleft : ∀ j < n, j ≠ i → (K j).state = .kLeader → (K j).currentTerm ≠ (K i).currentTerm := by
    intro j hj hji hl hjT
    have hleads := (h.node j hj).leads hl
    have ho := hleads.opened
    have hown := hleads.owner
    rw [hjT] at ho hown
    have hv := hout ho
    rw [hown] at hv
    rcases (h.voted j _ i hv).2.2.2 with hlt | ⟨-, -, hf⟩
    · rw [(h.node j hj).term, hjT] at hlt
      exact lt_irrefl _ hlt
    · simp [hl] at hf
  have hgrow : G.Le E G' ∧ Draft n E G' (update K i _) := h.toDraft.grow hi hwf hx hne hopen (fun j _ => congrFun hlog j)
    (fun j _ => congrFun hbase j) hterm rfl rfl (fun U hU => by simp [G', hU]) hself
    haligned hnoConf hnode rfl node.term (by rw [hlog]; exact hT.symm) hnone hwon hleft led
    fun ho => .inr (h.relapse _ i ho (hout ho))
  exact ⟨G', hgrow.1, hgrow.2, hne, hopen, hT, hlog⟩

end Office

/-- The new leader of a term whose log is settled to its end needs no entry of its own. -/
theorem elect (h : Inv n E G K) (hi : i < n) (hs : (K i).state = .kCandidate)
    (hq : (majority n).IsQuorum {s | (K i).voteGranted.getD s 0 = 1})
    (led : E.led i (K i).currentTerm) (hc : lastIndexOf (K i).logs ≤ (K i).commitIndex) :
    Moves n E G K i { K i with state := .kLeader, nextIndex := [], matchIndex := [] }
      fun _ => True := by
  have node := h.node i hi
  obtain ⟨G', hle, hd, hne, hopen, hT, hlog⟩ := h.office hi hs hq led
  refine ⟨G', hle, h.of_grow hd hle.ext hne hopen ?_, trivial⟩
  by_cases hex : ∃ p, OwnAt (K i).currentTerm (G.L.hist (K i).currentTerm) p
  · obtain ⟨p, hp⟩ := hex
    exact .inl ⟨p, hle.ext.own hp⟩
  · right
    push Not at hex
    obtain ⟨c, hcc, hset⟩ := node.commit
    have hlast := node.shows.lastIndexOf_eq
    have hlen := hset.le_length
    have hcl : c = (G.L.log i).length := by omega
    rw [hcl] at hset
    rw [hT]
    rcases hset with h0 | ⟨U, p, hch, hle', hU, htk⟩
    · exact ⟨(K i).currentTerm - 1, by omega, .inl h0⟩
    · refine ⟨U, lt_of_le_of_ne (node.term ▸ hU) fun heq => hex p (heq ▸ hch.2.1), ?_⟩
      exact Settled.ext (.inr ⟨U, p, hch, hle', le_rfl, htk⟩) hle.ext

end Inv

/-- A leader appends an entry of its term. -/
theorem Draft.append (h : Draft n E G K) (hi : i < n) (hs : (K i).state = .kLeader) {e : LogEntry}
    (ht : e.term = (K i).currentTerm) (hx : e.index = lastIndexOf (K i).logs + 1)
    (hty : e.type ≠ .kConfChange) :
    ∃ G', G.Le E G' ∧ Draft n E G' (update K i { K i with logs := (K i).logs ++ [e] }) ∧
      (∀ U, U ≠ (K i).currentTerm → G'.L.hist U = G.L.hist U) ∧
      (∀ U, G'.L.opened U ↔ G.L.opened U ∨ U = (K i).currentTerm) ∧
      G'.L.hist (K i).currentTerm = G.L.hist (K i).currentTerm ++ [e] := by
  have node := h.node i hi
  have leads := node.leads hs
  have hlast := node.shows.lastIndexOf_eq
  have hext := ext_append h.wf node.term e
  have hidx : e.index = (G.L.log i).length + 1 := by rw [hx, hlast]
  let G' : Ghost := { G with L := G.L.append i (K i).currentTerm e }
  have hself : G'.L.hist (K i).currentTerm = G.L.hist (K i).currentTerm ++ [e] :=
    hist_append_self i _ e
  have hlogi : G'.L.log i = G.L.log i ++ [e] := by simp [G', Ledger.append]
  have hopen : ∀ U, G'.L.opened U ↔ G.L.opened U ∨ U = (K i).currentTerm :=
    fun U => ⟨.inl, fun hU => hU.elim id fun heq => heq ▸ leads.opened⟩
  have hshows : Shows (K i).snapshotIndex (K i).snapshotTerm ((K i).logs ++ [e]) (G'.L.log i)
      (G'.L.base i) := by
    rw [hlogi]
    exact node.shows.push hidx
  have haligned : Aligned (G'.L.hist (K i).currentTerm) := by
    rw [hself, ← leads.log, ← hlogi]
    exact hshows.aligned
  have hnoConf : ∀ a ∈ G'.L.hist (K i).currentTerm, a.type ≠ .kConfChange := by
    rw [hself]
    intro a ha
    rcases List.mem_append.mp ha with ha | ha
    · exact h.noConf _ a ha
    · rw [List.mem_singleton.mp ha]
      exact hty
  have hnode : NodeInv n G' i { K i with logs := (K i).logs ++ [e] } := by
    obtain ⟨c, hc, hset⟩ := node.commit
    refine ⟨hshows, node.term, node.nonneg, ⟨c, hc, ?_⟩, node.applied, node.votes, fun _ => ?_,
      fun hl => by simp [hs] at hl⟩
    · refine (hset.ext hext).congr ?_
      rw [hlogi, List.take_append_of_le_length hset.le_length]
    · refine ⟨leads.opened, leads.owner, ?_, ?_, fun s => ?_, fun s => ?_⟩
      · rw [hself, hlogi, leads.log]
      · simp only [hself]
        exact .inl (by simp [G', Ledger.append])
      · obtain ⟨m, hm, ha⟩ := leads.matched s
        exact ⟨m, hm, ha.ext hext⟩
      · have hnx := leads.next s
        simp only [hself, List.length_append, List.length_singleton]
        push_cast
        omega
  have hnone : ∀ c, G.vote i (K i).currentTerm ≠ some c := by
    intro c hc
    rcases (h.voted i _ c hc).2.2.2 with hlt | ⟨-, -, hf⟩
    · exact absurd hlt (by rw [node.term]; exact lt_irrefl _)
    · simp [hs] at hf
  have hleft : ∀ j < n, j ≠ i → (K j).state = .kLeader → (K j).currentTerm ≠ (K i).currentTerm := by
    intro j hj hji hl hjT
    have hown := ((h.node j hj).leads hl).owner
    rw [hjT, leads.owner] at hown
    exact hji hown.symm
  have hgrow : G.Le E G' ∧ Draft n E G' (update K i _) := h.grow hi
    (h.wf.append leads.opened node.term leads.log ht) hext (fun U hU => hist_append_ne hU) hopen
    (fun j hj => by simp [G', Ledger.append, hj]) (fun _ _ => rfl) rfl rfl rfl (fun _ _ => rfl)
    leads.owner haligned hnoConf hnode hs node.term (by rw [hself, hlogi, leads.log]) hnone
    (h.won _ leads.opened) hleft (by have hl := h.ledBy _ leads.opened; rwa [leads.owner] at hl)
    fun _ => .inl leads.owner
  exact ⟨G', hgrow.1, hgrow.2, fun U hU => hist_append_ne hU, hopen, hself⟩

namespace Inv

theorem append (h : Inv n E G K) (hi : i < n) (hs : (K i).state = .kLeader) {e : LogEntry}
    (ht : e.term = (K i).currentTerm) (hx : e.index = lastIndexOf (K i).logs + 1)
    (hty : e.type ≠ .kConfChange) :
    Moves n E G K i { K i with logs := (K i).logs ++ [e] } fun G' =>
      G'.L.hist (K i).currentTerm = G.L.hist (K i).currentTerm ++ [e] := by
  obtain ⟨G', hle, hd, hne, hopen, hself⟩ := h.toDraft.append hi hs ht hx hty
  refine ⟨G', hle, h.of_grow hd hle.ext hne hopen (.inl ⟨(G.L.hist (K i).currentTerm).length, ?_⟩), hself⟩
  rw [hself, ← ht]
  exact own_concat _ e

/-- The new leader of a term appends its first entry at once. -/
theorem electWith (h : Inv n E G K) (hi : i < n) (hs : (K i).state = .kCandidate)
    (hq : (majority n).IsQuorum {s | (K i).voteGranted.getD s 0 = 1})
    (led : E.led i (K i).currentTerm) {e : LogEntry}
    (ht : e.term = (K i).currentTerm) (hx : e.index = lastIndexOf (K i).logs + 1)
    (hty : e.type ≠ .kConfChange) :
    Moves n E G K i { K i with
      state := .kLeader, nextIndex := [], matchIndex := [], logs := (K i).logs ++ [e] }
      fun _ => True := by
  obtain ⟨G₁, hle, hd, hne, hopen, hT, hlog⟩ := h.office hi hs hq led
  obtain ⟨G₂, hle', hd', hne', hopen', hT'⟩ := hd.append (e := e) hi (by simp) (by simpa using ht)
    (by simpa using hx) hty
  simp only [Function.update_self, Function.update_idem] at hd' hne' hopen' hT'
  refine ⟨G₂, hle.trans hle', h.of_grow hd' (hle.ext.trans hle'.ext)
    (fun U hU => (hne' U hU).trans (hne U hU)) (fun U => ?_)
    (.inl ⟨(G₁.L.hist (K i).currentTerm).length, ?_⟩), trivial⟩
  · rw [hopen', hopen]
    tauto
  · rw [hT', ← ht]
    exact own_concat _ e

end Inv
end

end ChonKV
