import ChonKV.Ballot.Preserve

/-!
A node takes over what the writer of its ballot wrote, or the settled prefix of another log.
-/

set_option autoImplicit false
set_option linter.unusedSectionVars false

namespace Ballot
namespace Ledger

open Function (update)

variable {ν ε τ : Type*} [DecidableEq ν] [LinearOrder τ] [Stamped ε τ] {S : QuorumSystem ν}
variable {L : Ledger ν ε τ}

theorem Ascending.take {l : List ε} (h : Ascending l) (n : Nat) : Ascending (l.take n) := by
  intro i j a b hij ha hb
  rw [List.getElem?_take] at ha hb
  split at ha
  · split at hb
    · exact h i j a b hij ha hb
    · cases hb
  · cases ha

theorem own_of_take {T : τ} {l m : List ε} {p n : Nat} (h : l.take n = m.take n) (hp : p < n)
    (ho : OwnAt T m p) : OwnAt T l p := by
  obtain ⟨e, he, hs⟩ := ho
  exact ⟨e, (getElem?_of_take h hp).trans he, hs⟩

/-- Node `q` has the log `l` and acknowledges the first `m` positions of ballot `T`. -/
def adopt (L : Ledger ν ε τ) (q : ν) (T : τ) (l : List ε) (m : Nat) : Ledger ν ε τ :=
  { L with
    acked := update L.acked q (update (L.acked q) T (max (L.acked q T) m))
    log := update L.log q l }

theorem ext_adopt {q : ν} {T : τ} (hq : L.term q = T) (l : List ε) (m : Nat) :
    Ext L (L.adopt q T l m) where
  floor_eq := rfl
  opened_mono _ h := h
  hist_mono _ := List.prefix_rfl
  term_mono _ := le_rfl
  acked_mono r U := by
    by_cases hr : r = q
    · subst hr
      by_cases hU : U = T
      · subst hU
        simp [adopt]
      · simp [adopt, hU]
    · simp [adopt, hr]
  acked_frozen r U hU := by
    by_cases hr : r = q
    · subst hr
      have hne : U ≠ T := by
        rintro rfl
        rw [hq] at hU
        exact lt_irrefl _ hU
      simp [adopt, hne]
    · simp [adopt, hr]
  kept_mono _ := le_rfl

/-- What a node holds after the positions it just compared is at least as late. -/
theorem WF.later_adopted (hL : L.WF S) {q : ν} {T : τ} {m p : Nat}
    (htk : (L.log q).take m = (L.hist T).take m) (hb : L.base q < m)
    (hm : m ≤ (L.hist T).length) (hp : OwnAt T (L.hist T) p) (hpm : p < m) :
    LaterFrom T (L.log q) p := by
  have hlat := (hL.ascending T).later hp
  intro j a hj ha
  by_cases hjm : j < m
  · exact hlat j a hj ((getElem?_of_take htk hjm).symm.trans ha)
  · obtain ⟨-, -, hjs⟩ := hL.canon q j a (by omega) ha
    have hlast := hjs (m-1) (by omega) (by omega)
    rw [getElem?_of_take htk (by omega)] at hlast
    have hmem : (L.hist T)[m-1]? = some (L.hist T)[m-1] := List.getElem?_eq_getElem (by omega)
    have hle := hlat (m-1) _ (by omega) hmem
    refine hle.trans (hL.ascending (stamp a) (m-1) j _ a (by omega) (hlast ▸ hmem) ?_)
    rw [← hjs j (by omega) le_rfl, ha]

theorem WF.adopt (hL : L.WF S) {q : ν} {T : τ} {l : List ε} {m : Nat} (ho : L.opened T)
    (hq : L.term q = T) (hm : m ≤ (L.hist T).length) (hb : L.base q < m)
    (htk : l.take m = (L.hist T).take m)
    (hl : l = L.log q ∨ (l = (L.hist T).take m ∧ (L.log q).take m ≠ (L.hist T).take m)) :
    (L.adopt q T l m).WF S := by
  have h := ext_adopt (L := L) hq l m
  have hlogq : (L.adopt q T l m).log q = l := by simp [Ledger.adopt]
  have hlogn : ∀ r, r ≠ q → (L.adopt q T l m).log r = L.log r := by
    intro r hr
    simp [Ledger.adopt, hr]
  have hackn : ∀ r U, r ≠ q ∨ U ≠ T → (L.adopt q T l m).acked r U = L.acked r U := by
    intro r U hr
    by_cases hrq : r = q
    · subst hrq
      rcases hr with hr | hr
      · exact absurd rfl hr
      · simp [Ledger.adopt, hr]
    · simp [Ledger.adopt, hrq]
  have hackq : (L.adopt q T l m).acked q T = max (L.acked q T) m := by simp [Ledger.adopt]
  -- a log cut back to the ballot keeps whatever it shared with the ballot
  have hcut : ∀ U p, OwnAt U (L.hist U) p → (L.log q).take (p+1) = (L.hist U).take (p+1) →
      LaterFrom U (L.log q) p → (L.hist T).take (p+1) = (L.hist U).take (p+1) →
      L.Carries S l U p := by
    intro U p hp hold hlat heq
    rcases hl with rfl | ⟨rfl, hne⟩
    · exact .inr ⟨hold, hlat⟩
    · have hpm : p+1 ≤ m := by
        by_contra hc
        exact hne (take_of_take (hold.trans heq.symm) (by omega))
      refine .inr ⟨by rw [List.take_take, Nat.min_eq_left hpm, heq], ?_⟩
      have hown : OwnAt U ((L.hist T).take m) p :=
        own_of_take (n := p+1) (by rw [List.take_take, Nat.min_eq_left hpm, heq]) (by omega) hp
      exact (Ascending.take (hL.ascending T) m).later hown
  -- what is settled of its log is a part of the ballot
  have hkeep : ∀ d, L.Settled S (L.log q) d T → (L.adopt q T l m).Settled S l d T := by
    intro d hs
    refine (hs.ext h).congr ?_
    rcases hl with rfl | ⟨rfl, hne⟩
    · rfl
    · have hH := hL.settled_hist hs ho
      have hdm : d ≤ m := by
        by_contra hgt
        exact hne (take_of_take hH (by omega))
      rw [hH, List.take_take, Nat.min_eq_left hdm]
  refine hL.of_ext h hL.above hL.unopened hL.hist_le hL.ascending hL.matching hL.backed ?_ ?_
    (fun T T' p ho hn => absurd ho hn) ?_ (fun T T' p ho hn => absurd ho hn) ?_ ?_ ?_ ?_ ?_
  · intro r U
    by_cases hr : r ≠ q ∨ U ≠ T
    · rw [hackn r U hr]
      exact hL.acked_le r U
    · obtain ⟨rfl, rfl⟩ : r = q ∧ U = T := by simpa using hr
      rw [hackq]
      exact max_le (hL.acked_le r U) hm
  · intro r U hr
    by_cases hrq : r ≠ q ∨ U ≠ T
    · rw [hackn r U hrq] at hr
      exact hL.acked_term r U hr
    · obtain ⟨rfl, rfl⟩ : r = q ∧ U = T := by simpa using hrq
      exact hq.ge
  · intro U U' p ho' hlt hp _
    rcases hL.safe U U' p ho' hlt hp with hbl | heq
    · exact .inl (hbl.ext h)
    · exact .inr heq
  · intro r U p hp hlt
    have hp' : OwnAt U (L.hist U) p := hp
    by_cases hr : r = q
    · subst hr
      rw [hlogq]
      by_cases hU : U = T
      · subst hU
        by_cases hpm : p < m
        · refine .inr ⟨take_of_take htk (by omega), ?_⟩
          rcases hl with rfl | ⟨rfl, -⟩
          · exact hL.later_adopted htk hb hm hp' hpm
          · exact (Ascending.take (hL.ascending U) m).later (own_of_take htk hpm hp')
        · have hlt' : p < L.acked r U := by
            rw [hackq] at hlt
            omega
          rcases hL.holds r U p hp' hlt' with hbl | ⟨hold, hlat⟩
          · exact .inl (hbl.ext h)
          · exact (hcut U p hp' hold hlat rfl).ext h hp'.lt
      · rw [hackn r U (.inr hU)] at hlt
        rcases hL.holds r U p hp' hlt with hbl | ⟨hold, hlat⟩
        · exact .inl (hbl.ext h)
        · have hlU : U < T := lt_of_le_of_ne (hq ▸ hL.acked_term r U (by omega)) hU
          rcases hL.safe U T p ho hlU hp' with hbl | heq
          · exact .inl (hbl.ext h)
          · exact (hcut U p hp' hold hlat heq).ext h hp'.lt
    · rw [hackn r U (.inl hr)] at hlt
      rw [hlogn r hr]
      exact (hL.holds r U p hp' hlt).ext h hp'.lt
  · intro r
    by_cases hr : r = q
    · subst hr
      rw [hlogq]
      rcases hl with rfl | ⟨rfl, -⟩
      · exact (hL.canon r).ext h le_rfl
      · intro p e _ he
        rw [List.getElem?_take] at he
        split at he
        · obtain ⟨hoe, hte⟩ := hL.matching T p e he
          refine ⟨hoe, (hL.hist_le T p e he).trans hq.ge, fun j _ hjp => ?_⟩
          rw [List.getElem?_take, if_pos (by omega)]
          exact getElem?_of_take hte (by omega)
        · cases he
    · rw [hlogn r hr]
      exact (hL.canon r).ext h le_rfl
  · intro r
    by_cases hr : r = q
    · subst hr
      have hs := hL.settled r
      rw [hq] at hs
      rw [hlogq, show (L.adopt r T l m).term r = T from hq]
      exact hkeep _ hs
    · rw [hlogn r hr]
      exact (hL.settled r).ext h
  · intro r
    by_cases hr : r = q
    · subst hr
      have hs := hL.keeps r
      rw [hq] at hs
      rw [hlogq, show (L.adopt r T l m).term r = T from hq]
      exact hkeep _ hs
    · rw [hlogn r hr]
      exact (hL.keeps r).ext h
  · intro r
    by_cases hr : r = q
    · subst hr
      rw [hlogq, show (L.adopt r T l m).term r = T from hq, hackq]
      show l.take (max (L.acked r T) m) = (L.hist T).take (max (L.acked r T) m)
      rcases le_total (L.acked r T) m with hle | hle
      · rwa [max_eq_right hle]
      · have hold := hL.retains r
        rw [hq] at hold
        rw [max_eq_left hle]
        rcases hl with rfl | ⟨-, hne⟩
        · exact hold
        · exact absurd (take_of_take hold hle) hne
    · rw [hlogn r hr, show (L.adopt q T l m).term = L.term from rfl, hackn r _ (.inl hr)]
      exact hL.retains r

/-- Node `q` answers for the first `m` positions, which are settled. -/
def keep (L : Ledger ν ε τ) (q : ν) (m : Nat) : Ledger ν ε τ :=
  { L with kept := update L.kept q (max (L.kept q) m) }

theorem le_kept_keep (q : ν) (m : Nat) : m ≤ (L.keep q m).kept q := by
  simp [keep]

theorem ext_keep (q : ν) (m : Nat) : Ext L (L.keep q m) :=
  ⟨rfl, fun _ h => h, fun _ => List.prefix_rfl, fun _ => le_rfl, fun _ _ => le_rfl,
    fun _ _ _ => rfl, fun r => by
      by_cases hr : r = q
      · subst hr
        simp [keep]
      · simp [keep, hr]⟩

theorem WF.keep (hL : L.WF S) {q : ν} {m : Nat} (hm : L.Settled S (L.log q) m (L.term q)) :
    (L.keep q m).WF S where
  above := hL.above
  unopened := hL.unopened
  hist_le := hL.hist_le
  ascending := hL.ascending
  matching := hL.matching
  backed := hL.backed
  acked_le := hL.acked_le
  acked_term := hL.acked_term
  safe := hL.safe
  holds := hL.holds
  canon := hL.canon
  settled := hL.settled
  keeps r := by
    by_cases hr : r = q
    · subst hr
      have hk : (L.keep r m).kept r = max (L.kept r) m := by simp [Ledger.keep]
      rw [hk]
      rcases le_total (L.kept r) m with hle | hle
      · rw [max_eq_right hle]
        exact hm
      · rw [max_eq_left hle]
        exact hL.keeps r
    · have hk : (L.keep q m).kept r = L.kept r := by simp [Ledger.keep, hr]
      rw [hk]
      exact hL.keeps r
  retains := hL.retains

/-- The first `n` entries of `m`, then `l` from position `n` on. -/
def splice (m : List ε) (n : Nat) (l : List ε) : List ε := m.take n ++ l.drop n

theorem splice_take {m l : List ε} {n k : Nat} (hm : n ≤ m.length) (hk : k ≤ n) :
    (splice m n l).take k = m.take k := by
  rw [splice, List.take_append_of_le_length (by simp; omega), List.take_take,
    Nat.min_eq_left hk]

theorem splice_get {m l : List ε} {n j : Nat} (hm : n ≤ m.length) (hj : n ≤ j) :
    (splice m n l)[j]? = l[j]? := by
  rw [splice, List.getElem?_append_right (by simp; omega), List.getElem?_drop]
  congr 1
  simp only [List.length_take, Nat.min_eq_left hm]
  omega

theorem splice_self {m l : List ε} {n : Nat} (h : m.take n = l.take n) : splice m n l = l := by
  rw [splice, h, List.take_append_drop]

/-- The first `n` entries of `m` are put before a list that has `k` entries in common with `h`, as `m`
has `n`. -/
theorem splice_agree {l m h : List ε} {n k : Nat} (hm : n ≤ m.length) (hn : m.take n = h.take n)
    (hk : l.take k = h.take k) : (splice m n l).take k = h.take k := by
  rcases le_total k n with hle | hle
  · rw [splice_take hm hle, take_of_take hn hle]
  · rw [splice_self (hn.trans (take_of_take hk hle).symm), hk]

/-- A settled prefix in the place of another leaves what was settled already. -/
theorem WF.splice_settled (hL : L.WF S) {l m : List ε} {n k : Nat} {t u : τ}
    (hm : L.Settled S m n t) (hk : L.Settled S l k u) : (splice m n l).take k = l.take k := by
  have hag := hL.settled_agree hm hk
  rcases le_total k n with hle | hle
  · rw [Nat.min_eq_right hle] at hag
    rw [splice_take hm.le_length hle, hag]
  · rw [Nat.min_eq_left hle] at hag
    rw [splice_self hag]

/-- Replacing a prefix by a settled one loses nothing that may still be chosen. -/
theorem WF.carries_splice (hL : L.WF S) {l m : List ε} {n p : Nat} {t U : τ}
    (hm : L.Settled S m n t) (hp : OwnAt U (L.hist U) p) (hc : L.Carries S l U p) :
    L.Carries S (splice m n l) U p := by
  have hlen := hm.le_length
  rcases hm with rfl | ⟨T, p₀, hch, hn, -, hmT⟩
  · simpa [splice] using hc
  rcases hc with hb | ⟨htk, hlat⟩
  · exact .inl hb
  rcases hL.chosen_own hch hp with hb | heq
  · exact .inl hb
  right
  by_cases hpn : p+1 ≤ n
  · have hmU : m.take (p+1) = (L.hist U).take (p+1) :=
      (take_of_take hmT hpn).trans (take_of_take heq (by omega))
    refine ⟨by rw [splice_take hlen hpn, hmU], fun j a hj ha => ?_⟩
    by_cases hjn : j < n
    · have hj' : (L.hist T)[j]? = some a := by
        rw [← ha, ← getElem?_of_take hmT hjn]
        exact (getElem?_of_take (splice_take hlen le_rfl) hjn).symm
      have hown : OwnAt U (L.hist T) p := own_of_take (n := p+1)
        ((take_of_take heq (by omega))) (by omega) hp
      exact (hL.ascending T).later hown j a hj hj'
    · rw [splice_get hlen (by omega)] at ha
      exact hlat j a hj ha
  · have hself : splice m n l = l := by
      refine splice_self (hmT.trans ?_)
      exact (take_of_take heq (by omega)).trans (take_of_take htk (by omega)).symm
    rw [hself]
    exact ⟨htk, hlat⟩

/-- The log of `q` is replaced and its first `b` entries are no longer held one by one. -/
def rebase (L : Ledger ν ε τ) (q : ν) (l : List ε) (b : Nat) : Ledger ν ε τ :=
  { L with
    log := update L.log q l
    base := update L.base q b }

theorem ext_rebase (q : ν) (l : List ε) (b : Nat) : Ext L (L.rebase q l b) :=
  ⟨rfl, fun _ h => h, fun _ => List.prefix_rfl, fun _ => le_rfl, fun _ _ => le_rfl,
    fun _ _ _ => rfl, fun _ => le_rfl⟩

theorem WF.rebase (hL : L.WF S) {q : ν} {m : List ε} {n : Nat}
    (hm : L.Settled S m n (L.term q)) (hb : L.base q ≤ n) :
    (L.rebase q (splice m n (L.log q)) n).WF S := by
  have h := ext_rebase (L := L) q (splice m n (L.log q)) n
  have hlen := hm.le_length
  have hlogq : (L.rebase q (splice m n (L.log q)) n).log q = splice m n (L.log q) := by
    simp [Ledger.rebase]
  have hlogn : ∀ r, r ≠ q → (L.rebase q (splice m n (L.log q)) n).log r = L.log r := by
    intro r hr
    simp [Ledger.rebase, hr]
  refine hL.of_ext h hL.above hL.unopened hL.hist_le hL.ascending hL.matching hL.backed
    hL.acked_le hL.acked_term (fun T T' p ho hn => absurd ho hn) ?_
    (fun T T' p ho hn => absurd ho hn) ?_ ?_ ?_ ?_ ?_
  · intro U U' p ho' hlt hp _
    rcases hL.safe U U' p ho' hlt hp with hbl | heq
    · exact .inl (hbl.ext h)
    · exact .inr heq
  · intro r U p hp hlt
    by_cases hr : r = q
    · subst hr
      rw [hlogq]
      exact (hL.carries_splice hm hp (hL.holds r U p hp hlt)).ext h hp.lt
    · rw [hlogn r hr]
      exact (hL.holds r U p hp hlt).ext h hp.lt
  · intro r
    by_cases hr : r = q
    · subst hr
      have hbase : (L.rebase r (splice m n (L.log r)) n).base r = n := by simp [Ledger.rebase]
      rw [hlogq, hbase]
      intro p e hnp he
      rw [splice_get hlen hnp] at he
      obtain ⟨ho, hst, hj⟩ := hL.canon r p e (by omega) he
      refine ⟨ho, hst, fun j hbj hjp => ?_⟩
      rw [splice_get hlen hbj]
      exact hj j (by omega) hjp
    · have hbase : (L.rebase q (splice m n (L.log q)) n).base r = L.base r := by
        simp [Ledger.rebase, hr]
      rw [hlogn r hr, hbase]
      exact (hL.canon r).ext h le_rfl
  · intro r
    by_cases hr : r = q
    · subst hr
      have hbase : (L.rebase r (splice m n (L.log r)) n).base r = n := by simp [Ledger.rebase]
      rw [hlogq, hbase]
      exact (hm.ext h).congr (splice_take hlen le_rfl).symm
    · have hbase : (L.rebase q (splice m n (L.log q)) n).base r = L.base r := by
        simp [Ledger.rebase, hr]
      rw [hlogn r hr, hbase]
      exact (hL.settled r).ext h
  · intro r
    by_cases hr : r = q
    · subst hr
      rw [hlogq]
      refine ((hL.keeps r).ext h).congr ?_
      exact (hL.splice_settled hm (hL.keeps r)).symm
    · rw [hlogn r hr]
      exact (hL.keeps r).ext h
  · intro r
    by_cases hr : r = q
    · subst hr
      rw [hlogq]
      have hold := hL.retains r
      by_cases h0 : L.acked r (L.term r) = 0
      · rw [show (L.rebase r (splice m n (L.log r)) n).acked = L.acked from rfl,
          show (L.rebase r (splice m n (L.log r)) n).term = L.term from rfl, h0, List.take_zero,
          List.take_zero]
      · have ho : L.opened (L.term r) := by
          by_contra hn
          have hle := hL.acked_le r (L.term r)
          rw [hL.unopened _ hn] at hle
          exact h0 (Nat.le_zero.mp hle)
        exact splice_agree hlen (hL.settled_hist hm ho) hold
    · rw [hlogn r hr]
      exact hL.retains r

end Ledger
end Ballot
