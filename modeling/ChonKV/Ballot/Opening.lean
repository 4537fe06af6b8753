import ChonKV.Ballot.Adopt

/-!
What a vote compares: the end of a log. A quorum whose logs end no later than the candidate's
lets the candidate open its ballot with its own log.
-/

set_option autoImplicit false
set_option linter.unusedSectionVars false

namespace Ballot
namespace Ledger

open Function (update)

variable {ν ε τ : Type*} [DecidableEq ν] [LinearOrder τ] [Stamped ε τ] {S : QuorumSystem ν}
variable {L : Ledger ν ε τ}

/-- The stamp of the last entry of `l`, and its length. -/
def lastOf (L : Ledger ν ε τ) (l : List ε) : τ × Nat := ((l.getLast?.map stamp).getD L.floor, l.length)

theorem lastOf_nil : L.lastOf [] = (L.floor, 0) := rfl

theorem lastOf_of_get {l : List ε} {e : ε} (h : l[l.length-1]? = some e) :
    L.lastOf l = (stamp e, l.length) := by
  rw [← List.getLast?_eq_getElem?] at h
  simp [lastOf, h]

/-- The comparison of a vote: a log that ends at `a` is at least as late as `l`. -/
def UpToDate (L : Ledger ν ε τ) (l : List ε) (a : τ × Nat) : Prop :=
  (L.lastOf l).1 < a.1 ∨ ((L.lastOf l).1 = a.1 ∧ l.length ≤ a.2)

/-- The last entry of a log is where its ballot wrote it, and so is what lies after the base. -/
theorem WF.last_canon (hL : L.WF S) {q : ν} {e : ε}
    (he : (L.log q)[(L.log q).length-1]? = some e) :
    L.opened (stamp e) ∧ OwnAt (stamp e) (L.hist (stamp e)) ((L.log q).length-1) ∧
      ∀ j : Nat, L.base q ≤ j → j < (L.log q).length → (L.log q)[j]? = (L.hist (stamp e))[j]? := by
  have hlen := (List.getElem?_eq_some_iff.mp he).1
  by_cases hb : L.base q ≤ (L.log q).length-1
  · obtain ⟨ho, -, hj⟩ := hL.canon q _ e hb he
    refine ⟨ho, ⟨e, ?_, rfl⟩, fun j hbj hjl => hj j hbj (by omega)⟩
    rw [← hj _ hb le_rfl, he]
  · have hbase := (hL.settled q).le_length
    rcases hL.settled q with h0 | ⟨T, p, hc, hbp, -, htk⟩
    · omega
    have hT : (L.hist T)[(L.log q).length-1]? = some e := by
      rw [← he]
      exact (getElem?_of_take htk (by omega)).symm
    obtain ⟨ho, htk'⟩ := hL.matching T _ e hT
    refine ⟨ho, ⟨e, ?_, rfl⟩, fun j hbj hjl => by omega⟩
    rw [← getElem?_of_take htk' (by omega)]
    exact hT

/-- No log ends in a ballot beyond the promise of its node. -/
theorem WF.last_le (hL : L.WF S) {q : ν} (h0 : L.floor ≤ L.term q) :
    (L.lastOf (L.log q)).1 ≤ L.term q := by
  by_cases hn : L.log q = []
  · rwa [hn, lastOf_nil]
  · have hpos : 0 < (L.log q).length := List.length_pos_iff.mpr hn
    have he : (L.log q)[(L.log q).length-1]? = some (L.log q)[(L.log q).length-1] :=
      List.getElem?_eq_getElem (by omega)
    rw [lastOf_of_get he]
    by_cases hb : L.base q ≤ (L.log q).length-1
    · exact (hL.canon q _ _ hb he).2.1
    · rcases hL.settled q with hz | ⟨T, p, hc, hbp, hT, htk⟩
      · omega
      · have hTe := (getElem?_of_take htk (by omega)).symm.trans he
        exact (hL.hist_le T _ _ hTe).trans hT

/-- A log that ends no earlier than the history of a ballot with entries of its own, and not in a
later ballot, ends in that ballot. -/
theorem WF.upToDate_own (hL : L.WF S) {T : τ} {p : Nat} {a : τ × Nat}
    (hp : OwnAt T (L.hist T) p) (hu : L.UpToDate (L.hist T) a) (ha : a.1 ≤ T) :
    a.1 = T ∧ (L.hist T).length ≤ a.2 := by
  have hlen := hp.lt
  have he : (L.hist T)[(L.hist T).length-1]? = some (L.hist T)[(L.hist T).length-1] :=
    List.getElem?_eq_getElem (by omega)
  have hstamp : stamp (L.hist T)[(L.hist T).length-1] = T :=
    le_antisymm (hL.hist_le T _ _ he) ((hL.ascending T).later hp _ _ (by omega) he)
  rw [UpToDate, lastOf_of_get he, hstamp] at hu
  rcases hu with hlt | ⟨heq, hle⟩
  · exact absurd ha (not_le.mpr hlt)
  · exact ⟨heq.symm, hle⟩

theorem WF.advert_last (hL : L.WF S) (q : ν) : L.Advert (L.lastOf (L.log q)) := by
  by_cases hn : L.log q = []
  · rw [hn]
    exact .inl lastOf_nil
  · have hpos : 0 < (L.log q).length := List.length_pos_iff.mpr hn
    have he : (L.log q)[(L.log q).length-1]? = some (L.log q)[(L.log q).length-1] :=
      List.getElem?_eq_getElem (by omega)
    obtain ⟨ho, hown, -⟩ := hL.last_canon he
    rw [lastOf_of_get he]
    have hl := hown.lt
    exact .inr ⟨ho, by simp only; omega⟩

/-- Positions below the base of a log, read from the settled prefix or from another ballot. -/
theorem WF.carries_of_parts (hL : L.WF S) {q : ν} {s U : τ} {p : Nat}
    (hs : ∀ j : Nat, L.base q ≤ j → j < (L.log q).length → (L.log q)[j]? = (L.hist s)[j]?)
    (hp : OwnAt U (L.hist U) p) (hpl : p < (L.log q).length)
    (hsU : (L.hist s).take (p+1) = (L.hist U).take (p+1)) :
    L.Carries S (L.log q) U p := by
  have hown : OwnAt U (L.hist s) p := own_of_take hsU (by omega) hp
  have hlat := (hL.ascending s).later hown
  rcases hL.settled q with h0 | ⟨T, p₀, hc, hbp, -, htk⟩
  · right
    have hall : (L.log q).take (p+1) = (L.hist U).take (p+1) := by
      rw [← hsU]
      exact take_extend (b := 0) (by simp) fun j _ hj => hs j (by omega) (by omega)
    refine ⟨hall, fun j a hj ha => hlat j a hj ?_⟩
    rw [← hs j (by omega) (List.getElem?_eq_some_iff.mp ha).1, ha]
  rcases hL.chosen_own hc hp with hb | heq
  · exact .inl hb
  right
  have hbU : (L.log q).take (min (p+1) (L.base q)) = (L.hist U).take (min (p+1) (L.base q)) :=
    (take_of_take htk (by omega)).trans (take_of_take heq (by omega))
  refine ⟨?_, fun j a hj ha => ?_⟩
  · by_cases hpb : p+1 ≤ L.base q
    · rwa [Nat.min_eq_left hpb] at hbU
    · rw [Nat.min_eq_right (by omega)] at hbU
      refine take_extend hbU fun j hbj hj => ?_
      rw [hs j hbj (by omega)]
      exact getElem?_of_take hsU hj
  · by_cases hjb : j < L.base q
    · have hT : OwnAt U (L.hist T) p := own_of_take (n := p+1) (take_of_take heq (by omega))
        (by omega) hp
      refine (hL.ascending T).later hT j a hj ?_
      rw [← ha]
      exact (getElem?_of_take htk hjb).symm
    · refine hlat j a hj ?_
      rw [← hs j (by omega) (List.getElem?_eq_some_iff.mp ha).1, ha]

/-- A log still carries whatever lies below its end. -/
theorem WF.covers_last (hL : L.WF S) (q : ν) (T : τ) :
    Covers S L (L.log q) T (L.lastOf (L.log q)) := by
  intro U p _ hp hbel
  by_cases hn : L.log q = []
  · rw [hn, lastOf_nil] at hbel
    have hf := hL.above U (hL.own_opened hp)
    rcases hbel with hlt | ⟨-, hlt⟩
    · exact absurd hf (lt_asymm hlt)
    · omega
  have hpos : 0 < (L.log q).length := List.length_pos_iff.mpr hn
  have he : (L.log q)[(L.log q).length-1]? = some (L.log q)[(L.log q).length-1] :=
    List.getElem?_eq_getElem (by omega)
  obtain ⟨ho, hown, hj⟩ := hL.last_canon he
  rw [lastOf_of_get he] at hbel
  rcases hbel with hlt | ⟨hUs, hlt⟩
  · rcases hL.safe U _ p ho hlt hp with hb | heq
    · exact .inl hb
    · -- the ballot of the last entry wrote later stamps no earlier than position `p`
      have hpl : p < (L.log q).length := by
        by_contra hc
        have hU : OwnAt U (L.hist (stamp (L.log q)[(L.log q).length-1])) p :=
          own_of_take heq (by omega) hp
        obtain ⟨a, ha, hsa⟩ := hown
        obtain ⟨b, hb, hsb⟩ := hU
        have hle := hL.ascending _ ((L.log q).length-1) p a b (by omega) ha hb
        rw [hsa, hsb] at hle
        exact absurd hlt (not_lt.mpr hle)
      exact hL.carries_of_parts hj hp hpl heq
  · simp only at hUs hlt
    subst hUs
    exact hL.carries_of_parts hj hp hlt rfl

/-- A voter whose log ends no later than `a` backs a candidate that ends at `a`. -/
theorem WF.backs (hL : L.WF S) {q : ν} {T : τ} {a : τ × Nat} (hT : T ≤ L.term q)
    (hu : L.UpToDate (L.log q) a) : Backs S L q T a := by
  refine ⟨hT, fun U p _ hp hlt => ?_⟩
  rcases hL.holds q U p hp hlt with hb | ⟨htk, hlat⟩
  · exact .inl hb
  have hlen := length_of_take htk hp.lt
  have he : (L.log q)[(L.log q).length-1]? = some (L.log q)[(L.log q).length-1] :=
    List.getElem?_eq_getElem (by omega)
  have hU := hlat _ _ (by omega) he
  right
  rw [UpToDate, lastOf_of_get he] at hu
  rcases hu with hlt' | ⟨heq, hle⟩
  · exact .inl (hU.trans_lt hlt')
  · rcases hU.eq_or_lt with hUe | hUl
    · exact .inr ⟨hUe.trans heq, by omega⟩
    · exact .inl (heq ▸ hUl)

/-- A quorum has reached ballot `T`, and the log of `c` carries all it acknowledged before. -/
def Prevails (S : QuorumSystem ν) (L : Ledger ν ε τ) (c : ν) (T : τ) : Prop :=
  ∃ A, S.IsQuorum A ∧ ∀ q ∈ A, T ≤ L.term q ∧
    ∀ U p, U < T → OwnAt U (L.hist U) p → p < L.acked q U → L.Carries S (L.log c) U p

theorem Prevails.carries {c : ν} {T U : τ} {p : Nat} (h : Prevails S L c T) (hU : U < T)
    (hp : OwnAt U (L.hist U) p) : L.Carries S (L.log c) U p := by
  obtain ⟨A, hA, hq⟩ := h
  by_cases hex : ∃ q ∈ A, p < L.acked q U
  · obtain ⟨q, hqA, hlt⟩ := hex
    exact (hq q hqA).2 U p hU hp hlt
  · left
    refine ⟨A, hA, fun q hqA => ⟨hU.trans_le (hq q hqA).1, ?_⟩⟩
    by_contra hc
    exact hex ⟨q, hqA, by omega⟩

theorem Backs.carries {q c : ν} {T : τ} {a : τ × Nat} (hb : Backs S L q T a)
    (hc : Covers S L (L.log c) T a) :
    T ≤ L.term q ∧
      ∀ U p, U < T → OwnAt U (L.hist U) p → p < L.acked q U → L.Carries S (L.log c) U p := by
  refine ⟨hb.1, fun U p hU hp hlt => ?_⟩
  rcases hb.2 U p hU hp hlt with hbl | hbel
  · exact .inl hbl
  · exact hc U p hU hp hbel

/-- A candidate that prevails has a log in which every entry is as its own ballot wrote it, even
before the base, and in which stamps never decrease. -/
theorem Prevails.matching (hL : L.WF S) {c : ν} {T : τ} (h : Prevails S L c T)
    (hcT : L.term c = T) (hown : ∀ p, ¬ OwnAt T (L.hist T) p) :
    Ascending (L.log c) ∧ ∀ (p : Nat) (e : ε), (L.log c)[p]? = some e →
      stamp e ≤ T ∧ L.opened (stamp e) ∧
        (L.log c).take (p+1) = (L.hist (stamp e)).take (p+1) := by
  have hcanon := hL.canon c
  rw [hcT] at hcanon
  have hset := hL.settled c
  rw [hcT] at hset
  rcases hset with h0 | ⟨U, p₀, hc, hle, hUT, -⟩
  · rw [h0] at hcanon
    refine ⟨fun i j a b hij ha hb => ?_, fun p e he => ?_⟩
    · obtain ⟨-, -, hj⟩ := hcanon j b (by omega) hb
      have hlt := (List.getElem?_eq_some_iff.mp hb).1
      exact hL.ascending (stamp b) i j a b hij (hj i (by omega) hij ▸ ha)
        (hj j (by omega) le_rfl ▸ hb)
    · obtain ⟨ho, hst, hj⟩ := hcanon p e (by omega) he
      exact ⟨hst, ho, take_extend (b := 0) (by simp) fun j _ hjp => hj j (by omega) (by omega)⟩
  have hlt : U < T := lt_of_le_of_ne hUT fun heq => hown p₀ (heq ▸ hc.2.1)
  -- the log has all that the settling ballot wrote, and only later stamps after it
  obtain ⟨htk, hlat⟩ : (L.log c).take (p₀+1) = (L.hist U).take (p₀+1) ∧
      LaterFrom U (L.log c) p₀ := by
    rcases h.carries hlt hc.2.1 with hbl | hok
    · exact absurd hbl hc.not_blocked
    · exact hok
  have hmatch : ∀ (p : Nat) (e : ε), (L.log c)[p]? = some e →
      stamp e ≤ T ∧ L.opened (stamp e) ∧
        (L.log c).take (p+1) = (L.hist (stamp e)).take (p+1) := by
    intro p e he
    by_cases hp : p < p₀+1
    · have hU : (L.hist U)[p]? = some e := (getElem?_of_take htk hp).symm.trans he
      obtain ⟨ho, hm⟩ := hL.matching U p e hU
      exact ⟨(hL.hist_le U p e hU).trans hlt.le, ho, (take_of_take htk (by omega)).trans hm⟩
    · obtain ⟨ho, hst, hj⟩ := hcanon p e (by omega) he
      have hUe : U ≤ stamp e := hlat p e (by omega) he
      refine ⟨hst, ho, take_extend (b := p₀+1) ?_ fun j hbj hjp => hj j (by omega) (by omega)⟩
      rw [htk, hL.chosen_agree hc ho hUe]
  refine ⟨fun i j a b hij ha hb => ?_, hmatch⟩
  obtain ⟨-, ho, hm⟩ := hmatch j b hb
  exact hL.ascending (stamp b) i j a b hij ((getElem?_of_take hm (by omega)).symm.trans ha)
    ((getElem?_of_take hm (by omega)).symm.trans hb)

/-- Node `c` opens ballot `T`, or opens it again, with its own log. -/
def openBallot (L : Ledger ν ε τ) (c : ν) (T : τ) : Ledger ν ε τ :=
  { L with
    opened := fun U => L.opened U ∨ U = T
    hist := update L.hist T (L.log c)
    acked := update L.acked c (update (L.acked c) T (L.log c).length) }

theorem ext_openBallot (hL : L.WF S) {c : ν} {T : τ} (hcT : L.term c = T)
    (hpre : L.hist T <+: L.log c) : Ext L (L.openBallot c T) where
  floor_eq := rfl
  opened_mono _ h := .inl h
  hist_mono U := by
    by_cases hU : U = T
    · subst hU
      simpa [openBallot] using hpre
    · simp [openBallot, hU]
  term_mono _ := le_rfl
  acked_mono q U := by
    by_cases hq : q = c
    · subst hq
      by_cases hU : U = T
      · subst hU
        have hle := (hL.acked_le q U).trans hpre.length_le
        simpa [openBallot] using hle
      · simp [openBallot, hU]
    · simp [openBallot, hq]
  acked_frozen q U hU := by
    by_cases hq : q = c
    · subst hq
      have hne : U ≠ T := by
        rintro rfl
        rw [hcT] at hU
        exact lt_irrefl _ hU
      simp [openBallot, hne]
    · simp [openBallot, hq]
  kept_mono _ := le_rfl

theorem WF.openBallot (hL : L.WF S) {c : ν} {T : τ} (hf : L.floor < T) (hcT : L.term c = T)
    (h : Prevails S L c T) (hpre : L.hist T <+: L.log c)
    (hown : ∀ p, ¬ OwnAt T (L.hist T) p) : (L.openBallot c T).WF S := by
  have hx := ext_openBallot hL hcT hpre
  obtain ⟨hasc, hmatch⟩ := h.matching hL hcT hown
  have hself : (L.openBallot c T).hist T = L.log c := by simp [Ledger.openBallot]
  have hne : ∀ U, U ≠ T → (L.openBallot c T).hist U = L.hist U := by
    intro U hU
    simp [Ledger.openBallot, hU]
  -- no entry of ballot `T` exists yet
  have hnone : ∀ p, ¬ OwnAt T (L.log c) p := by
    rintro p ⟨e, he, hs⟩
    obtain ⟨-, -, hm⟩ := hmatch p e he
    refine hown p ⟨e, ?_, hs⟩
    rw [← hs, ← getElem?_of_take hm (by omega)]
    exact he
  have hnone' : ∀ p, ¬ OwnAt T ((L.openBallot c T).hist T) p := by
    rwa [hself]
  have hlow : ∀ U p, U < T → OwnAt U (L.hist U) p →
      (L.openBallot c T).Blocked S U p ∨
        ((L.openBallot c T).hist T).take (p+1) = ((L.openBallot c T).hist U).take (p+1) := by
    intro U p hU hp
    rcases h.carries hU hp with hb | ⟨htk, -⟩
    · exact .inl (hb.ext hx)
    · exact .inr (by rw [hself, hne U hU.ne, htk])
  refine hL.of_ext hx ?_ ?_ ?_ ?_ ?_ ?_ ?_ ?_ ?_ ?_ ?_ ?_ ?_ ?_ ?_ ?_
  · rintro U (ho | rfl)
    · exact hL.above U ho
    · exact hf
  · intro U hU
    have hUT : U ≠ T := fun heq => hU (.inr heq)
    rw [hne U hUT]
    exact hL.unopened U fun ho => hU (.inl ho)
  · intro U p e he
    by_cases hU : U = T
    · subst hU
      exact (hmatch p e (hself ▸ he)).1
    · exact hL.hist_le U p e (hne U hU ▸ he)
  · intro U
    by_cases hU : U = T
    · subst hU
      rw [hself]
      exact hasc
    · rw [hne U hU]
      exact hL.ascending U
  · intro U p e he
    by_cases hU : U = T
    · subst hU
      rw [hself] at he
      obtain ⟨-, ho, hm⟩ := hmatch p e he
      have hse : stamp e ≠ U := fun heq => hnone p ⟨e, he, heq⟩
      exact ⟨.inl ho, by rw [hself, hne _ hse, hm]⟩
    · rw [hne U hU] at he
      obtain ⟨ho, hm⟩ := hL.matching U p e he
      refine ⟨.inl ho, ?_⟩
      have hl := (List.getElem?_eq_some_iff.mp he).1
      have hl' := length_of_take hm.symm (by omega)
      rw [hx.hist_take (by omega), hx.hist_take (by omega), hm]
  · rintro U (ho | rfl)
    · exact hL.backed U ho
    · obtain ⟨A, hA, hq⟩ := h
      exact ⟨A, hA, fun q hqA => (hq q hqA).1⟩
  · intro q U
    by_cases hq : q = c ∧ U = T
    · obtain ⟨rfl, rfl⟩ := hq
      simp [Ledger.openBallot]
    · have hack : (L.openBallot c T).acked q U = L.acked q U := by
        by_cases hqc : q = c
        · subst hqc
          have hU : U ≠ T := fun heq => hq ⟨rfl, heq⟩
          simp [Ledger.openBallot, hU]
        · simp [Ledger.openBallot, hqc]
      rw [hack]
      exact (hL.acked_le q U).trans (hx.hist_length U)
  · intro q U hpos
    by_cases hq : q = c
    · subst hq
      by_cases hU : U = T
      · subst hU
        exact hcT.ge
      · exact hL.acked_term q U (by simpa [Ledger.openBallot, hU] using hpos)
    · exact hL.acked_term q U (by simpa [Ledger.openBallot, hq] using hpos)
  · rintro U U' p (ho | rfl) hn hlt hp
    · exact absurd ho hn
    · exact hlow U p hlt hp
  · intro U U' p ho hlt hp hlen
    by_cases hU' : U' = T
    · subst hU'
      exact hlow U p hlt hp
    · rcases hL.safe U U' p ho hlt hp with hb | heq
      · exact .inl (hb.ext hx)
      · have hl := length_of_take heq hp.lt
        omega
  · rintro U U' p (ho | rfl) hn hlt hlen hp
    · exact absurd ho hn
    · rw [hne U hlt.ne] at hp
      have hl := hp.lt
      omega
  · intro q U p hp hlt
    by_cases hU : U = T
    · subst hU
      exact absurd hp (hnone' p)
    · rw [hne U hU] at hp
      have hlt' : p < L.acked q U := by
        by_cases hq : q = c
        · subst hq
          simpa [Ledger.openBallot, hU] using hlt
        · simpa [Ledger.openBallot, hq] using hlt
      exact (hL.holds q U p hp hlt').ext hx hp.lt
  · intro q
    exact (hL.canon q).ext hx le_rfl
  · intro q
    exact (hL.settled q).ext hx
  · intro q
    exact (hL.keeps q).ext hx
  · intro q
    by_cases hq : q = c
    · subst hq
      rw [show (L.openBallot q T).term q = T from hcT, hself]
      rfl
    · have hack : (L.openBallot c T).acked q (L.term q) = L.acked q (L.term q) := by
        simp [Ledger.openBallot, hq]
      rw [show (L.openBallot c T).term = L.term from rfl, hack, hx.hist_take (hL.acked_le q _)]
      exact hL.retains q

/-- Node `q` holds the first `m` positions of ballot `T`, or answers for them as settled. -/
def Acks (S : QuorumSystem ν) (L : Ledger ν ε τ) (q : ν) (T : τ) (m : Nat) : Prop :=
  m ≤ L.acked q T ∨ (m ≤ L.kept q ∧ ∃ U p, L.Chosen S U p ∧ m ≤ p+1 ∧ U ≤ T)

theorem Acks.ext {L' : Ledger ν ε τ} {q : ν} {T : τ} {m : Nat} (h : Acks S L q T m)
    (hx : Ext L L') : Acks S L' q T m := by
  rcases h with hle | ⟨hk, U, p, hc, hm, hU⟩
  · exact .inl (hle.trans (hx.acked_mono q T))
  · exact .inr ⟨hk.trans (hx.kept_mono q), U, p, hc.ext hx, hm, hU⟩

theorem Acks.mono {q : ν} {T : τ} {m k : Nat} (h : Acks S L q T m) (hk : k ≤ m) :
    Acks S L q T k := by
  rcases h with hle | ⟨hkept, U, p, hc, hm, hU⟩
  · exact .inl (hk.trans hle)
  · exact .inr ⟨hk.trans hkept, U, p, hc, hk.trans hm, hU⟩

/-- A node that keeps a settled prefix acknowledges it. -/
theorem Settled.acks_keep {l : List ε} {m : Nat} {T : τ} (h : L.Settled S l m T) (q : ν) :
    Acks S (L.keep q m) q T m := by
  rcases h with rfl | ⟨U, p, hc, hm, hU, -⟩
  · exact .inl (Nat.zero_le _)
  · exact .inr ⟨le_kept_keep q m, U, p, hc.ext (ext_keep q m), hm, hU⟩

/-- An acknowledgement ends inside its ballot. -/
theorem Acks.le_hist {q : ν} {T : τ} {m : Nat} (h : Acks S L q T m) (hL : L.WF S)
    (ho : L.opened T) : m ≤ (L.hist T).length := by
  rcases h with hle | ⟨-, U, p, hc, hm, hU⟩
  · exact hle.trans (hL.acked_le q T)
  · exact hm.trans (length_of_take (hL.chosen_agree hc ho hU) hc.lt)

/-- While a node is in a ballot, it has what it acknowledged there. -/
theorem Acks.take_eq {q : ν} {T : τ} {m : Nat} (h : Acks S L q T m) (hL : L.WF S)
    (ho : L.opened T) (hq : L.term q = T) : (L.log q).take m = (L.hist T).take m := by
  subst hq
  rcases h with hle | ⟨hk, -⟩
  · exact take_of_take (hL.retains q) hle
  · exact take_of_take (hL.settled_hist (hL.keeps q) ho) hk

/-- A node whose log is the history of its ballot acknowledges all of it. -/
theorem WF.retake (hL : L.WF S) {q : ν} {T : τ} (ho : L.opened T) (hq : L.term q = T)
    (hlog : L.log q = L.hist T) :
    ∃ L', Ext L L' ∧ L'.WF S ∧ L'.opened = L.opened ∧ L'.hist = L.hist ∧ L'.term = L.term ∧
      L'.log = L.log ∧ L'.base = L.base ∧ Acks S L' q T (L.hist T).length := by
  by_cases hb : L.base q < (L.hist T).length
  · refine ⟨L.adopt q T (L.log q) (L.hist T).length, ext_adopt hq _ _,
      hL.adopt ho hq le_rfl hb (by rw [hlog]) (.inl rfl), rfl, rfl, rfl, ?_, rfl, .inl ?_⟩
    · simp [Ledger.adopt]
    · simp [Ledger.adopt]
  · have hset : L.Settled S (L.log q) (L.hist T).length (L.term q) :=
      (hL.settled q).mono (by omega) le_rfl
    exact ⟨L.keep q (L.hist T).length, ext_keep q _, hL.keep hset, rfl, rfl, rfl, rfl, rfl,
      (hset.mono le_rfl hq.le).acks_keep q⟩

/-- What a quorum acknowledges in ballot `T`, up to an entry of that ballot, is settled. -/
theorem WF.settled_of_acks (hL : L.WF S) {A : Set ν} {T : τ} {n : Nat} (hA : S.IsQuorum A)
    (hack : ∀ q ∈ A, Acks S L q T (n+1)) (hown : OwnAt T (L.hist T) n) :
    L.Settled S (L.hist T) (n+1) T := by
  have ho := hL.own_opened hown
  by_cases hall : ∀ q ∈ A, n+1 ≤ L.acked q T
  · exact .inr ⟨T, n, ⟨ho, hown, A, hA, hall⟩, le_rfl, le_rfl, rfl⟩
  · push Not at hall
    obtain ⟨q, hq, hlt⟩ := hall
    rcases hack q hq with hle | ⟨-, U, p, hc, hle, hU⟩
    · omega
    · exact .inr ⟨U, p, hc, hle, hU, take_of_take (hL.chosen_agree hc ho hU) hle⟩

end Ledger
end Ballot
