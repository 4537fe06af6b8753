import ChonKV.Ballot.Ledger

/-!
The moves of a ledger: a node raises its promise, the writer of a ballot appends, a node adopts
what a ballot wrote, a node replaces a settled prefix. Each keeps the invariant of ledgers, and
every fact that messages in flight rely on survives all of them.
-/

set_option autoImplicit false
set_option linter.unusedSectionVars false

namespace Ballot
namespace Ledger

variable {ν ε τ : Type*} [LinearOrder τ] [Stamped ε τ] {S : QuorumSystem ν} {L L' : Ledger ν ε τ}

/-- `L'` is a later ledger than `L`. -/
structure Ext (L L' : Ledger ν ε τ) : Prop where
  floor_eq : L'.floor = L.floor
  opened_mono : ∀ T, L.opened T → L'.opened T
  hist_mono : ∀ T, L.hist T <+: L'.hist T
  term_mono : ∀ q, L.term q ≤ L'.term q
  acked_mono : ∀ q T, L.acked q T ≤ L'.acked q T
  acked_frozen : ∀ q T, T < L.term q → L'.acked q T = L.acked q T
  kept_mono : ∀ q, L.kept q ≤ L'.kept q

theorem Ext.refl (L : Ledger ν ε τ) : Ext L L :=
  ⟨rfl, fun _ h => h, fun _ => List.prefix_rfl, fun _ => le_rfl, fun _ _ => le_rfl,
    fun _ _ _ => rfl, fun _ => le_rfl⟩

theorem Ext.trans {M : Ledger ν ε τ} (h : Ext L L') (h' : Ext L' M) : Ext L M where
  floor_eq := h'.floor_eq.trans h.floor_eq
  opened_mono T ho := h'.opened_mono T (h.opened_mono T ho)
  hist_mono T := (h.hist_mono T).trans (h'.hist_mono T)
  term_mono q := (h.term_mono q).trans (h'.term_mono q)
  acked_mono q T := (h.acked_mono q T).trans (h'.acked_mono q T)
  acked_frozen q T hT := (h'.acked_frozen q T (hT.trans_le (h.term_mono q))).trans
    (h.acked_frozen q T hT)
  kept_mono q := (h.kept_mono q).trans (h'.kept_mono q)

theorem getElem?_of_prefix {l m : List ε} {p : Nat} (h : l <+: m) (hp : p < l.length) :
    m[p]? = l[p]? := by
  obtain ⟨t, rfl⟩ := h
  rw [List.getElem?_append_left hp]

theorem take_of_prefix {l m : List ε} {n : Nat} (h : l <+: m) (hn : n ≤ l.length) :
    m.take n = l.take n := by
  obtain ⟨t, rfl⟩ := h
  rw [List.take_append_of_le_length hn]

theorem Ext.hist_length (h : Ext L L') (T : τ) : (L.hist T).length ≤ (L'.hist T).length :=
  (h.hist_mono T).length_le

theorem Ext.hist_take (h : Ext L L') {T : τ} {n : Nat} (hn : n ≤ (L.hist T).length) :
    (L'.hist T).take n = (L.hist T).take n :=
  take_of_prefix (h.hist_mono T) hn

theorem Ext.hist_get (h : Ext L L') {T : τ} {p : Nat} (hp : p < (L.hist T).length) :
    (L'.hist T)[p]? = (L.hist T)[p]? :=
  getElem?_of_prefix (h.hist_mono T) hp

theorem Ext.own (h : Ext L L') {T : τ} {p : Nat} (hp : OwnAt T (L.hist T) p) :
    OwnAt T (L'.hist T) p := by
  obtain ⟨e, he, hs⟩ := hp
  have hl := (List.getElem?_eq_some_iff.mp he).1
  exact ⟨e, (h.hist_get hl).trans he, hs⟩

theorem Ext.own_old (h : Ext L L') {T : τ} {p : Nat} (hp : OwnAt T (L'.hist T) p)
    (hl : p < (L.hist T).length) : OwnAt T (L.hist T) p := by
  obtain ⟨e, he, hs⟩ := hp
  exact ⟨e, (h.hist_get hl).symm.trans he, hs⟩

theorem Blocked.ext {T : τ} {p : Nat} (hb : L.Blocked S T p) (h : Ext L L') : L'.Blocked S T p := by
  obtain ⟨A, hA, hq⟩ := hb
  refine ⟨A, hA, fun q hqA => ?_⟩
  obtain ⟨hlt, hle⟩ := hq q hqA
  exact ⟨hlt.trans_le (h.term_mono q), (h.acked_frozen q T hlt).trans_le hle⟩

theorem Chosen.ext {T : τ} {p : Nat} (hc : L.Chosen S T p) (h : Ext L L') : L'.Chosen S T p := by
  obtain ⟨ho, hp, A, hA, hq⟩ := hc
  exact ⟨h.opened_mono T ho, h.own hp, A, hA, fun q hqA => (hq q hqA).trans_le (h.acked_mono q T)⟩

theorem Settled.ext {l : List ε} {c : Nat} {t : τ} (hs : L.Settled S l c t) (h : Ext L L') :
    L'.Settled S l c t := by
  rcases hs with rfl | ⟨T, p, hc, hcp, hT, heq⟩
  · exact .inl rfl
  · have hl := hc.lt
    exact .inr ⟨T, p, hc.ext h, hcp, hT, by rw [heq, h.hist_take (by omega)]⟩

theorem Carries.ext {l : List ε} {T : τ} {p : Nat} (hc : L.Carries S l T p) (h : Ext L L')
    (hp : p < (L.hist T).length) : L'.Carries S l T p := by
  rcases hc with hb | ⟨heq, hl⟩
  · exact .inl (hb.ext h)
  · exact .inr ⟨by rw [heq, h.hist_take (by omega)], hl⟩

theorem Canon.ext {l : List ε} {b : Nat} {t u : τ} (hc : L.Canon l b t) (h : Ext L L')
    (ht : t ≤ u) : L'.Canon l b u := by
  intro p e hb he
  obtain ⟨ho, hst, hj⟩ := hc p e hb he
  refine ⟨h.opened_mono _ ho, hst.trans ht, fun j hbj hjp => ?_⟩
  have hl := (List.getElem?_eq_some_iff.mp he).1
  have hlt : j < l.length := by omega
  have hs := (hj j hbj hjp).symm
  rw [List.getElem?_eq_getElem hlt] at hs
  have hh := (List.getElem?_eq_some_iff.mp hs).1
  rw [hj j hbj hjp, h.hist_get hh]

/-- Entries of a ballot written after a later one was opened can no longer be chosen. -/
theorem WF.late_blocked (hL : L.WF S) (h : Ext L L') {T U : τ} {p : Nat} (ho : L.opened U)
    (hlt : T < U) (hp : (L.hist T).length ≤ p) : L'.Blocked S T p := by
  obtain ⟨A, hA, hq⟩ := hL.backed U ho
  refine ⟨A, hA, fun q hqA => ?_⟩
  have hT : T < L.term q := hlt.trans_le (hq q hqA)
  refine ⟨hT.trans_le (h.term_mono q), ?_⟩
  rw [h.acked_frozen q T hT]
  exact (hL.acked_le q T).trans hp

/-- Position `p` of ballot `T` comes before the end of a log whose last stamp and length are `a`. -/
def Below (T : τ) (p : Nat) (a : τ × Nat) : Prop := T < a.1 ∨ (T = a.1 ∧ p < a.2)

/-- `a` describes the end of a log that was empty or ended inside an opened ballot. -/
def Advert (L : Ledger ν ε τ) (a : τ × Nat) : Prop :=
  a = (L.floor, 0) ∨ (L.opened a.1 ∧ a.2 ≤ (L.hist a.1).length)

/-- The log `l` still carries everything below `a` that ballots before `T` wrote. -/
def Covers (S : QuorumSystem ν) (L : Ledger ν ε τ) (l : List ε) (T : τ) (a : τ × Nat) : Prop :=
  ∀ U p, U < T → OwnAt U (L.hist U) p → Below U p a → L.Carries S l U p

/-- Node `q` has left the ballots before `T`, and all it acknowledged in them is below `a`. -/
def Backs (S : QuorumSystem ν) (L : Ledger ν ε τ) (q : ν) (T : τ) (a : τ × Nat) : Prop :=
  T ≤ L.term q ∧
    ∀ U p, U < T → OwnAt U (L.hist U) p → p < L.acked q U → L.Blocked S U p ∨ Below U p a

theorem Advert.ext {a : τ × Nat} (ha : L.Advert a) (h : Ext L L') : L'.Advert a := by
  rcases ha with rfl | ⟨ho, hl⟩
  · exact .inl (by rw [h.floor_eq])
  · exact .inr ⟨h.opened_mono _ ho, hl.trans (h.hist_length _)⟩

theorem Covers.ext {l : List ε} {T : τ} {a : τ × Nat} (hL : L.WF S) (hL' : L'.WF S)
    (hc : Covers S L l T a) (ha : L.Advert a) (h : Ext L L') : Covers S L' l T a := by
  intro U p hU hp hb
  by_cases hlen : p < (L.hist U).length
  · exact (hc U p hU (h.own_old hp hlen) hb).ext h hlen
  · left
    rcases ha with rfl | ⟨ho, hl⟩
    · have hf := hL'.above U (hL'.own_opened hp)
      rw [h.floor_eq] at hf
      rcases hb with hlt | ⟨rfl, -⟩
      · exact absurd hf (lt_asymm hlt)
      · exact absurd hf (lt_irrefl _)
    · rcases hb with hlt | ⟨rfl, hlt⟩
      · exact hL.late_blocked h ho hlt (by omega)
      · omega

theorem Backs.ext {q : ν} {T : τ} {a : τ × Nat} (hL : L.WF S) (hb : Backs S L q T a)
    (h : Ext L L') : Backs S L' q T a := by
  refine ⟨hb.1.trans (h.term_mono q), fun U p hU hp hlt => ?_⟩
  rw [h.acked_frozen q U (hU.trans_le hb.1)] at hlt
  have hlen : p < (L.hist U).length := hlt.trans_le (hL.acked_le q U)
  rcases hb.2 U p hU (h.own_old hp hlen) hlt with hbl | hbel
  · exact .inl (hbl.ext h)
  · exact .inr hbel

end Ledger
end Ballot
