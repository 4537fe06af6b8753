import Mathlib.Data.Set.Basic
import Mathlib.Data.List.Basic
import Mathlib.Data.Finset.Card
import Mathlib.Data.Finset.Range
import Mathlib.Order.Basic
import Mathlib.Tactic.Common

/-!
Histories of numbered ballots, the promises and acknowledgements of a set of nodes, and what a
quorum of acknowledgements fixes for every later ballot. Ballots, nodes and entries are arbitrary.
-/

set_option autoImplicit false
set_option linter.unusedSectionVars false

namespace Ballot

/-- Families of sets any two of which meet. -/
structure QuorumSystem (ν : Type*) where
  IsQuorum : Set ν → Prop
  meet : ∀ {A B : Set ν}, IsQuorum A → IsQuorum B → ∃ q, q ∈ A ∧ q ∈ B

/-- The sets that hold more than half of the nodes `0, …, n-1`. -/
def majority (n : Nat) : QuorumSystem Nat where
  IsQuorum A := ∃ s : Finset Nat, s ⊆ Finset.range n ∧ (∀ q ∈ s, q ∈ A) ∧ n < 2*s.card
  meet := by
    rintro A B ⟨s, hs, hsA, hsn⟩ ⟨t, ht, htB, htn⟩
    have hunion : (s ∪ t).card ≤ n := by
      have h := Finset.card_le_card (Finset.union_subset hs ht)
      simpa using h
    have hsum := Finset.card_union_add_card_inter s t
    have hpos : 0 < (s ∩ t).card := by omega
    obtain ⟨q, hq⟩ := Finset.card_pos.mp hpos
    rw [Finset.mem_inter] at hq
    exact ⟨q, hsA q hq.1, htB q hq.2⟩

/-- Entries carry the ballot they were created in. -/
class Stamped (ε : Type*) (τ : outParam (Type*)) where
  stamp : ε → τ

export Stamped (stamp)

variable {ν ε τ : Type*}

section Lists
variable [Stamped ε τ]

/-- Position `p` of `l` holds an entry of ballot `T`. -/
def OwnAt (T : τ) (l : List ε) (p : Nat) : Prop := ∃ e, l[p]? = some e ∧ stamp e = T

theorem OwnAt.lt {T : τ} {l : List ε} {p : Nat} (h : OwnAt T l p) : p < l.length := by
  obtain ⟨e, he, _⟩ := h
  exact (List.getElem?_eq_some_iff.mp he).1

theorem own_concat (l : List ε) (e : ε) : OwnAt (stamp e) (l ++ [e]) l.length :=
  ⟨e, List.getElem?_concat_length, rfl⟩

/-- The entries of `l` from position `p` on are stamped `T` or later. -/
def LaterFrom [LE τ] (T : τ) (l : List ε) (p : Nat) : Prop :=
  ∀ (j : Nat) (e : ε), p ≤ j → l[j]? = some e → T ≤ stamp e

/-- Stamps never decrease along the list. -/
def Ascending [LE τ] (l : List ε) : Prop :=
  ∀ (i j : Nat) (a b : ε), i ≤ j → l[i]? = some a → l[j]? = some b → stamp a ≤ stamp b

theorem Ascending.later [LE τ] {l : List ε} (h : Ascending l) {T : τ} {p : Nat}
    (hp : OwnAt T l p) : LaterFrom T l p := by
  obtain ⟨a, ha, rfl⟩ := hp
  intro j e hj he
  exact h p j a e hj ha he

end Lists

theorem getElem?_of_take {l m : List ε} {n p : Nat} (h : l.take n = m.take n) (hp : p < n) :
    l[p]? = m[p]? := by
  have hq := congrArg (fun x => x[p]?) h
  simpa [List.getElem?_take, hp] using hq

theorem take_of_take {l m : List ε} {n k : Nat} (h : l.take n = m.take n) (hk : k ≤ n) :
    l.take k = m.take k := by
  have hq := congrArg (List.take k) h
  simpa [List.take_take, Nat.min_eq_left hk] using hq

theorem length_of_take {l m : List ε} {n : Nat} (h : l.take n = m.take n) (hm : n ≤ m.length) :
    n ≤ l.length := by
  have hq := congrArg List.length h
  simp only [List.length_take, Nat.min_eq_left hm] at hq
  omega

/-- Two lists with a common prefix that agree on the positions after it agree so far. -/
theorem take_extend {l m : List ε} {b n : Nat} (hb : l.take b = m.take b)
    (h : ∀ j : Nat, b ≤ j → j < n → l[j]? = m[j]?) : l.take n = m.take n := by
  apply List.ext_getElem?
  intro j
  simp only [List.getElem?_take]
  by_cases hj : j < n
  · simp only [hj, if_true]
    by_cases hjb : j < b
    · exact getElem?_of_take hb hjb
    · exact h j (by omega) hj
  · simp [hj]

/-- The state every ballot argument is about: the ballots opened so far and the log each has
written, and for each node its promise, its acknowledgements, its log, the length of the
prefix it no longer holds entry by entry and that of the settled prefix it answered for. No ballot
is opened at or below `floor`. -/
structure Ledger (ν ε τ : Type*) where
  floor : τ
  opened : τ → Prop
  hist : τ → List ε
  term : ν → τ
  acked : ν → τ → Nat
  log : ν → List ε
  base : ν → Nat
  kept : ν → Nat

namespace Ledger
variable [LinearOrder τ] [Stamped ε τ] (S : QuorumSystem ν) (L : Ledger ν ε τ)

/-- A quorum has left ballot `T` without acknowledging position `p`. -/
def Blocked (T : τ) (p : Nat) : Prop :=
  ∃ A, S.IsQuorum A ∧ ∀ q ∈ A, T < L.term q ∧ L.acked q T ≤ p

/-- A quorum has acknowledged, in ballot `T`, an entry of ballot `T` at position `p`. -/
def Chosen (T : τ) (p : Nat) : Prop :=
  L.opened T ∧ OwnAt T (L.hist T) p ∧ ∃ A, S.IsQuorum A ∧ ∀ q ∈ A, p < L.acked q T

/-- The first `c` entries of `l` were fixed by a ballot not above `t`. -/
def Settled (l : List ε) (c : Nat) (t : τ) : Prop :=
  c = 0 ∨ ∃ T p, L.Chosen S T p ∧ c ≤ p+1 ∧ T ≤ t ∧ l.take c = (L.hist T).take c

/-- `l` still has what ballot `T` wrote up to position `p`, unless that can no longer be chosen. -/
def Carries (l : List ε) (T : τ) (p : Nat) : Prop :=
  L.Blocked S T p ∨ (l.take (p+1) = (L.hist T).take (p+1) ∧ LaterFrom T l p)

/-- Positions `b` and above of `l` up to `p` are as the ballot of the entry at `p` wrote them. -/
def Canon (l : List ε) (b : Nat) (t : τ) : Prop :=
  ∀ (p : Nat) (e : ε), b ≤ p → l[p]? = some e →
    L.opened (stamp e) ∧ stamp e ≤ t ∧ ∀ j : Nat, b ≤ j → j ≤ p → l[j]? = (L.hist (stamp e))[j]?

/-- The invariant of every run of the ballots. -/
structure WF : Prop where
  above : ∀ T, L.opened T → L.floor < T
  unopened : ∀ T, ¬ L.opened T → L.hist T = []
  hist_le : ∀ (T : τ) (p : Nat) (e : ε), (L.hist T)[p]? = some e → stamp e ≤ T
  ascending : ∀ T, Ascending (L.hist T)
  matching : ∀ (T : τ) (p : Nat) (e : ε), (L.hist T)[p]? = some e →
    L.opened (stamp e) ∧ (L.hist T).take (p+1) = (L.hist (stamp e)).take (p+1)
  backed : ∀ T, L.opened T → ∃ A, S.IsQuorum A ∧ ∀ q ∈ A, T ≤ L.term q
  acked_le : ∀ q T, L.acked q T ≤ (L.hist T).length
  acked_term : ∀ q T, 0 < L.acked q T → T ≤ L.term q
  safe : ∀ T T' p, L.opened T' → T < T' → OwnAt T (L.hist T) p →
    L.Blocked S T p ∨ (L.hist T').take (p+1) = (L.hist T).take (p+1)
  holds : ∀ q T p, OwnAt T (L.hist T) p → p < L.acked q T → L.Carries S (L.log q) T p
  canon : ∀ q, L.Canon (L.log q) (L.base q) (L.term q)
  settled : ∀ q, L.Settled S (L.log q) (L.base q) (L.term q)
  keeps : ∀ q, L.Settled S (L.log q) (L.kept q) (L.term q)
  retains : ∀ q, (L.log q).take (L.acked q (L.term q)) =
    (L.hist (L.term q)).take (L.acked q (L.term q))

variable {S L}

theorem Chosen.lt {T : τ} {p : Nat} (h : L.Chosen S T p) : p < (L.hist T).length := h.2.1.lt

/-- What a quorum acknowledged is never blocked. -/
theorem Chosen.not_blocked {T : τ} {p : Nat} (h : L.Chosen S T p) : ¬ L.Blocked S T p := by
  rintro ⟨A, hA, hb⟩
  obtain ⟨-, -, B, hB, hc⟩ := h
  obtain ⟨q, hqA, hqB⟩ := S.meet hA hB
  have hle := (hb q hqA).2
  have hlt := hc q hqB
  omega

theorem WF.own_opened (h : L.WF S) {T : τ} {p : Nat} (hp : OwnAt T (L.hist T) p) : L.opened T := by
  by_contra hn
  have hl := hp.lt
  rw [h.unopened T hn] at hl
  simp at hl

/-- A chosen prefix is a prefix of every ballot from its own on. -/
theorem WF.chosen_agree (h : L.WF S) {T T' : τ} {p : Nat} (hc : L.Chosen S T p)
    (ho : L.opened T') (hle : T ≤ T') :
    (L.hist T').take (p+1) = (L.hist T).take (p+1) := by
  rcases hle.eq_or_lt with rfl | hlt
  · rfl
  · rcases h.safe T T' p ho hlt hc.2.1 with hb | heq
    · exact absurd hb hc.not_blocked
    · exact heq

/-- A chosen prefix and what another ballot wrote agree, unless the latter is blocked. -/
theorem WF.chosen_own (h : L.WF S) {T₀ T : τ} {p₀ p : Nat} (hc : L.Chosen S T₀ p₀)
    (hp : OwnAt T (L.hist T) p) :
    L.Blocked S T p ∨ (L.hist T₀).take (min (p+1) (p₀+1)) = (L.hist T).take (min (p+1) (p₀+1)) := by
  rcases le_or_gt T₀ T with hle | hlt
  · have heq := h.chosen_agree hc (h.own_opened hp) hle
    exact .inr (take_of_take heq (by omega)).symm
  · rcases h.safe T T₀ p hc.1 hlt hp with hb | heq
    · exact .inl hb
    · exact .inr (take_of_take heq (by omega))

theorem Settled.mono {l : List ε} {c d : Nat} {t u : τ} (h : L.Settled S l c t) (hd : d ≤ c)
    (ht : t ≤ u) : L.Settled S l d u := by
  rcases h with rfl | ⟨T, p, hc, hle, hT, heq⟩
  · exact .inl (by omega)
  · exact .inr ⟨T, p, hc, by omega, hT.trans ht, take_of_take heq hd⟩

theorem Settled.le_length {l : List ε} {c : Nat} {t : τ} (h : L.Settled S l c t) :
    c ≤ l.length := by
  rcases h with rfl | ⟨T, p, hc, hle, -, heq⟩
  · omega
  · have hl := hc.lt
    exact length_of_take heq (by omega)

theorem Settled.congr {l m : List ε} {c : Nat} {t : τ} (h : L.Settled S l c t)
    (heq : l.take c = m.take c) : L.Settled S m c t := by
  rcases h with rfl | ⟨T, p, hc, hle, hT, hl⟩
  · exact .inl rfl
  · exact .inr ⟨T, p, hc, hle, hT, heq ▸ hl⟩

/-- Settled prefixes form a chain. -/
theorem WF.settled_agree (h : L.WF S) {l m : List ε} {c d : Nat} {t u : τ}
    (hl : L.Settled S l c t) (hm : L.Settled S m d u) :
    l.take (min c d) = m.take (min c d) := by
  rcases hl with rfl | ⟨T, p, hc, hcp, -, hlT⟩
  · simp
  rcases hm with rfl | ⟨T', p', hc', hdp, -, hmT⟩
  · simp
  have hmid : (L.hist T).take (min c d) = (L.hist T').take (min c d) := by
    rcases le_total T T' with hle | hle
    · exact (take_of_take (h.chosen_agree hc hc'.1 hle) (by omega)).symm
    · exact take_of_take (h.chosen_agree hc' hc.1 hle) (by omega)
  rw [take_of_take hlT (Nat.min_le_left c d), hmid, take_of_take hmT (Nat.min_le_right c d)]

/-- A prefix settled no later than an opened ballot is a prefix of that ballot. -/
theorem WF.settled_hist (h : L.WF S) {l : List ε} {c : Nat} {t : τ} (hl : L.Settled S l c t)
    (ho : L.opened t) : l.take c = (L.hist t).take c := by
  rcases hl with rfl | ⟨T, p, hc, hcp, hT, heq⟩
  · simp
  · rw [heq, take_of_take (h.chosen_agree hc ho hT) hcp]

end Ledger
end Ballot
