import ChonKV.Ballot.Moves

/-!
Settled prefixes form a chain, so all of them are beginnings of one history. A ballot begins with
everything that ever gets settled below it, whichever of the two is known first.
-/

set_option autoImplicit false

namespace Ballot

variable {ν ε τ : Type*}

/-- The first `k` entries of a history. -/
def firsts (H : Nat → ε) (k : Nat) : List ε := (List.range k).map H

@[simp] theorem firsts_length (H : Nat → ε) (k : Nat) : (firsts H k).length = k := by
  simp [firsts]

@[simp] theorem firsts_zero (H : Nat → ε) : firsts H 0 = [] := rfl

theorem firsts_get (H : Nat → ε) {k p : Nat} (hp : p < k) : (firsts H k)[p]? = some (H p) := by
  simp [firsts, hp]

namespace Ledger
variable [LinearOrder τ] [Stamped ε τ] {S : QuorumSystem ν} {L M : Ledger ν ε τ}

/-- What is settled at a position, if anything is. -/
noncomputable def history [Nonempty ε] (S : QuorumSystem ν) (L : Ledger ν ε τ) (p : Nat) : ε :=
  Classical.epsilon fun e => ∃ l t, L.Settled S l (p+1) t ∧ l[p]? = some e

/-- Every settled prefix is a beginning of the history. -/
theorem WF.settled_history [Nonempty ε] (h : L.WF S) {l : List ε} {c : Nat} {t : τ}
    (hs : L.Settled S l c t) : l.take c = firsts (L.history S) c := by
  have hlen := hs.le_length
  apply List.ext_getElem?
  intro p
  by_cases hp : p < c
  · rw [List.getElem?_take_of_lt hp, firsts_get _ hp]
    have hget : l[p]? = some l[p] := List.getElem?_eq_getElem (by omega)
    have hsome : ∃ e, ∃ (m : List ε) (u : τ), L.Settled S m (p+1) u ∧ m[p]? = some e :=
      ⟨l[p], l, t, hs.mono hp le_rfl, hget⟩
    obtain ⟨m, u, hm, he⟩ := Classical.epsilon_spec hsome
    have hag := h.settled_agree hs hm
    exact (getElem?_of_take hag (by omega)).trans he
  · simp [hp]

/-- A ballot that is open begins with what will be settled below it. -/
theorem WF.settled_below (h : L.WF S) (hx : Ext L M) {l : List ε} {c : Nat} {t U : τ}
    (hs : M.Settled S l c t) (ho : L.opened U) (ht : t < U) : l.take c = (L.hist U).take c := by
  rcases hs with rfl | ⟨T, p, hc, hcp, hT, heq⟩
  · simp
  have hTU : T < U := hT.trans_lt ht
  have hnb := hc.not_blocked
  rcases lt_or_ge p (L.hist T).length with hp | hp
  · have hown := hx.own_old hc.2.1 hp
    rcases h.safe T U p ho hTU hown with hb | htake
    · exact absurd (hb.ext hx) hnb
    · rw [heq, hx.hist_take (by omega)]
      exact (take_of_take htake hcp).symm
  · exact absurd (h.late_blocked hx ho hTU hp) hnb

end Ledger
end Ballot
