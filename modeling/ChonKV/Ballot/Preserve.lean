import ChonKV.Ballot.Moves
import Mathlib.Logic.Function.Basic

/-!
Preservation of the ledger invariant by each move.
-/

set_option autoImplicit false
set_option linter.unusedSectionVars false

namespace Ballot
namespace Ledger

open Function (update)

variable {ν ε τ : Type*} [DecidableEq ν] [LinearOrder τ] [Stamped ε τ] {S : QuorumSystem ν}
variable {L : Ledger ν ε τ}

/-- The invariant survives any extension that keeps a few facts about what is new. -/
theorem WF.of_ext {L' : Ledger ν ε τ} (hL : L.WF S) (h : Ext L L')
    (above : ∀ T, L'.opened T → L'.floor < T)
    (unopened : ∀ T, ¬ L'.opened T → L'.hist T = [])
    (hist_le : ∀ (T : τ) (p : Nat) (e : ε), (L'.hist T)[p]? = some e → stamp e ≤ T)
    (ascending : ∀ T, Ascending (L'.hist T))
    (matching : ∀ (T : τ) (p : Nat) (e : ε), (L'.hist T)[p]? = some e →
      L'.opened (stamp e) ∧ (L'.hist T).take (p+1) = (L'.hist (stamp e)).take (p+1))
    (backed : ∀ T, L'.opened T → ∃ A, S.IsQuorum A ∧ ∀ q ∈ A, T ≤ L'.term q)
    (acked_le : ∀ q T, L'.acked q T ≤ (L'.hist T).length)
    (acked_term : ∀ q T, 0 < L'.acked q T → T ≤ L'.term q)
    (fresh : ∀ T T' p, L'.opened T' → ¬ L.opened T' → T < T' → OwnAt T (L.hist T) p →
      L'.Blocked S T p ∨ (L'.hist T').take (p+1) = (L'.hist T).take (p+1))
    (grown : ∀ T T' p, L.opened T' → T < T' → OwnAt T (L.hist T) p →
      (L.hist T').length ≤ p → L'.Blocked S T p ∨
        (L'.hist T').take (p+1) = (L'.hist T).take (p+1))
    (late : ∀ T T' p, L'.opened T' → ¬ L.opened T' → T < T' →
      (L.hist T).length ≤ p → OwnAt T (L'.hist T) p → L'.Blocked S T p)
    (holds : ∀ q T p, OwnAt T (L'.hist T) p → p < L'.acked q T → L'.Carries S (L'.log q) T p)
    (canon : ∀ q, L'.Canon (L'.log q) (L'.base q) (L'.term q))
    (settled : ∀ q, L'.Settled S (L'.log q) (L'.base q) (L'.term q))
    (keeps : ∀ q, L'.Settled S (L'.log q) (L'.kept q) (L'.term q))
    (retains : ∀ q, (L'.log q).take (L'.acked q (L'.term q)) =
      (L'.hist (L'.term q)).take (L'.acked q (L'.term q))) : L'.WF S := by
  refine ⟨above, unopened, hist_le, ascending, matching, backed, acked_le, acked_term, ?_,
    holds, canon, settled, keeps, retains⟩
  intro T T' p ho hlt hp
  by_cases hold : L.opened T'
  · by_cases hnew : p < (L.hist T).length
    · have hpo := h.own_old hp hnew
      by_cases hlen : p < (L.hist T').length
      · rcases hL.safe T T' p hold hlt hpo with hb | heq
        · exact .inl (hb.ext h)
        · right
          rw [h.hist_take (by omega), h.hist_take (by omega), heq]
      · exact grown T T' p hold hlt hpo (by omega)
    · exact .inl (hL.late_blocked h hold hlt (by omega))
  · by_cases hnew : p < (L.hist T).length
    · exact fresh T T' p ho hold hlt (h.own_old hp hnew)
    · exact .inl (late T T' p ho hold hlt (by omega) hp)

/-- Node `q` promises ballot `t`. -/
def raise (L : Ledger ν ε τ) (q : ν) (t : τ) : Ledger ν ε τ :=
  { L with term := update L.term q t }

theorem ext_raise {q : ν} {t : τ} (ht : L.term q ≤ t) : Ext L (L.raise q t) where
  floor_eq := rfl
  opened_mono _ h := h
  hist_mono _ := List.prefix_rfl
  term_mono r := by
    by_cases hr : r = q
    · subst hr
      simpa [raise] using ht
    · simp [raise, hr]
  acked_mono _ _ := le_rfl
  acked_frozen _ _ _ := rfl
  kept_mono _ := le_rfl

theorem WF.raise (hL : L.WF S) {q : ν} {t : τ} (ht : L.term q ≤ t) : (L.raise q t).WF S := by
  have h := ext_raise ht
  refine hL.of_ext h hL.above hL.unopened hL.hist_le hL.ascending hL.matching ?_ hL.acked_le ?_
    (fun T T' p ho hn => absurd ho hn) ?_ (fun T T' p ho hn => absurd ho hn) ?_ ?_ ?_ ?_ ?_
  · intro T ho
    obtain ⟨A, hA, hq⟩ := hL.backed T ho
    exact ⟨A, hA, fun r hr => (hq r hr).trans (h.term_mono r)⟩
  · intro r T hr
    exact (hL.acked_term r T hr).trans (h.term_mono r)
  · intro T T' p ho hlt hp _
    rcases hL.safe T T' p ho hlt hp with hb | heq
    · exact .inl (hb.ext h)
    · exact .inr heq
  · intro r T p hp hlt
    exact (hL.holds r T p hp hlt).ext h hp.lt
  · intro r
    exact (hL.canon r).ext h (h.term_mono r)
  · intro r
    exact ((hL.settled r).ext h).mono le_rfl (h.term_mono r)
  · intro r
    exact ((hL.keeps r).ext h).mono le_rfl (h.term_mono r)
  · intro r
    by_cases hr : (L.raise q t).term r = L.term r
    · rw [hr]
      exact hL.retains r
    · -- nothing was acknowledged in a ballot that is new to the node
      have hz : L.acked r ((L.raise q t).term r) = 0 := by
        by_contra hne
        exact hr (le_antisymm (hL.acked_term r _ (Nat.pos_of_ne_zero hne)) (h.term_mono r))
      rw [show (L.raise q t).acked = L.acked from rfl, hz, List.take_zero, List.take_zero]

/-- The writer `c` of ballot `T` appends `e` to the ballot and to its own log. -/
def append (L : Ledger ν ε τ) (c : ν) (T : τ) (e : ε) : Ledger ν ε τ :=
  { L with
    hist := update L.hist T (L.hist T ++ [e])
    acked := update L.acked c (update (L.acked c) T ((L.hist T).length + 1))
    log := update L.log c (L.log c ++ [e]) }

theorem hist_append_self (c : ν) (T : τ) (e : ε) :
    (L.append c T e).hist T = L.hist T ++ [e] := by simp [append]

theorem hist_append_ne {c : ν} {T U : τ} {e : ε} (h : U ≠ T) :
    (L.append c T e).hist U = L.hist U := by simp [append, h]

theorem ext_append (hL : L.WF S) {c : ν} {T : τ} (hc : L.term c = T) (e : ε) :
    Ext L (L.append c T e) where
  floor_eq := rfl
  opened_mono _ h := h
  hist_mono U := by
    by_cases hU : U = T
    · subst hU
      simp [append]
    · simp [append, hU]
  term_mono _ := le_rfl
  acked_mono q U := by
    by_cases hq : q = c
    · subst hq
      by_cases hU : U = T
      · subst hU
        have hle := hL.acked_le q U
        simp [append]
        omega
      · simp [append, hU]
    · simp [append, hq]
  acked_frozen q U hU := by
    by_cases hq : q = c
    · subst hq
      have hne : U ≠ T := by
        rintro rfl
        rw [hc] at hU
        exact lt_irrefl _ hU
      simp [append, hne]
    · simp [append, hq]
  kept_mono _ := le_rfl

theorem getElem?_concat_cases {l : List ε} {e a : ε} {p : Nat} (h : (l ++ [e])[p]? = some a) :
    (p < l.length ∧ l[p]? = some a) ∨ (p = l.length ∧ a = e) := by
  rcases Nat.lt_trichotomy p l.length with hlt | rfl | hgt
  · rw [List.getElem?_append_left hlt] at h
    exact .inl ⟨hlt, h⟩
  · simp at h
    exact .inr ⟨rfl, h.symm⟩
  · rw [List.getElem?_eq_none (by simp; omega)] at h
    cases h

theorem WF.append (hL : L.WF S) {c : ν} {T : τ} {e : ε} (ho : L.opened T) (hc : L.term c = T)
    (hlog : L.log c = L.hist T) (he : stamp e = T) : (L.append c T e).WF S := by
  have h := ext_append hL hc e
  have hself := hist_append_self (L := L) c T e
  have hget : ∀ (U : τ) (p : Nat) (a : ε), ((L.append c T e).hist U)[p]? = some a →
      (L.hist U)[p]? = some a ∨ (U = T ∧ p = (L.hist T).length ∧ a = e) := by
    intro U p a ha
    by_cases hU : U = T
    · subst hU
      rw [hself] at ha
      rcases getElem?_concat_cases ha with ⟨-, hq⟩ | ⟨hq, rfl⟩
      · exact .inl hq
      · exact .inr ⟨rfl, hq, rfl⟩
    · rw [hist_append_ne hU] at ha
      exact .inl ha
  have hlogc : (L.append c T e).log c = L.hist T ++ [e] := by simp [Ledger.append, hlog]
  have hlogn : ∀ r, r ≠ c → (L.append c T e).log r = L.log r := by
    intro r hr
    simp [Ledger.append, hr]
  have hasc : ∀ U, Ascending ((L.append c T e).hist U) := by
    intro U i j a b hij ha hb
    rcases hget U i a ha with ha' | ⟨rfl, rfl, rfl⟩
    · rcases hget U j b hb with hb' | ⟨rfl, rfl, rfl⟩
      · exact hL.ascending U i j a b hij ha' hb'
      · rw [he]
        exact hL.hist_le U i a ha'
    · rcases hget U j b hb with hb' | ⟨-, -, rfl⟩
      · have hl := (List.getElem?_eq_some_iff.mp hb').1
        omega
      · exact le_rfl
  have hset : ∀ q d, (L.append c T e).Settled S (L.log q) d (L.term q) →
      (L.append c T e).Settled S ((L.append c T e).log q) d (L.term q) := by
    intro q d hs
    by_cases hq : q = c
    · subst hq
      refine hs.congr ?_
      have hl := hs.le_length
      rw [hlogc, ← hlog, List.take_append_of_le_length hl]
    · rw [hlogn q hq]
      exact hs
  refine hL.of_ext h hL.above ?_ ?_ hasc ?_ hL.backed ?_ ?_
    (fun U U' p ho hn => absurd ho hn) ?_ (fun U U' p ho hn => absurd ho hn) ?_ ?_ ?_ ?_ ?_
  · intro U hU
    have hne : U ≠ T := by
      rintro rfl
      exact hU ho
    rw [hist_append_ne hne]
    exact hL.unopened U hU
  · intro U p a ha
    rcases hget U p a ha with ha' | ⟨rfl, -, rfl⟩
    · exact hL.hist_le U p a ha'
    · exact he.le
  · intro U p a ha
    rcases hget U p a ha with ha' | ⟨rfl, rfl, rfl⟩
    · obtain ⟨hoa, htk⟩ := hL.matching U p a ha'
      have hl := (List.getElem?_eq_some_iff.mp ha').1
      have hl' := length_of_take htk.symm (by omega)
      exact ⟨hoa, by rw [h.hist_take (by omega), h.hist_take (by omega), htk]⟩
    · exact ⟨he ▸ ho, by rw [he]⟩
  · intro q U
    by_cases hq : q = c
    · subst hq
      by_cases hU : U = T
      · subst hU
        simp [Ledger.append]
      · simpa [Ledger.append, hU] using hL.acked_le q U
    · have hle := (hL.acked_le q U).trans (h.hist_length U)
      simpa [Ledger.append, hq] using hle
  · intro q U hq
    by_cases hqc : q = c
    · subst hqc
      by_cases hU : U = T
      · subst hU
        exact hc.ge
      · exact hL.acked_term q U (by simpa [Ledger.append, hU] using hq)
    · exact hL.acked_term q U (by simpa [Ledger.append, hqc] using hq)
  · intro U U' p ho' hlt hp hlen
    rcases hL.safe U U' p ho' hlt hp with hb | heq
    · exact .inl (hb.ext h)
    · have hl := hp.lt
      have hl' := length_of_take heq (by omega)
      omega
  · intro q U p hp hlt
    by_cases hq : q = c
    · subst hq
      by_cases hU : U = T
      · subst hU
        refine .inr ⟨by rw [hlogc, hself], ?_⟩
        rw [hlogc, ← hself]
        exact (hasc U).later hp
      · have hp' : OwnAt U (L.hist U) p := by rwa [hist_append_ne hU] at hp
        have hlt' : p < L.acked q U := by simpa [Ledger.append, hU] using hlt
        rcases hL.holds q U p hp' hlt' with hb | ⟨htk, hlat⟩
        · exact .inl (hb.ext h)
        · have hlU : U < T := lt_of_le_of_ne (hc ▸ hL.acked_term q U (by omega)) hU
          refine .inr ⟨?_, ?_⟩
          · have hl := length_of_take htk hp'.lt
            rw [hlogc, hist_append_ne hU, ← hlog, List.take_append_of_le_length hl, htk]
          · rw [hlogc]
            intro j a hj ha
            rcases getElem?_concat_cases ha with ⟨-, ha'⟩ | ⟨-, rfl⟩
            · exact hlat j a hj (hlog ▸ ha')
            · exact he ▸ hlU.le
    · have hp' : OwnAt U (L.hist U) p := by
        refine h.own_old hp ?_
        have hlt' : p < L.acked q U := by simpa [Ledger.append, hq] using hlt
        exact hlt'.trans_le (hL.acked_le q U)
      rw [hlogn q hq]
      exact (hL.holds q U p hp' (by simpa [Ledger.append, hq] using hlt)).ext h hp'.lt
  · intro q
    by_cases hq : q = c
    · subst hq
      intro p a hb ha
      rw [hlogc] at ha ⊢
      rcases getElem?_concat_cases ha with ⟨hl, ha'⟩ | ⟨rfl, rfl⟩
      · obtain ⟨hoa, hst, hj⟩ := (hL.canon q).ext h le_rfl p a hb (hlog ▸ ha')
        refine ⟨hoa, hst, fun j hbj hjp => ?_⟩
        rw [List.getElem?_append_left (by omega), ← hlog]
        exact hj j hbj hjp
      · exact ⟨he ▸ ho, (he.trans hc.symm).le, fun j _ _ => by rw [he, hself]⟩
    · rw [hlogn q hq]
      exact (hL.canon q).ext h le_rfl
  · intro q
    exact hset q _ ((hL.settled q).ext h)
  · intro q
    exact hset q _ ((hL.keeps q).ext h)
  · intro q
    by_cases hq : q = c
    · subst hq
      rw [show (L.append q T e).term q = T from hc, hlogc, hself]
    · have hack : (L.append c T e).acked q (L.term q) = L.acked q (L.term q) := by
        simp [Ledger.append, hq]
      rw [hlogn q hq, show (L.append c T e).term = L.term from rfl, hack,
        h.hist_take (hL.acked_le q _)]
      exact hL.retains q

end Ledger
end Ballot
