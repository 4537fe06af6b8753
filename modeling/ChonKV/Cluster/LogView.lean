import ChonKV.Ballot.Opening
import ChonKV.Cluster.Step

/-!
The whole log behind `logs_`: the sentinel stands for a prefix that the node does not hold any
more. Every index computation of the handlers is read off the whole log.
-/

set_option autoImplicit false

namespace ChonKV

open Ballot Ballot.Ledger

instance : Stamped LogEntry Int := ⟨LogEntry.term⟩

theorem stamp_eq (e : LogEntry) : stamp e = e.term := rfl

/-- The term at index `k` of a whole log, `0` before its first entry. -/
def termAt (l : List LogEntry) (k : Nat) : Int := lastTermOf (l.take k)

/-- The entry at position `p` carries the index `p+1`. -/
def Aligned (l : List LogEntry) : Prop :=
  ∀ (p : Nat) (e : LogEntry), l[p]? = some e → e.index = p+1

theorem Aligned.nil : Aligned [] := by
  intro p e h
  simp at h

theorem Aligned.of_take {l m : List LogEntry} {n : Nat} (hm : Aligned m)
    (h : l.take n = m.take n) {p : Nat} {e : LogEntry} (hp : p < n) (he : l[p]? = some e) :
    e.index = p+1 :=
  hm p e ((getElem?_of_take h hp).symm.trans he)

@[simp] theorem termAt_zero (l : List LogEntry) : termAt l 0 = 0 := rfl

theorem termAt_congr {l m : List LogEntry} {k : Nat} (h : l.take k = m.take k) :
    termAt l k = termAt m k := by
  rw [termAt, termAt, h]

theorem termAt_of_take {l m : List LogEntry} {n k : Nat} (h : l.take n = m.take n) (hk : k ≤ n) :
    termAt l k = termAt m k :=
  termAt_congr (take_of_take h hk)

theorem termAt_succ {l : List LogEntry} {k : Nat} {e : LogEntry} (h : l[k]? = some e) :
    termAt l (k+1) = e.term := by
  have hl := (List.getElem?_eq_some_iff.mp h).1
  have hlast : (l.take (k+1)).getLast? = some e := by
    rw [List.getLast?_eq_getElem?, List.getElem?_take]
    simp only [List.length_take]
    rw [Nat.min_eq_left (by omega)]
    simpa using h
  simp [termAt, lastTermOf, hlast]

/-- `logs_` with its sentinel at `b` shows the whole log `l`. -/
structure Shows (snapshotIndex snapshotTerm : Int) (logs l : List LogEntry) (b : Nat) : Prop where
  index : snapshotIndex = b
  le : b ≤ l.length
  term : snapshotTerm = termAt l b
  logs : logs = sentinel snapshotTerm snapshotIndex :: l.drop b
  aligned : Aligned l

namespace Shows

variable {si st : Int} {logs l : List LogEntry} {b : Nat}

theorem initial : Shows 0 0 [sentinel 0 0] [] 0 :=
  ⟨rfl, le_rfl, rfl, rfl, Aligned.nil⟩

theorem length (h : Shows si st logs l b) : logs.length = l.length - b + 1 := by
  simp [h.logs]

/-- The entry that `logs` holds for the position `p` of the whole log. -/
theorem get (h : Shows si st logs l b) {p : Nat} (hb : b ≤ p) :
    logs[p+1-b]? = l[p]? := by
  have he : p+1-b = (p-b)+1 := by omega
  rw [h.logs, he, List.getElem?_cons_succ, List.getElem?_drop]
  congr 1
  omega

theorem lastIndexOf_eq (h : Shows si st logs l b) : lastIndexOf logs = l.length := by
  by_cases hl : l.length = b
  · have hd : l.drop b = [] := List.drop_eq_nil_of_le hl.le
    simp [lastIndexOf, h.logs, hd, h.index, hl]
  · have hlt : b < l.length := lt_of_le_of_ne h.le (Ne.symm hl)
    have hg := h.get (p := l.length - 1) (by omega)
    have he : logs.length - 1 = l.length - 1 + 1 - b := by
      rw [h.length]
      omega
    rw [← he, ← List.getLast?_eq_getElem?, List.getElem?_eq_getElem (by omega)] at hg
    have hi := h.aligned (l.length - 1) _ (List.getElem?_eq_getElem (by omega))
    simp only [lastIndexOf, hg, Option.map_some, Option.getD_some, hi]
    omega

theorem lastTermOf_eq (h : Shows si st logs l b) : lastTermOf logs = termAt l l.length := by
  by_cases hl : l.length = b
  · have hd : l.drop b = [] := List.drop_eq_nil_of_le hl.le
    simp [lastTermOf, h.logs, hd, h.term, hl]
  · have hlt : b < l.length := lt_of_le_of_ne h.le (Ne.symm hl)
    have hg := h.get (p := l.length - 1) (by omega)
    have he : logs.length - 1 = l.length - 1 + 1 - b := by
      rw [h.length]
      omega
    rw [← he, ← List.getLast?_eq_getElem?, List.getElem?_eq_getElem (by omega)] at hg
    have ht := termAt_succ (l := l) (k := l.length - 1) (List.getElem?_eq_getElem (by omega))
    rw [Nat.sub_add_cancel (by omega)] at ht
    simp [lastTermOf, hg, ht]

theorem entryAt_eq (h : Shows si st logs l b) {p : Nat} {e : LogEntry} (hb : b ≤ p)
    (he : l[p]? = some e) : entryAt si logs (p+1) = e := by
  have hpos : ((p : Int) + 1 - si).toNat = p+1-b := by
    rw [h.index]
    omega
  rw [entryAt, hpos, List.getD_eq_getElem?_getD, h.get hb, he]
  rfl

theorem entryAt_term (h : Shows si st logs l b) {x : Nat} (hb : b ≤ x) (hx : x ≤ l.length) :
    (entryAt si logs x).term = termAt l x := by
  by_cases hxb : x = b
  · subst hxb
    have hpos : ((x : Int) - si).toNat = 0 := by
      rw [h.index]
      omega
    rw [entryAt, hpos, List.getD_eq_getElem?_getD, h.logs]
    simp [h.term]
  · obtain ⟨p, rfl⟩ : ∃ p, x = p+1 := ⟨x-1, by omega⟩
    have hp : l[p]? = some l[p] := List.getElem?_eq_getElem (by omega)
    have he := h.entryAt_eq (p := p) (by omega) hp
    push_cast
    rw [he, termAt_succ hp]

/-- The indexes that `logs_` holds are those from the sentinel to the end. -/
theorem mem_range (h : Shows si st logs l b) {x : Int} :
    (si ≤ x ∧ x - si < logs.length) ↔ ∃ k : Nat, x = k ∧ b ≤ k ∧ k ≤ l.length := by
  have hlen := h.length
  have hle := h.le
  have hsi := h.index
  constructor
  · rintro ⟨h1, h2⟩
    exact ⟨x.toNat, by omega, by omega, by omega⟩
  · rintro ⟨k, rfl, h1, h2⟩
    exact ⟨by omega, by omega⟩

theorem push (h : Shows si st logs l b) {e : LogEntry} (he : e.index = l.length+1) :
    Shows si st (logs ++ [e]) (l ++ [e]) b where
  index := h.index
  le := by
    have hle := h.le
    simp
    omega
  term := by
    rw [h.term]
    exact termAt_congr (List.take_append_of_le_length h.le).symm
  logs := by
    rw [h.logs, List.cons_append, List.drop_append_of_le_length h.le]
  aligned := by
    intro p a ha
    rcases getElem?_concat_cases ha with ⟨-, ha'⟩ | ⟨rfl, rfl⟩
    · exact h.aligned p a ha'
    · exact he

/-- The log is cut at `x`, and its part up to `x` replaced by that of `m`. -/
theorem cut (h : Shows si st logs l b) {m : List LogEntry} {x : Nat} (hb : b ≤ x)
    (hm : x ≤ m.length) (ha : Aligned m) :
    Shows x (termAt m x) (cutLogs logs ((x : Int) - si).toNat (termAt m x) x) (splice m x l) x where
  index := rfl
  le := by simp [splice]; omega
  term := termAt_congr (splice_take hm le_rfl).symm
  logs := by
    have hpos : ((x : Int) - si).toNat = x - b := by
      rw [h.index]
      omega
    have hx : b + (x - b) = x := by omega
    have hdrop : (splice m x l).drop x = l.drop x := List.drop_left' (by simp; omega)
    rw [cutLogs, hpos, h.logs, List.drop_succ_cons, List.drop_drop, hx, hdrop]
  aligned := by
    intro p e he
    by_cases hp : p < x
    · exact Aligned.of_take ha (splice_take hm le_rfl) hp he
    · rw [splice_get hm (by omega)] at he
      exact h.aligned p e he

end Shows

/-- `mergeEntry` on a whole log. -/
def mergeAt (b : Nat) (l : List LogEntry) (p : Nat) (e : LogEntry) : List LogEntry :=
  if p < b then l
  else if p < l.length then if termAt l (p+1) ≠ e.term then l.take p ++ [e] else l
  else l ++ [e]

theorem Shows.merge {si st : Int} {ms : MergeState} {l : List LogEntry} {b p : Nat} {e : LogEntry}
    (h : Shows si st ms.logs l b) (hp : p ≤ l.length ∨ p < b) (he : e.index = p+1) :
    Shows si st (mergeEntry si ms e).logs (mergeAt b l p e) b := by
  have hsi := h.index
  have hle := h.le
  by_cases hpb : p < b
  · have hskip : e.index ≤ 0 ∨ e.index ≤ si := by omega
    simpa [mergeEntry, hskip, mergeAt, hpb] using h
  have hno : ¬ (e.index ≤ 0 ∨ e.index ≤ si) := by omega
  have hpl : p ≤ l.length := by omega
  by_cases hlt : p < l.length
  · have hin : e.index ≤ lastIndexOf ms.logs := by
      rw [h.lastIndexOf_eq]
      omega
    have ht : (entryAt si ms.logs e.index).term = termAt l (p+1) := by
      rw [he]
      exact_mod_cast h.entryAt_term (x := p+1) (by omega) (by omega)
    by_cases hne : termAt l (p+1) ≠ e.term
    · have hmerge : (mergeEntry si ms e).logs = ms.logs.take (p+1-b) ++ [e] := by
        have hpos : (e.index - si).toNat = p+1-b := by omega
        simp [mergeEntry, hno, hin, ht, hne, hpos]
      have hcut : Shows si st (ms.logs.take (p+1-b)) (l.take p) b := by
        refine ⟨hsi, by simp; omega, ?_, ?_, ?_⟩
        · rw [h.term]
          exact termAt_congr (by rw [List.take_take, Nat.min_eq_left (by omega)])
        · have hs : p+1-b = (p-b)+1 := by omega
          rw [h.logs, hs, List.take_succ_cons, List.drop_take]
        · intro q a ha
          rw [List.getElem?_take] at ha
          split at ha
          · exact h.aligned q a ha
          · cases ha
      rw [hmerge, mergeAt, if_neg hpb, if_pos hlt, if_pos hne]
      refine hcut.push ?_
      rw [he]
      simp
      omega
    · have hkeep : mergeEntry si ms e = ms := by
        simp [mergeEntry, hno, hin, ht, hne]
      rw [hkeep, mergeAt, if_neg hpb, if_pos hlt, if_neg hne]
      exact h
  · have hout : ¬ e.index ≤ lastIndexOf ms.logs := by
      rw [h.lastIndexOf_eq]
      omega
    have hmerge : (mergeEntry si ms e).logs = ms.logs ++ [e] := by
      simp [mergeEntry, hno, hout]
    rw [hmerge, mergeAt, if_neg hpb, if_neg hlt]
    exact h.push (by omega)

theorem take_succ_of_get {l : List LogEntry} {k : Nat} {e : LogEntry} (h : l[k]? = some e) :
    l.take (k+1) = l.take k ++ [e] := by
  rw [List.take_add_one, h]
  rfl

/-- `l'` is `l` merged with the first `m` entries of `H`: unchanged if it has them, cut to them if
it differs. -/
def Merged (b : Nat) (l H : List LogEntry) (m : Nat) (l' : List LogEntry) : Prop :=
  (l' = l ∧ l.take (max b m) = H.take (max b m) ∧ max b m ≤ l.length) ∨
    (b < m ∧ l' = H.take m ∧ l.take m ≠ H.take m)

theorem Merged.step {b m : Nat} {l H l' : List LogEntry} {e : LogEntry} (h : Merged b l H m l')
    (he : H[m]? = some e)
    (hsame : ∀ (p : Nat) (a c : LogEntry), b ≤ p → l[p]? = some a → H[p]? = some c →
      a.term = c.term → a = c) : Merged b l H (m+1) (mergeAt b l' m e) := by
  have hH := (List.getElem?_eq_some_iff.mp he).1
  rcases h with ⟨rfl, htk, hle⟩ | ⟨hb, rfl, hne⟩
  · by_cases hmb : m < b
    · left
      rw [mergeAt, if_pos hmb, Nat.max_eq_left (by omega)]
      rw [Nat.max_eq_left (by omega)] at htk hle
      exact ⟨rfl, htk, hle⟩
    rw [Nat.max_eq_right (by omega)] at htk hle
    rw [mergeAt, if_neg hmb]
    by_cases hlt : m < l'.length
    · have hget : l'[m]? = some l'[m] := List.getElem?_eq_getElem hlt
      rw [if_pos hlt, termAt_succ hget]
      by_cases ht : l'[m].term = e.term
      · left
        have hme := hsame m _ _ (by omega) hget he ht
        rw [if_neg (by simpa using ht), Nat.max_eq_right (by omega)]
        refine ⟨rfl, ?_, by omega⟩
        rw [take_succ_of_get hget, take_succ_of_get he, htk, hme]
      · right
        rw [if_pos ht]
        refine ⟨by omega, by rw [htk, take_succ_of_get he], fun heq => ht ?_⟩
        have hq := getElem?_of_take (p := m) heq (by omega)
        rw [hget, he] at hq
        cases hq
        rfl
    · right
      rw [if_neg hlt]
      have hlen : l'.length = m := by omega
      have hl : l' = H.take m := by
        rw [← htk, ← hlen, List.take_length]
      refine ⟨by omega, by rw [take_succ_of_get he, ← hl], fun heq => ?_⟩
      have hq := length_of_take heq (by omega)
      omega
  · right
    have hlen : (H.take m).length = m := by simp; omega
    rw [mergeAt, if_neg (by omega), if_neg (by omega)]
    exact ⟨by omega, (take_succ_of_get he).symm, fun heq => hne (take_of_take heq (by omega))⟩

theorem Merged.take {b m : Nat} {l H l' : List LogEntry} (h : Merged b l H m l') :
    l'.take m = H.take m := by
  rcases h with ⟨rfl, htk, -⟩ | ⟨-, rfl, -⟩
  · exact take_of_take htk (Nat.le_max_right b m)
  · rw [List.take_take, Nat.min_self]

/-- The loop of `AppendEntries` merges the whole log with the entries of the request. -/
theorem Shows.mergeAll {si st : Int} {b : Nat} {l H : List LogEntry}
    (hH : Aligned H) (hsame : ∀ (p : Nat) (a c : LogEntry), b ≤ p → l[p]? = some a →
      H[p]? = some c → a.term = c.term → a = c) :
    ∀ (es : List LogEntry) (k : Nat) (ms : MergeState) (l' : List LogEntry),
      Shows si st ms.logs l' b → Merged b l H k l' →
      (∀ (j : Nat) (e : LogEntry), es[j]? = some e → H[k+j]? = some e) →
      ∃ l'', Shows si st (es.foldl (mergeEntry si) ms).logs l'' b ∧ Merged b l H (k+es.length) l'' := by
  intro es
  induction es with
  | nil =>
    intro k ms l' hs hm _
    exact ⟨l', hs, hm⟩
  | cons e es ih =>
    intro k ms l' hs hm hes
    have he : H[k]? = some e := hes 0 e rfl
    have hpos : k ≤ l'.length ∨ k < b := by
      rcases hm with ⟨rfl, -, hle⟩ | ⟨-, rfl, -⟩
      · left
        omega
      · left
        have hl := (List.getElem?_eq_some_iff.mp he).1
        simp
        omega
    have hstep := hs.merge hpos (hH k e he)
    obtain ⟨l'', hs', hm'⟩ := ih (k+1) _ _ hstep (hm.step he hsame) fun j a ha => by
      have hj := hes (j+1) a (by simpa using ha)
      rwa [show k + 1 + j = k + (j+1) by omega]
    refine ⟨l'', hs', ?_⟩
    rwa [show k + (e :: es).length = k + 1 + es.length by simp; omega]

/-- The loop of `AppendEntries` that reports no change made none. -/
theorem mergeEntry_unchanged {si : Int} (es : List LogEntry) :
    ∀ ms : MergeState, (es.foldl (mergeEntry si) ms).changed = false →
      (es.foldl (mergeEntry si) ms).logs = ms.logs := by
  induction es with
  | nil => exact fun ms _ => rfl
  | cons e es ih =>
    intro ms h
    have hmono : ∀ (es : List LogEntry) (ms : MergeState), ms.changed = true →
        (es.foldl (mergeEntry si) ms).changed = true := by
      intro es
      induction es with
      | nil => exact fun ms h => h
      | cons a es ih =>
        intro ms h
        refine ih _ ?_
        unfold mergeEntry
        split_ifs <;> first | exact h | rfl
    have hstep : (mergeEntry si ms e).changed = false := by
      by_contra hc
      have := hmono es _ (by simpa using hc)
      simp only [List.foldl_cons] at h
      simp [this] at h
    have hlogs : (mergeEntry si ms e).logs = ms.logs := by
      unfold mergeEntry at hstep ⊢
      split_ifs at hstep ⊢ <;> rfl
    exact (ih _ h).trans hlogs

end ChonKV
