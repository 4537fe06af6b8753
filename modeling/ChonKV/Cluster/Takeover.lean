import ChonKV.Cluster.Moves

/-!
What a node takes over from its leader, or cuts off behind a snapshot: merged entries, settled
prefixes, and the commit index of a leader.
-/

set_option autoImplicit false

namespace ChonKV

open Ballot Ballot.Ledger
open Function (update)

variable {n : Nat} {E : Record} {G : Ghost} {K : Nat → Core} {i : Nat}

/-- A request of `AppendEntries` is a part of the history of its term. -/
structure AppendOK (n : Nat) (G : Ghost) (args : AppendEntriesArgs) : Prop where
  opened : G.L.opened args.term
  slice : ∃ k m : Nat, args.prevLogIndex = k ∧ k ≤ m ∧ m ≤ (G.L.hist args.term).length ∧
    args.prevLogTerm = termAt (G.L.hist args.term) m ∧
    ∀ (j : Nat) (e : LogEntry), args.entries[j]? = some e → (G.L.hist args.term)[k+j]? = some e
  commit : ∃ c : Nat, args.leaderCommit = c ∧
    G.L.Settled (majority n) (G.L.hist args.term) c args.term

theorem AppendOK.mono {G' : Ghost} {args : AppendEntriesArgs} (h : AppendOK n G args)
    (hle : G.Le E G') : AppendOK n G' args := by
  obtain ⟨ho, ⟨k, m, hk, hkm, hm, ht, hes⟩, c, hc, hset⟩ := h
  have hx := hle.ext
  refine ⟨hx.opened_mono _ ho, ⟨k, m, hk, hkm, hm.trans (hx.hist_length _), ?_, ?_⟩, c, hc, ?_⟩
  · rw [ht]
    exact termAt_congr (hx.hist_take hm).symm
  · intro j e he
    have hp := hes j e he
    rw [hx.hist_get (List.getElem?_eq_some_iff.mp hp).1, hp]
  · exact (hset.ext hx).congr (hx.hist_take hset.le_length).symm

/-- The entries of a request end inside the history of its term. -/
theorem AppendOK.length_le {args : AppendEntriesArgs} {k m : Nat}
    (hm : k ≤ m) (hml : m ≤ (G.L.hist args.term).length)
    (hes : ∀ (j : Nat) (e : LogEntry), args.entries[j]? = some e →
      (G.L.hist args.term)[k+j]? = some e) :
    k + args.entries.length ≤ (G.L.hist args.term).length := by
  by_cases h0 : args.entries.length = 0
  · omega
  · have hp := hes (args.entries.length-1) _ (List.getElem?_eq_getElem (by omega))
    have hl := (List.getElem?_eq_some_iff.mp hp).1
    omega

/-- Log matching: the term before the entries decides about everything before them. -/
theorem Draft.match_prefix (h : Draft n E G K) {T : Int} {k m : Nat} (hi : G.L.term i = T)
    (ho : G.L.opened T) (hb : G.L.base i ≤ k) (hk : k ≤ (G.L.log i).length) (hkm : k ≤ m)
    (hm : m ≤ (G.L.hist T).length) (ht : termAt (G.L.log i) k = termAt (G.L.hist T) m) :
    (G.L.log i).take k = (G.L.hist T).take k := by
  have hbase := h.wf.settled_hist ((h.wf.settled i).mono le_rfl hi.le) ho
  by_cases hkb : k = G.L.base i
  · rwa [hkb]
  obtain ⟨p, rfl⟩ : ∃ p, k = p+1 := ⟨k-1, by omega⟩
  obtain ⟨q, rfl⟩ : ∃ q, m = q+1 := ⟨m-1, by omega⟩
  have hp : (G.L.log i)[p]? = some (G.L.log i)[p] := List.getElem?_eq_getElem (by omega)
  have hq : (G.L.hist T)[q]? = some (G.L.hist T)[q] := List.getElem?_eq_getElem (by omega)
  rw [termAt_succ hp, termAt_succ hq] at ht
  obtain ⟨-, -, hj⟩ := h.wf.canon i p _ (by omega) hp
  obtain ⟨-, hmat⟩ := h.wf.matching T q _ hq
  refine take_extend hbase fun j hbj hjp => ?_
  rw [hj j hbj (by omega), stamp_eq, ht]
  exact (getElem?_of_take hmat (by omega)).symm

/-- Entries of equal term at equal positions are equal. -/
theorem Draft.same_entry (h : Draft n E G K) {T : Int} {p : Nat} {a c : LogEntry}
    (hb : G.L.base i ≤ p) (ha : (G.L.log i)[p]? = some a) (hc : (G.L.hist T)[p]? = some c)
    (ht : a.term = c.term) : a = c := by
  obtain ⟨-, -, hj⟩ := h.wf.canon i p a hb ha
  obtain ⟨-, hmat⟩ := h.wf.matching T p c hc
  have hp := getElem?_of_take hmat (Nat.lt_succ_self p)
  rw [hc, stamp_eq, ← ht, ← stamp_eq, ← hj p hb le_rfl, ha] at hp
  exact (Option.some.inj hp).symm

/-- The ledger of a node whose log was merged with the history of its term. -/
theorem Draft.merged (h : Draft n E G K) {T : Int} {m : Nat} {l : List LogEntry}
    (hi : G.L.term i = T) (ho : G.L.opened T) (hm : m ≤ (G.L.hist T).length)
    (hl : Merged (G.L.base i) (G.L.log i) (G.L.hist T) m l) :
    ∃ L', Ext G.L L' ∧ L'.WF (majority n) ∧ L'.hist = G.L.hist ∧ L'.opened = G.L.opened ∧
      L'.term = G.L.term ∧ L'.base = G.L.base ∧ (∀ j, j ≠ i → L'.log j = G.L.log j) ∧
      L'.log i = l ∧ Acks (majority n) L' i T m := by
  have htk := hl.take
  by_cases hb : G.L.base i < m
  · have hcase : l = G.L.log i ∨
        (l = (G.L.hist T).take m ∧ (G.L.log i).take m ≠ (G.L.hist T).take m) :=
      hl.imp And.left And.right
    refine ⟨G.L.adopt i T l m, ext_adopt hi l m, h.wf.adopt ho hi hm hb htk hcase, rfl, rfl, rfl,
      rfl, fun j hj => by simp [adopt, hj], by simp [adopt], .inl (by simp [adopt])⟩
  · rcases hl with ⟨rfl, -, -⟩ | ⟨hlt, -, -⟩
    · have hset : G.L.Settled (majority n) (G.L.log i) m (G.L.term i) :=
        (h.wf.settled i).mono (by omega) le_rfl
      exact ⟨G.L.keep i m, ext_keep i m, h.wf.keep hset, rfl, rfl, rfl, rfl, fun _ _ => rfl, rfl,
        (hset.mono le_rfl hi.le).acks_keep i⟩
    · exact absurd hlt hb

/-- A follower merges the entries of a request and acknowledges them. -/
theorem Inv.merge (h : Inv n E G K) (hi : i < n) (hs : (K i).state = .kFollower)
    {args : AppendEntriesArgs} (hT : (K i).currentTerm = args.term) (hok : AppendOK n G args)
    (hprev : args.prevLogIndex ≤ lastIndexOf (K i).logs)
    (hmatch : (K i).snapshotIndex ≤ args.prevLogIndex →
      (entryAt (K i).snapshotIndex (K i).logs args.prevLogIndex).term = args.prevLogTerm)
    {w : MergeState} (hms : w.logs = (K i).logs) {v : Int}
    (hci : v = (K i).commitIndex ∨ ((K i).commitIndex ≤ v ∧
      v = min args.leaderCommit (args.prevLogIndex + args.entries.length))) :
    Moves n E G K i { K i with
      logs := (args.entries.foldl (mergeEntry (K i).snapshotIndex) w).logs
      commitIndex := v } fun G' => ∃ m : Nat,
        args.prevLogIndex + args.entries.length = m ∧ Acks (majority n) G'.L i args.term m := by
  have node := h.node i hi
  obtain ⟨ho, ⟨k, m, hk, hkm, hm, hpt, hes⟩, cL, hcL, hsetL⟩ := hok
  have hiT : G.L.term i = args.term := node.term.trans hT
  have hsh := node.shows
  have hlen := AppendOK.length_le hkm hm hes
  have hbase := h.wf.settled_hist ((h.wf.settled i).mono le_rfl hiT.le) ho
  have hkl : k ≤ (G.L.log i).length := by
    have := hsh.lastIndexOf_eq
    omega
  -- the logs agree before the entries
  have hstart : Merged (G.L.base i) (G.L.log i) (G.L.hist args.term) k (G.L.log i) := by
    refine .inl ⟨rfl, ?_, max_le hsh.le hkl⟩
    by_cases hb : G.L.base i ≤ k
    · rw [Nat.max_eq_right hb]
      refine h.match_prefix hiT ho hb hkl hkm hm ?_
      rw [← hpt, ← hmatch (by rw [hsh.index, hk]; exact_mod_cast hb), hk, hsh.entryAt_term hb hkl]
    · rw [Nat.max_eq_left (by omega)]
      exact hbase
  obtain ⟨l, hshow, hmerged⟩ := Shows.mergeAll (h.aligned args.term)
    (fun p a c hb ha hc ht => h.same_entry hb ha hc ht) args.entries k w (G.L.log i)
    (hms ▸ hsh) hstart hes
  obtain ⟨L', hx, hwf, hhist, hopen, hterm, hbs, hlogn, hlogi, hack⟩ :=
    h.merged hiT ho hlen hmerged
  obtain ⟨c, hc, hset⟩ := node.commit
  rw [hiT] at hset
  have hkeep : G.owner args.term = i → l = G.L.log i := by
    intro hown
    have hl := h.ownLog _ ho (by rw [hown, hiT])
    rw [hown] at hl
    rcases hmerged with ⟨rfl, -, -⟩ | ⟨-, -, hne⟩
    · rfl
    · exact absurd (by rw [hl]) hne
  have hold : G.L.Settled (majority n) l c args.term := by
    rcases hmerged with ⟨rfl, -, -⟩ | ⟨-, rfl, hne⟩
    · exact hset
    · have hH := h.wf.settled_hist hset ho
      have hcm : c < k + args.entries.length := by
        by_contra hge
        exact hne (take_of_take hH (by omega))
      refine hset.congr ?_
      rw [hH, List.take_take, Nat.min_eq_left hcm.le]
  have hcommit : ∃ d : Nat, v = d ∧ G.L.Settled (majority n) l d args.term := by
    rcases hci with rfl | ⟨-, hci⟩
    · exact ⟨c, hc, hold⟩
    · refine ⟨min cL (k + args.entries.length), by rw [hci, hcL, hk]; omega, ?_⟩
      refine (hsetL.mono (Nat.min_le_left _ _) le_rfl).congr ?_
      exact (take_of_take hmerged.take (Nat.min_le_right _ _)).symm
  refine h.local hwf hx hhist hopen hlogn (fun j _ => congrFun hbs j) (fun j _ => congrFun hterm j)
    ?_ ?_ ?_ ?_ ⟨k + args.entries.length, by rw [hk]; push_cast; rfl, hack⟩
  · obtain ⟨d, hd, hsd⟩ := hcommit
    refine ⟨?_, ?_, node.nonneg, ⟨d, hd, ?_⟩, ⟨node.applied.1, ?_⟩, node.votes,
      fun hl => by simp [hs] at hl, fun hl => by simp [hs] at hl⟩
    · simpa only [hlogi, hbs] using hshow
    · simpa only [hterm] using node.term
    · simpa only [hlogi, hterm, hiT] using hsd.ext hx
    · have hap := node.applied.2
      rcases hci with rfl | ⟨hle, -⟩
      · exact hap
      · exact hap.trans hle
  · intro U hoU hown hU
    have hUT : U = args.term := by rw [← hU, hterm, hiT]
    subst hUT
    rw [hlogi, hkeep hown]
    have hl := h.ownLog _ ho (by rw [hown, hiT])
    rwa [hown] at hl
  · intro U d hv
    rw [hterm]
    exact (h.voted i U d hv).2.2.2
  · intro U a _ hcand
    simp [hs] at hcand

/-- A node answers for what it committed. -/
theorem Inv.vouch (h : Inv n E G K) (hi : i < n) {m : Nat} (hm : (m : Int) ≤ (K i).commitIndex) :
    Moves n E G K i (K i) fun G' => Acks (majority n) G'.L i (K i).currentTerm m := by
  have node := h.node i hi
  obtain ⟨c, hc, hcom⟩ := node.commit
  have hset : G.L.Settled (majority n) (G.L.log i) m (G.L.term i) := hcom.mono (by omega) le_rfl
  have hx := ext_keep (L := G.L) i m
  refine h.local (h.wf.keep hset) hx rfl rfl (fun _ _ => rfl) (fun _ _ => rfl)
    (fun _ _ => rfl) ?_ (fun T ho hown hT => ?_) (fun T c hv => (h.voted i T c hv).2.2.2)
    (fun T a ha => ?_) ((hset.mono le_rfl node.term.le).acks_keep i)
  · exact node.frame hx rfl rfl rfl (fun _ => ⟨rfl, rfl⟩) (fun ho hown => ⟨ho, hown⟩) fun _ hv => hv
  · have hl := h.ownLog T ho (by rw [hown]; exact hT)
    rwa [hown] at hl
  · obtain ⟨-, had, -, -, hcamp⟩ := h.asks i T a ha
    exact hcamp.frame h.wf (h.wf.keep hset) hx had rfl

/-- The log of `i` with the first `x` entries of `m`. -/
theorem Tail.spliced (h : Draft n E G K) {l m : List LogEntry} {x : Nat} {T : Int}
    (hset : G.L.Settled (majority n) m x T) (ht : Tail G.L l T) :
    Tail G.L (splice m x l) T ∧ l.length ≤ (splice m x l).length ∧
      (l = G.L.hist T → splice m x l = l) := by
  obtain ⟨ho, hl⟩ := ht
  have hm := h.wf.settled_hist hset ho
  have hlen := hset.le_length
  by_cases hx : x ≤ l.length
  · have hself : splice m x l = l := by
      refine splice_self (hm.trans ?_)
      rw [hl, List.take_take, Nat.min_eq_left hx]
    rw [hself]
    exact ⟨⟨ho, hl⟩, le_rfl, fun _ => rfl⟩
  · have hcut : splice m x l = (G.L.hist T).take x := by
      rw [splice, List.drop_eq_nil_of_le (by omega), List.append_nil, hm]
    have hxl := length_of_take hm.symm hlen
    have hcl : ((G.L.hist T).take x).length = x := by
      rw [List.length_take, Nat.min_eq_left hxl]
    rw [hcut, hcl]
    refine ⟨⟨ho, by rw [hcl]⟩, by omega, fun heq => ?_⟩
    rw [heq] at hx
    exact absurd hxl hx

/-- A settled prefix is a prefix of the history of some term. -/
theorem Draft.settled_source (h : Draft n E G K) {l : List LogEntry} {x : Nat} {T : Int}
    (hset : G.L.Settled (majority n) l x T) : ∃ m, Aligned m ∧ m.take x = l.take x ∧
      G.L.Settled (majority n) m x T := by
  rcases hset with rfl | ⟨U, p, hc, hle, hU, htk⟩
  · exact ⟨[], Aligned.nil, by simp, .inl rfl⟩
  · exact ⟨G.L.hist U, h.aligned U, htk.symm, .inr ⟨U, p, hc, hle, hU, rfl⟩⟩

/-- A settled entry is in the history of some term, with its position as its index. -/
theorem Draft.settled_mem (h : Draft n E G K) {l : List LogEntry} {x p : Nat} {T : Int} {e : LogEntry}
    (hset : G.L.Settled (majority n) l x T) (he : l[p]? = some e) (hp : p < x) :
    (∃ U, e ∈ G.L.hist U) ∧ e.index = p+1 := by
  rcases hset with rfl | ⟨U, q, -, -, -, htk⟩
  · omega
  · have hU := (getElem?_of_take htk hp).symm.trans he
    exact ⟨⟨U, List.mem_of_getElem? hU⟩, h.aligned U p e hU⟩

/-- The end of a log whose first `x` entries were replaced. -/
theorem Stands.last_splice (h : Draft n E G K) {l m : List LogEntry} {x : Nat} {T : Int}
    (hT : 0 < T) (hset : G.L.Settled (majority n) m x T)
    (hl : (G.L.lastOf l).1 = T → Tail G.L l T) (hlast : (G.L.lastOf (splice m x l)).1 = T) :
    Tail G.L (splice m x l) T := by
  have hlen := hset.le_length
  by_cases hx : x < l.length
  · refine (Tail.spliced h hset (hl ?_)).1
    rw [h.lastOf_eq] at hlast ⊢
    obtain ⟨p, hp⟩ : ∃ p, l.length = p+1 := ⟨l.length-1, by omega⟩
    have hsl : (splice m x l).length = p+1 := by
      rw [splice, List.length_append, List.length_take, List.length_drop]
      omega
    have hge : l[p]? = some l[p] := List.getElem?_eq_getElem (by omega)
    rw [hsl, termAt_succ ((splice_get hlen (by omega)).trans hge)] at hlast
    simpa only [hp, termAt_succ hge] using hlast
  · -- all that is left comes from the settled prefix
    have hcut : splice m x l = m.take x := by
      rw [splice, List.drop_eq_nil_of_le (by omega), List.append_nil]
    have hcl : (m.take x).length = x := by
      rw [List.length_take, Nat.min_eq_left hlen]
    rw [hcut, h.lastOf_eq, hcl] at hlast
    rcases hset with rfl | ⟨U, p, hc, hle, hU, htk⟩
    · simp at hlast
      omega
    obtain ⟨q, rfl⟩ | rfl : (∃ q, x = q+1) ∨ x = 0 := by
      rcases x with - | q
      · exact .inr rfl
      · exact .inl ⟨q, rfl⟩
    · rw [htk] at hlast hcut
      have hl' := hc.lt
      have hq : (G.L.hist U)[q]? = some (G.L.hist U)[q] := List.getElem?_eq_getElem (by omega)
      have hterm : termAt ((G.L.hist U).take (q+1)) (q+1) = (G.L.hist U)[q].term :=
        termAt_succ (by rw [List.getElem?_take, if_pos (by omega), hq])
      have hUT : U = T := by
        have hst := h.wf.hist_le U q _ hq
        have hqT : (G.L.hist U)[q].term = T := hterm.symm.trans hlast
        rw [stamp_eq, hqT] at hst
        exact le_antisymm hU hst
      subst hUT
      refine ⟨hc.1, ?_⟩
      rw [hcut, List.length_take, Nat.min_eq_left (by omega)]
    · simp at hlast
      omega

/-- The log of a node gets a settled prefix, and its base moves behind it. -/
theorem Inv.rebase (h : Inv n E G K) (hi : i < n) {l : List LogEntry} {x : Nat}
    (hset : G.L.Settled (majority n) l x (K i).currentTerm)
    (hb : (K i).snapshotIndex ≤ x) :
    Moves n E G K i { K i with
      snapshotIndex := x
      snapshotTerm := termAt l x
      logs := cutLogs (K i).logs ((x : Int) - (K i).snapshotIndex).toNat (termAt l x) x
      commitIndex := max (K i).commitIndex x
      lastApplied := max (K i).lastApplied x } fun _ => True := by
  have node := h.node i hi
  obtain ⟨m, hal, hml, hsm⟩ := h.settled_source hset
  have hsh := node.shows
  have hbx : G.L.base i ≤ x := by
    have := hsh.index
    omega
  have hsi : G.L.Settled (majority n) m x (G.L.term i) := by rwa [node.term]
  have hlen := hsm.le_length
  have hx := ext_rebase (L := G.L) i (splice m x (G.L.log i)) x
  have hlog : (G.L.rebase i (splice m x (G.L.log i)) x).log i = splice m x (G.L.log i) := by
    simp [Ledger.rebase]
  have hbase : (G.L.rebase i (splice m x (G.L.log i)) x).base i = x := by simp [Ledger.rebase]
  have hsame : G.L.opened (K i).currentTerm → G.L.log i = G.L.hist (K i).currentTerm →
      splice m x (G.L.log i) = G.L.log i := by
    intro ho hl
    exact (Tail.spliced h.toDraft hsm ⟨ho, by rw [hl, List.take_length]⟩).2.2 hl
  have hcut := hsh.cut hbx hlen hal
  rw [termAt_congr hml] at hcut
  refine h.local (h.wf.rebase hsi hbx) hx rfl rfl (fun j hj => by simp [Ledger.rebase, hj])
    (fun j hj => by simp [Ledger.rebase, hj]) (fun _ _ => rfl) ?_ ?_ ?_ ?_ trivial
  · refine ⟨?_, node.term, node.nonneg, ?_, ⟨le_max_right _ _, ?_⟩, node.votes, fun hl => ?_,
      fun hc => ?_⟩
    · simpa only [hlog, hbase] using hcut
    · obtain ⟨c, hc, hsc⟩ := node.commit
      refine ⟨max c x, by simp only [hc]; omega, ?_⟩
      simp only [hlog]
      rcases le_total c x with hcx | hxc
      · rw [Nat.max_eq_right hcx]
        exact (hsi.ext hx).congr (splice_take hlen le_rfl).symm
      · have hag := h.wf.settled_agree hsi hsc
        rw [Nat.min_eq_left hxc] at hag
        rw [Nat.max_eq_left hxc]
        exact (hsc.ext hx).congr (by rw [splice_self hag])
    · exact max_le_max_right _ node.applied.2
    · have leads := node.leads hl
      refine ⟨leads.opened, leads.owner, ?_, leads.self.ext hx, fun s => ?_, leads.next⟩
      · rw [hlog, hsame leads.opened leads.log]
        exact leads.log
      · obtain ⟨k, hk, ha⟩ := leads.matched s
        exact ⟨k, hk, ha.ext hx⟩
    · have stands := node.stands hc
      refine ⟨stands.fresh, stands.granted, fun hlast => ?_⟩
      simp only [hlog] at hlast ⊢
      have hT := (node.votes (by simp only at hc; simp [hc])).2
      exact (Stands.last_splice h.toDraft hT hsm stands.last hlast).ext hx
  · intro T ho hown hT
    have hl := h.ownLog T ho (by rw [hown]; exact hT)
    have hTi : T = (K i).currentTerm := hT.symm.trans node.term
    rw [hown] at hl
    subst hTi
    rw [hlog, hsame ho hl, hl]
  · intro T c hv
    exact (h.voted i T c hv).2.2.2
  · intro T a ha hc hT
    obtain ⟨-, had, -, -, hcamp⟩ := h.asks i T a ha
    obtain ⟨hcov, htail⟩ := hcamp hc hT
    have hTi : (K i).currentTerm = T := hT
    subst hTi
    simp only [hlog]
    refine ⟨fun U p hU hp hbel => ?_, fun haT => ?_⟩
    · exact (h.wf.carries_splice hsm hp (hcov U p hU hp hbel)).ext hx hp.lt
    · obtain ⟨hle, htl⟩ := htail haT
      obtain ⟨htl', hle', -⟩ := Tail.spliced h.toDraft hsm htl
      exact ⟨hle.trans hle', htl'.ext hx⟩

/-- A leader commits an index that a quorum holds and whose entry is of its own term. -/
theorem Inv.commit (h : Inv n E G K) (hi : i < n) (hs : (K i).state = .kLeader) {c : Nat}
    (hq : (majority n).IsQuorum {s | if s = i then (c : Int) ≤ lastIndexOf (K i).logs
      else (c : Int) ≤ (K i).matchIndex.getD s 0})
    (hc : (K i).commitIndex < c) (hl : (c : Int) ≤ lastIndexOf (K i).logs)
    (ht : (entryAt (K i).snapshotIndex (K i).logs c).term = (K i).currentTerm) :
    Moves n E G K i { K i with commitIndex := c } fun _ => True := by
  have node := h.node i hi
  have leads := node.leads hs
  have hsh := node.shows
  have hsi := hsh.index
  have hap := node.applied
  have hlen := hsh.lastIndexOf_eq
  obtain ⟨p, rfl⟩ : ∃ p, c = p+1 := ⟨c-1, by omega⟩
  rw [hsh.entryAt_term (by omega) (by omega), leads.log] at ht
  have hlh : (G.L.log i).length = (G.L.hist (K i).currentTerm).length := by rw [leads.log]
  have hp : (G.L.hist (K i).currentTerm)[p]? = some (G.L.hist (K i).currentTerm)[p] :=
    List.getElem?_eq_getElem (by omega)
  rw [termAt_succ hp] at ht
  have hset : G.L.Settled (majority n) (G.L.log i) (p+1) (K i).currentTerm := by
    rw [leads.log]
    refine h.wf.settled_of_acks hq (fun q hqA => ?_) ⟨_, hp, ht⟩
    by_cases hqi : q = i
    · subst hqi
      exact leads.self.mono (by omega)
    · obtain ⟨k, hk, hack⟩ := leads.matched q
      have hle : ((p+1 : Nat) : Int) ≤ (K i).matchIndex.getD q 0 := by simpa [hqi] using hqA
      exact hack.mono (by omega)
  refine h.keep hi rfl rfl rfl rfl rfl rfl ⟨hap.1, hap.2.trans hc.le⟩ ⟨p+1, rfl, ?_⟩
    (fun _ => ⟨leads.opened, leads.owner, leads.log, leads.self, leads.matched, leads.next⟩)
    (fun hcand => by simp [hs] at hcand)
  rwa [node.term]

/-- A leader learns how far the others are. -/
theorem Inv.lead (h : Inv n E G K) (hi : i < n) (hs : (K i).state = .kLeader) {u v : List Int}
    (hm : ∀ s, ∃ m : Nat, v.getD s 0 = m ∧ Acks (majority n) G.L s (K i).currentTerm m)
    (hn : ∀ s, u.getD s 0 ≤ lastIndexOf (K i).logs + 1) :
    Moves n E G K i { K i with nextIndex := u, matchIndex := v } fun _ => True := by
  have node := h.node i hi
  have leads := node.leads hs
  refine h.keep hi rfl rfl rfl rfl rfl rfl node.applied node.commit (fun _ => ?_)
    fun hcand => by simp [hs] at hcand
  refine ⟨leads.opened, leads.owner, leads.log, leads.self, hm, fun s => ?_⟩
  rw [← leads.log, ← node.shows.lastIndexOf_eq]
  exact hn s

theorem getD_replicate_le {m s : Nat} {x : Int} (hx : 0 ≤ x) : (List.replicate m x).getD s 0 ≤ x := by
  rw [List.getD_eq_getElem?_getD, List.getElem?_replicate]
  split <;> simp [hx]

theorem getD_replicate_zero (m s : Nat) : (List.replicate m (0 : Int)).getD s 0 = (0 : Nat) := by
  rw [List.getD_eq_getElem?_getD, List.getElem?_replicate]
  split <;> simp

/-- The positions that a new leader starts from. -/
theorem Inv.leadFresh (h : Inv n E G K) (hi : i < n) (hs : (K i).state = .kLeader) {p : Nat} {x : Int}
    (hx : x = lastIndexOf (K i).logs + 1) :
    Moves n E G K i { K i with
      nextIndex := List.replicate p x, matchIndex := List.replicate p 0 } fun _ => True := by
  have hlast := (h.node i hi).shows.lastIndexOf_eq
  refine h.lead hi hs (fun s => ⟨0, getD_replicate_zero p s, .inl (Nat.zero_le _)⟩) fun s => ?_
  rw [← hx]
  exact getD_replicate_le (by omega)

end ChonKV
