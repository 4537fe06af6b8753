import ChonKV.Durable.Aside
import ChonKV.Durable.Freeze
import ChonKV.Handler.Merge

/-!
One configuration change at a time: a leader proposes a conf entry only when it has applied those of its
log, unless it took office with one that was committed and not applied.
-/

set_option autoImplicit false

namespace ChonKV

open Assoc

theorem mem_tail_append {l new : List LogEntry} {x : LogEntry} (h : x ∈ (l ++ new).tail) :
    x ∈ l.tail ∨ x ∈ new := by
  cases l with
  | nil => exact .inr (List.mem_of_mem_tail h)
  | cons a l => simpa using h

theorem Leveled.index_of_mem {si : Int} {logs : List LogEntry} {e : LogEntry} (h : Leveled si logs)
    (he : e ∈ logs.tail) :
    si < e.index ∧ e.index ≤ lastIndexOf logs ∧ entryAt si logs e.index = e := by
  obtain ⟨k, hk⟩ := List.mem_iff_getElem?.mp he
  rw [List.getElem?_tail] at hk
  have hidx := h.numbered.get hk
  have hlen := h.lastIndexOf_eq
  have hlt := (List.getElem?_eq_some_iff.mp hk).1
  refine ⟨by omega, by omega, ?_⟩
  have hpos : (e.index - si).toNat = k + 1 := by omega
  rw [entryAt, List.getD_eq_getElem?_getD, hpos, hk, Option.getD_some]

/-- The entries of a request bring nothing else into the log. -/
theorem mem_tail_foldl_mergeEntry {si : Int} {es : List LogEntry} {m : MergeState} {x : LogEntry}
    (h : x ∈ (es.foldl (mergeEntry si) m).logs.tail) : x ∈ m.logs.tail ∨ x ∈ es := by
  induction es generalizing m with
  | nil => exact .inl h
  | cons e es ih =>
    obtain hm | hes := ih h
    · rw [mergeEntry] at hm
      split_ifs at hm
      · exact .inl hm
      · obtain htake | he := mem_tail_append hm
        · rw [← List.drop_one, List.drop_take, List.drop_one] at htake
          exact .inl (List.mem_of_mem_take htake)
        · exact .inr (by simp [List.mem_singleton.mp he])
      · exact .inl hm
      · obtain hold | he := mem_tail_append hm
        · exact .inl hold
        · exact .inr (by simp [List.mem_singleton.mp he])
    · exact .inr (List.mem_cons_of_mem _ hes)

/-- A scan keeps the last place that it finds. -/
theorem foldl_last_le {p : Nat → Prop} [DecidablePred p] {c : Nat → Int} {n k : Nat} (hk : k < n)
    (hp : p k) (acc : Int) :
    ∃ m, k ≤ m ∧ (List.range n).foldl (fun acc k => if p k then c k else acc) acc = c m := by
  induction n with
  | zero => omega
  | succ n ih =>
    rw [List.range_succ, List.foldl_append]
    simp only [List.foldl_cons, List.foldl_nil]
    by_cases hn : p n
    · exact ⟨n, by omega, if_pos hn⟩
    · rw [if_neg hn]
      refine ih ?_
      by_contra hge
      have heq : n = k := by omega
      exact hn (heq ▸ hp)

namespace Raft

/-- The conf entries of the log are applied, or not beyond the one in flight. -/
def Flight (r : Raft) : Prop :=
  ∀ e ∈ r.logs.tail, e.type = .kConfChange →
    e.index ≤ r.lastApplied ∨ (r.pendingConfIndex ≠ 0 ∧ e.index ≤ r.pendingConfIndex)

/-- Every conf entry of the log is applied, or one that is not committed is there from it on. -/
def ConfsApplied (r : Raft) : Prop :=
  ∀ e ∈ r.logs.tail, e.type = .kConfChange → e.index ≤ r.lastApplied ∨
    ∃ e' ∈ r.logs.tail, e'.type = .kConfChange ∧ e.index ≤ e'.index ∧ r.commitIndex < e'.index

instance (r : Raft) : Decidable r.ConfsApplied := by
  unfold ConfsApplied
  infer_instance

/-- The applier may go on at `idx`: what is before it is applied, and nothing from it on but what the
snapshot covers. -/
def ReadyAt (r : Raft) (idx : Int) : Prop :=
  idx - 1 ≤ r.lastApplied ∧ r.lastApplied ≤ max (idx - 1) r.snapshotIndex

/-- What a stretch of a handler keeps. -/
structure Flies (r r' : Raft) : Prop where
  flight : (r.state = .kLeader → r.Flight) → r'.state = .kLeader → r'.Flight
  ready : r'.Level → ∀ idx, r.ReadyAt idx → r'.ReadyAt idx

variable {r r' r'' : Raft} {e : LogEntry} {idx : Int}

theorem Calm.parts (h : Calm r r') : r'.logs = r.logs ∧ r'.snapshotIndex = r.snapshotIndex ∧
    r'.lastApplied = r.lastApplied ∧ r'.pendingConfIndex = r.pendingConfIndex := by
  have hf := h.flight
  simp only [flightPart, Prod.mk.injEq] at hf
  exact hf

theorem Calm.level (hc : Calm r r') (h : r.Level) : r'.Level := by
  obtain ⟨hlogs, hsi, -, -⟩ := hc.parts
  refine ⟨hsi ▸ h.pos, ?_⟩
  rw [hlogs, hsi]
  exact h.log

theorem Calm.level_before (hc : Calm r r') (h : r'.Level) : r.Level := by
  obtain ⟨hlogs, hsi, -, -⟩ := hc.parts
  have hlog := h.log
  rw [hlogs, hsi] at hlog
  exact ⟨hsi ▸ h.pos, hlog⟩

/-- A log whose conf entries were there before, on a node that has applied no less. -/
theorem Flight.of_subset (h : r.Flight) (hlogs : ∀ e ∈ r'.logs.tail, e.type = .kConfChange → e ∈ r.logs.tail)
    (happlied : r.lastApplied ≤ r'.lastApplied) (hpending : r'.pendingConfIndex = r.pendingConfIndex) :
    r'.Flight := by
  intro e he hconf
  rw [hpending]
  exact (h e (hlogs e he hconf) hconf).imp_left fun hle => hle.trans happlied

theorem Flies.of_subset (hlogs : ∀ e ∈ r'.logs.tail, r.state = .kLeader → e.type = .kConfChange →
      e ∈ r.logs.tail)
    (hsi : r'.snapshotIndex = r.snapshotIndex) (happlied : r'.lastApplied = r.lastApplied)
    (hpending : r'.pendingConfIndex = r.pendingConfIndex)
    (hleader : r'.state = .kLeader → r.state = .kLeader) : Flies r r' where
  flight h hl := (h (hleader hl)).of_subset (fun e he => hlogs e he (hleader hl)) happlied.ge hpending
  ready _ idx h := by
    rw [ReadyAt, happlied, hsi]
    exact h

theorem Calm.flies (h : Calm r r') : Flies r r' := by
  obtain ⟨hlogs, hsi, happlied, hpending⟩ := h.parts
  exact .of_subset (fun e he _ _ => hlogs ▸ he) hsi happlied hpending h.leader

/-- What comes before it keeps as much. -/
theorem Calm.flies_after (hc : Calm r' r'') (h : Flies r r') : Flies r r'' where
  flight hr hl := hc.flies.flight (h.flight hr) hl
  ready hlevel idx hr := hc.flies.ready hlevel idx (h.ready (hc.level_before hlevel) idx hr)

theorem Calm.then_flies (hc : Calm r r') (h : Flies r' r'') : Flies r r'' where
  flight hr hl := h.flight (hc.flies.flight hr) hl
  ready hlevel idx hr := by
    obtain ⟨-, hsi, happlied, -⟩ := hc.parts
    refine h.ready hlevel idx ?_
    rw [ReadyAt, happlied, hsi]
    exact hr

theorem scanPendingConf_eq (r : Raft) : r.scanPendingConf =
    (List.range (r.lastLogIndexLocked - r.commitIndex).toNat).foldl (fun acc (k : Nat) =>
      if r.inLogs (r.commitIndex + 1 + k) ∧ (r.logAt (r.commitIndex + 1 + k)).type = .kConfChange then
        r.commitIndex + 1 + k
      else acc) 0 := by
  simp [scanPendingConf, ← List.map_eq_flatMap, List.foldl_map]

/-- The scan of a new leader finds the last conf entry that is not committed. -/
theorem scanPendingConf_covers (h : r.Level) (he : e ∈ r.logs.tail) (hconf : e.type = .kConfChange)
    (hcommit : r.commitIndex < e.index) :
    r.scanPendingConf ≠ 0 ∧ e.index ≤ r.scanPendingConf := by
  obtain ⟨hlt, hle, hentry⟩ := h.log.index_of_mem he
  have hlen := h.log.lastIndexOf_eq
  have hpos := h.pos
  have hci : r.commitIndex + 1 + ((e.index - r.commitIndex - 1).toNat : Int) = e.index := by omega
  obtain ⟨m, hm, hscan⟩ := foldl_last_le (p := fun k : Nat =>
      r.inLogs (r.commitIndex + 1 + k) ∧ (r.logAt (r.commitIndex + 1 + k)).type = .kConfChange)
    (c := fun k : Nat => r.commitIndex + 1 + k)
    (n := (r.lastLogIndexLocked - r.commitIndex).toNat) (k := (e.index - r.commitIndex - 1).toNat)
    (by rw [lastLogIndexLocked]; omega)
    (by
      rw [hci]
      refine ⟨⟨hlt.le, by omega⟩, ?_⟩
      rw [logAt, hentry]
      exact hconf) 0
  rw [scanPendingConf_eq, hscan]
  omega

theorem appendNoop_parts (r : Raft) : ∃ new, (∀ e ∈ new, e.type ≠ .kConfChange) ∧
    r.appendNoop.logs = r.logs ++ new ∧ r.appendNoop.snapshotIndex = r.snapshotIndex ∧
    r.appendNoop.lastApplied = r.lastApplied ∧ r.appendNoop.commitIndex = r.commitIndex := by
  rw [appendNoop]
  dsimp only
  split_ifs
  · exact ⟨_, by simp, rfl, rfl, rfl, rfl⟩
  · rw [persistLocked]
    split_ifs <;> exact ⟨_, by simp, rfl, rfl, rfl, rfl⟩
  · exact ⟨[], by simp, by simp, rfl, rfl, rfl⟩

/-- A node takes office where the conf entries of its log are applied, but for those before one that
its scan finds. -/
theorem flies_becomeLeaderIfQuorumLocked (h : r.Level) (now : Int)
    (happlied : (r.becomeLeaderIfQuorumLocked now).state = .kLeader → r.state ≠ .kLeader → r.ConfsApplied) :
    Flies r (r.becomeLeaderIfQuorumLocked now) := by
  by_cases hno : r.state ≠ .kCandidate ∨ ¬ r.voter r.me ∨ r.countGrantedVotesLocked < r.quorumSizeLocked
  · rw [becomeLeaderIfQuorumLocked, if_pos hno]
    exact (Calm.refl r).flies
  have hwas : r.state ≠ .kLeader := by
    intro hl
    exact hno (.inl (by simp [hl]))
  obtain ⟨new, hnew, hlogs, hsi, hla, hci⟩ := appendNoop_parts { r with lastQuorumCheck := now }
  have hlevel₀ : Level { r with lastQuorumCheck := now } := ⟨h.pos, h.log⟩
  have hlevel := hlevel₀.edited (edited_appendNoop _)
  rw [becomeLeaderIfQuorumLocked, if_neg hno] at happlied ⊢
  have happlied := happlied rfl hwas
  refine ⟨fun _ _ e he hconf => ?_, fun _ idx hr => ?_⟩
  · have hold : ∀ x ∈ ({ r with lastQuorumCheck := now } : Raft).appendNoop.logs.tail,
        x.type = .kConfChange → x ∈ r.logs.tail := by
      intro x hx hxc
      rw [hlogs] at hx
      exact (mem_tail_append hx).resolve_right fun hmem => hnew x hmem hxc
    cases happlied e (hold e he hconf) hconf with
    | inl hle => exact .inl (hla ▸ hle)
    | inr hcovers =>
      obtain ⟨e', he', hconf', hle, hlt⟩ := hcovers
      have hthere : e' ∈ ({ r with lastQuorumCheck := now } : Raft).appendNoop.logs.tail := by
        rw [hlogs, List.tail_append_of_ne_nil h.log.held]
        exact List.mem_append_left _ he'
      have hscan := scanPendingConf_covers hlevel hthere hconf' (hci ▸ hlt)
      exact .inr ⟨hscan.1, hle.trans hscan.2⟩
  · rw [ReadyAt] at hr ⊢
    dsimp only
    rw [hla, hsi]
    exact hr

theorem flies_voteReply (h : r.Level) (args : RequestVoteArgs) (i : Nat) (reply : RequestVoteReply)
    (now : Int)
    (happlied : (r.voteReply args i reply now).state = .kLeader → r.state ≠ .kLeader → r.ConfsApplied) :
    Flies r (r.voteReply args i reply now) := by
  rw [voteReply] at happlied ⊢
  split_ifs at happlied ⊢
  · exact (Calm.refl r).flies
  · exact (calm_stepDownTo r _ now).flies
  · have hcount : Calm r { r with numVotes := r.numVotes + 1, voteGranted := r.voteGranted.set i 1 } :=
      ⟨⟨id, rfl⟩, rfl, id⟩
    exact hcount.then_flies (flies_becomeLeaderIfQuorumLocked (hcount.level h) now happlied)
  · exact (Calm.refl r).flies

theorem flies_start (r : Raft) (command : Command) : Flies r (r.start command).1 := by
  have hpush : ∀ e : LogEntry, e.type ≠ .kConfChange →
      Flies r { r with logs := r.logs ++ [e], logStore := r.logStore.append e } := by
    intro e he
    refine .of_subset (fun x hx _ hconf => ?_) rfl rfl rfl id
    refine (mem_tail_append hx).resolve_right fun hmem => he ?_
    rw [← List.mem_singleton.mp hmem]
    exact hconf
  rw [start]
  split_ifs
  · exact (Calm.refl r).flies
  · exact (Calm.refl r).flies
  · exact (Calm.refl r).flies
  · refine (calm_advanceCommitIndexLocked _).flies_after ?_
    rw [persistLog]
    split_ifs
    · exact hpush _ (by simp)
    · exact (calm_persistLocked _).flies_after (hpush _ (by simp))

/-- The entry that is proposed is beyond the others. -/
theorem flies_confProposed {server : Int} {target : MemberRole} (hlevel : r.Level)
    (h : r.confProposed server target = some r') : Flies r r' := by
  rw [confProposed] at h
  simp only [Option.ite_none_left_eq_some] at h
  obtain ⟨-, -, -, -, -, -, h⟩ := h
  cases h
  have hlen := hlevel.log.lastIndexOf_eq
  have hheld := hlevel.log.length_pos
  have hpos := hlevel.pos
  refine (calm_persistLocked _).flies_after ⟨fun _ _ e he hconf => ?_, fun _ idx hr => hr⟩
  have hlast : e.index ≤ r.lastLogIndexLocked + 1 := by
    obtain hold | hmem := mem_tail_append he
    · have hle := (hlevel.log.index_of_mem hold).2.1
      rw [lastLogIndexLocked]
      omega
    · rw [List.mem_singleton.mp hmem]
  refine .inr ⟨?_, hlast⟩
  dsimp only
  rw [lastLogIndexLocked]
  omega

/-- Entries that a node merges bring conf entries into the log of a follower only. -/
theorem flies_appendEntriesLocked (args : AppendEntriesArgs) (reply : AppendEntriesReply)
    (hold : r.state = .kLeader → ∀ e ∈ args.entries, e.type = .kConfChange → e ∈ r.logs.tail) :
    Flies r (r.appendEntriesLocked args reply).1 := by
  have hmerge : Flies r (r.mergeLocked args) := by
    have hset : ∀ store, Flies r { r with
        logs := (args.entries.foldl (mergeEntry r.snapshotIndex)
          { logs := r.logs, logStore := r.logStore }).logs
        logStore := store } := by
      intro store
      refine .of_subset (fun x hx hl hconf => ?_) rfl rfl rfl id
      exact (mem_tail_foldl_mergeEntry hx).elim id fun hmem => hold hl x hmem hconf
    rw [mergeLocked]
    dsimp only
    split_ifs
    · exact (calm_persistLocked _).flies_after (hset _)
    · exact hset _
  rw [appendEntriesLocked]
  split_ifs
  · exact (Calm.refl r).flies
  · exact (Calm.refl r).flies
  · have hcommit : Calm (r.mergeLocked args) ((r.mergeLocked args).followCommit args) := by
      rw [followCommit]
      split_ifs <;> exact ⟨⟨id, rfl⟩, rfl, id⟩
    exact hcommit.flies_after hmerge

theorem ReadyAt.mono (h : r.ReadyAt idx) (happlied : r'.lastApplied = r.lastApplied)
    (hsi : r.snapshotIndex ≤ r'.snapshotIndex) : r'.ReadyAt idx := by
  rw [ReadyAt] at h ⊢
  omega

/-- A snapshot takes nothing into the log. -/
theorem mem_of_mem_cutLogs {logs : List LogEntry} {pos : Nat} {t i : Int} (h : e ∈ (cutLogs logs pos t i).tail) :
    e ∈ logs.tail := by
  rw [cutLogs, List.tail_cons, ← List.drop_tail] at h
  exact List.mem_of_mem_drop h

theorem flies_snapshotCut (index term : Int) (data : Bytes) (h : r.snapshotIndex ≤ index) :
    Flies r (r.snapshotCut index term data) where
  flight hr hl := (hr hl).of_subset (fun _ he _ => mem_of_mem_cutLogs he) le_rfl rfl
  ready _ _ hready := hready.mono rfl h

/-- A snapshot that is not stale is beyond what is applied. -/
theorem readyAt_installBegin {args : InstallSnapshotArgs} (blob : Bytes) (h : r.installStale args = false)
    (hready : r.ReadyAt idx) : (r.installBegin args blob).ReadyAt idx := by
  simp only [installStale, Bool.or_eq_false_iff, decide_eq_false_iff_not] at h
  rw [ReadyAt] at hready ⊢
  dsimp only [installBegin]
  omega

theorem flight_installBegin (args : InstallSnapshotArgs) (blob : Bytes) (h : r.state = .kLeader → r.Flight) :
    (r.installBegin args blob).state = .kLeader → (r.installBegin args blob).Flight :=
  fun hl => (h hl).of_subset (fun _ he _ => he) le_rfl rfl

theorem flies_installLogs (args : InstallSnapshotArgs) (old : Int) : Flies r (r.installLogs args old) := by
  refine (calm_persistLocked _).flies_after ⟨fun hr hl => ?_, fun hlevel idx hready => ?_⟩
  · exact (hr hl).of_subset (fun e he _ => mem_of_mem_cutLogs he) (le_max_left _ _) rfl
  · have hsi : args.lastIncludedIndex = r.snapshotIndex := hlevel.log.numbered.1
    rw [ReadyAt] at hready ⊢
    dsimp only
    omega

theorem Flies.of_fields (hlogs : r'.logs = r.logs) (hsi : r'.snapshotIndex = r.snapshotIndex)
    (happlied : r'.lastApplied = r.lastApplied) (hpending : r'.pendingConfIndex = r.pendingConfIndex)
    (hstate : r'.state = r.state) : Flies r r' :=
  .of_subset (fun _ he _ _ => hlogs ▸ he) hsi happlied hpending fun hl => hstate ▸ hl

/-- The conf entry in flight is applied: none is beyond it. -/
theorem flies_landed (happlied : e.index ≤ r.lastApplied) : Flies r { r with
    pendingConfIndex := if e.index = r.pendingConfIndex then 0 else r.pendingConfIndex } where
  flight hr hl e' he' hconf := by
    cases hr hl e' he' hconf with
    | inl hle => exact .inl hle
    | inr hflight =>
      by_cases heq : e.index = r.pendingConfIndex
      · exact .inl (hflight.2.trans (heq ▸ happlied))
      · refine .inr ?_
        dsimp only
        rw [if_neg heq]
        exact hflight
  ready _ idx hready := hready

theorem flies_applyConf (idx : Int) (h : e.index ≤ r.lastApplied) : Flies r (r.applyConf idx e) := by
  have hmembers : ∀ target : MemberRole, Calm r
      (if 0 ≤ e.confServer ∧ e.confServer < r.isMember.length then
        { r with
          isMember := r.isMember.set e.confServer.toNat target
          removedAtIndex := r.removedAtIndex.set e.confServer.toNat (if target = .kRemoved then idx else -1) }
      else r) := by
    intro target
    split_ifs <;> exact ⟨⟨id, rfl⟩, rfl, id⟩
  have hm := hmembers (MemberRole.ofInt e.confRole)
  obtain ⟨-, -, happlied, -⟩ := hm.parts
  rw [applyConf]
  exact (calm_persistLocked _).flies_after (hm.then_flies (flies_landed (happlied.symm ▸ h)))

/-- The applier takes `idx`, and goes on behind it. -/
theorem flies_appliedAt (h : r.lastApplied ≤ idx) (hr : r.state = .kLeader → r.Flight) :
    ({ r with lastApplied := idx } : Raft).state = .kLeader → ({ r with lastApplied := idx } : Raft).Flight :=
  fun hl => (hr hl).of_subset (fun _ he _ => he) h rfl

/-- One turn of the batch loop keeps the flight, and leaves the next index ready. -/
theorem flight_applyTurn (h : r.Level) (hready : r.ReadyAt idx) (hr : r.state = .kLeader → r.Flight)
    (hgo : r.applyTurn idx ≠ .stop) :
    (((r.applyTurn idx).raft r).state = .kLeader → ((r.applyTurn idx).raft r).Flight) ∧
      ((r.applyTurn idx).raft r).ReadyAt (idx+1) := by
  rw [ReadyAt] at hready
  rw [applyTurn] at hgo ⊢
  by_cases hgate : 0 < r.installGateDepth
  · rw [if_pos hgate] at hgo
    exact absurd rfl hgo
  rw [if_neg hgate] at hgo ⊢
  by_cases hsnap : idx ≤ r.snapshotIndex
  · rw [if_pos hsnap]
    refine ⟨flies_appliedAt (le_max_left _ _) hr, ?_⟩
    rw [ReadyAt]
    dsimp only [ApplyTurn.raft]
    omega
  rw [if_neg hsnap] at hgo ⊢
  by_cases hin : r.inLogs idx
  · have hlen := h.log.lastIndexOf_eq
    have hidx : (r.logAt idx).index = idx := by
      refine (h.log.get hin.1 ?_).2
      have hlt := hin.2
      omega
    have htaken := flies_appliedAt (show r.lastApplied ≤ idx by omega) hr
    have hnext : ReadyAt { r with lastApplied := idx } (idx+1) := by
      rw [ReadyAt]
      dsimp only
      omega
    rw [if_neg (not_not.mpr hin)]
    dsimp only
    split_ifs
    · have hconf := flies_applyConf (r := { r with lastApplied := idx }) idx hidx.le
      have hlevel : Level { r with lastApplied := idx } := ⟨h.pos, h.log⟩
      exact ⟨hconf.flight htaken, hconf.ready (hlevel.sameLog (sameLog_applyConf _ idx _)) _ hnext⟩
    · exact ⟨htaken, hnext⟩
  · rw [if_pos hin] at hgo
    exact absurd rfl hgo

/-- The batch loop keeps the flight; where it waits at a conf entry, it may go on behind it. -/
theorem flight_applyRun (now : Int) (k : Nat) (h : r.Level) (hready : r.ReadyAt idx)
    (hr : r.state = .kLeader → r.Flight) (batch : List ApplyMsg) :
    ((r.applyRun now k idx batch).1.state = .kLeader → (r.applyRun now k idx batch).1.Flight) ∧
      ∀ k' idx', (r.applyRun now k idx batch).2.2 = some (k', idx') →
        (r.applyRun now k idx batch).1.ReadyAt idx' := by
  induction k generalizing r idx batch with
  | zero => exact ⟨hr, by simp [applyRun]⟩
  | succ k ih =>
    have hturn := flight_applyTurn h hready hr
    have hlevel := h.sameLog (sameLog_applyTurn r idx)
    rw [applyRun]
    cases ht : r.applyTurn idx with
    | stop => exact ⟨hr, by simp⟩
    | skip r' =>
      rw [ht] at hturn hlevel
      obtain ⟨hf, hn⟩ := hturn (by simp)
      exact ih hlevel hn hf batch
    | dispatch r' msg =>
      rw [ht] at hturn hlevel
      obtain ⟨hf, hn⟩ := hturn (by simp)
      exact ih hlevel hn hf (batch ++ [msg])
    | conf r' msg =>
      rw [ht] at hturn hlevel
      obtain ⟨hf, hn⟩ := hturn (by simp)
      dsimp only
      split_ifs
      · refine ⟨hf, fun k' idx' heq => ?_⟩
        cases heq
        exact hn
      · have hc := calm_applyConfAfter r' now
        exact ih (hc.level hlevel) (hc.flies.ready (hc.level hlevel) _ hn) (hc.flies.flight hf) _

/-- The buffer of a transfer has no part in it. -/
theorem flies_installReceive (args : InstallSnapshotArgs) (reply : InstallSnapshotReply) (now : Int) :
    Flies r (r.installReceive args reply now).1 := by
  have hheard : Flies r { r with lastHeartbeat := now, leaderId := args.leaderId } :=
    .of_fields rfl rfl rfl rfl rfl
  rw [installReceive]
  dsimp only
  split_ifs
  · exact hheard
  · split
    · exact hheard
    · next r' hopen =>
      have hopened : r'.flightPart = r.flightPart ∧ r'.state = r.state := by
        rw [openBuffer] at hopen
        split_ifs at hopen
        all_goals
          cases hopen
          exact ⟨rfl, rfl⟩
      have hchunk : (r'.addChunk args).1.flightPart = r'.flightPart ∧
          (r'.addChunk args).1.state = r'.state := by
        rw [addChunk]
        dsimp only
        split_ifs <;> exact ⟨rfl, rfl⟩
      have hpart := hchunk.1.trans hopened.1
      simp only [flightPart, Prod.mk.injEq] at hpart
      obtain ⟨hlogs, hsi, happlied, hpending⟩ := hpart
      exact .of_fields hlogs hsi happlied hpending (hchunk.2.trans hopened.2)

end Raft

open Raft

namespace Process

/-- A leader's conf entries are applied or in flight, and the applier stands where it may go on. -/
structure Flying (p : Process) : Prop where
  flight : p.raft.state = .kLeader → p.raft.Flight
  paused : p.raft.Level → ∀ a, p.applier = some a → p.raft.ReadyAt a.idx

/-- What keeps one change in flight: the log is numbered from its snapshot on, a node takes office where
the conf entries of its log are applied, but for those before one that is not committed, and no request
of an earlier leader brings one into the log of a leader. -/
structure Orderly (p : Process) (e : ProcessEvent) : Prop where
  level : p.raft.Level
  office : (p.step e).raft.state = .kLeader → p.raft.state ≠ .kLeader → p.raft.ConfsApplied
  stale : ∀ k now t args, e = .resume k now → p.threads[k]? = some t → t.stretch = .append args →
    p.raft.state = .kLeader → ∀ x ∈ args.entries, x.type = .kConfChange → x ∈ p.raft.logs.tail

variable {p p' : Process}

theorem applier_synced (p : Process) (res : Raft × Bool) : (p.synced res).applier = p.applier := by
  rw [synced]
  split_ifs <;> rfl

theorem applier_finishStart (p : Process) (st : Raft × ElectionStart) :
    (p.finishStart st).applier = p.applier := by
  rw [finishStart]
  split_ifs <;> rfl

theorem applier_callback (p : Process) (r : Raft) (term : Int) (st : Stretch) (r' : Raft) :
    (p.callback r term st r').applier = p.applier := by
  rw [callback]
  split_ifs <;> rfl

theorem applier_received (p : Process) (args : InstallSnapshotArgs) (now : Int) :
    (p.received args now).applier = p.applier := by
  rw [received]
  split <;> rfl

theorem applier_saveBlob (p : Process) (u : BlobUser) : (p.saveBlob u).applier = p.applier := by
  rw [Process.saveBlob]
  split_ifs <;> rfl

theorem applier_runStretch (p : Process) (now : Int) (st : Stretch) :
    (p.runStretch now st).applier = p.applier := by
  cases st with
  | prevote => exact applier_finishStart p _
  | startRealElection =>
    rw [runStretch]
    split_ifs <;> rfl
  | advanceCommit => exact applier_synced p _
  | saveBlob u => exact applier_saveBlob p u
  | snapshotCommit index term data =>
    rw [runStretch]
    split_ifs <;> rfl
  | installReceive args => exact applier_received p args now
  | installCommit args blob =>
    rw [runStretch, Process.installCommit]
    dsimp only
    split_ifs <;> rfl
  | _ => rfl

/-- `ApplyLoop` alone moves the applier. -/
def ApplierStays : ProcessEvent → Prop
  | .applyLoop _ | .applyResume _ | .restart _ => False
  | _ => True

theorem applier_step (p : Process) {e : ProcessEvent} (he : ApplierStays e) :
    (p.step e).applier = p.applier := by
  cases e with
  | electionTimeout now =>
    rw [Process.step, Process.electionTimeout]
    split_ifs
    · rfl
    · exact applier_finishStart p _
  | prevoteReply args i reply now =>
    rw [Process.step, Process.prevoteReply]
    split_ifs <;> exact applier_callback p _ _ _ _
  | voteReply args i reply now => exact applier_callback p _ _ _ _
  | readHeartbeatReply args s reply now => exact applier_callback p _ _ _ _
  | appendReply args s ok reply now =>
    rw [Process.step, Process.appendReply]
    split_ifs
    · rfl
    · exact applier_synced p _
  | snapshotReply args s ok reply now => exact applier_callback p _ _ _ _
  | requestVote args now =>
    rw [Process.step, Process.requestVote]
    split_ifs <;> rfl
  | appendEntries args now =>
    rw [Process.step, Process.appendEntries]
    dsimp only
    split_ifs <;> rfl
  | installSnapshot args now =>
    rw [Process.step, Process.installSnapshot]
    split_ifs
    · rfl
    · rfl
    · exact applier_received p args now
  | start command => exact applier_synced p _
  | proposeConf server target =>
    rw [Process.step, Process.proposeConf]
    split <;> rfl
  | snapshot index data =>
    rw [Process.step, Process.snapshot]
    split <;> rfl
  | resume k now =>
    rw [Process.step, Process.resume]
    split
    · rfl
    · split_ifs
      · exact applier_runStretch _ now _
      · rfl
  | writeBlob =>
    rw [Process.step, Process.writeBlob]
    split <;> rfl
  | flush =>
    rw [Process.step, Process.flush]
    split
    · split
      · split_ifs <;> rfl
      · rfl
    · rfl
    · rfl
  | applyLoop _ => cases he
  | applyResume _ => cases he
  | restart _ => cases he
  | _ => rfl

theorem Flying.step_of (h : p.Flying) (hlevel : p.raft.Level) (hf : Flies p.raft p'.raft)
    (happlier : p'.applier = p.applier) : p'.Flying where
  flight := hf.flight h.flight
  paused hlevel' a ha := hf.ready hlevel' a.idx (h.paused hlevel a (happlier ▸ ha))

theorem flies_voteReply (hlevel : p.raft.Level) (args : RequestVoteArgs) (i : Nat) (reply : RequestVoteReply)
    (now : Int)
    (happlied : (p.voteReply args i reply now).raft.state = .kLeader → p.raft.state ≠ .kLeader →
      p.raft.ConfsApplied) : Flies p.raft (p.voteReply args i reply now).raft := by
  rw [Process.voteReply, callback] at happlied ⊢
  split_ifs at happlied ⊢
  · exact (calm_convertToFollowerLocked _ _).flies
  · exact Raft.flies_voteReply hlevel args i reply now happlied

/-- A follower merges what it is sent at once. -/
theorem flies_appendEntries (p : Process) (args : AppendEntriesArgs) (now : Int) :
    Flies p.raft (p.appendEntries args now).raft := by
  have h : Calm p.raft (p.raft.heardLeader args now) := ⟨⟨id, rfl⟩, rfl, id⟩
  rw [Process.appendEntries]
  dsimp only
  split_ifs with _ hwait
  · exact (Calm.refl _).flies
  · exact (h.trans (calm_convertToFollowerLocked _ _)).flies
  · rw [not_or, not_not] at hwait
    refine h.then_flies (flies_appendEntriesLocked args {} fun hl => ?_)
    rw [hwait.2] at hl
    cases hl

theorem flies_received (p : Process) (args : InstallSnapshotArgs) (now : Int) :
    Flies p.raft (p.received args now).raft := by
  have h := flies_installReceive (r := p.raft) args {} now
  rw [received]
  split <;> exact h

theorem flies_installSnapshot (p : Process) (args : InstallSnapshotArgs) (now : Int) :
    Flies p.raft (p.installSnapshot args now).raft := by
  rw [Process.installSnapshot]
  split_ifs
  · exact (Calm.refl _).flies
  · exact (calm_convertToFollowerLocked _ _).flies
  · exact flies_received p args now

theorem flies_start (p : Process) (command : Command) : Flies p.raft (p.start command).raft := by
  have h := Raft.flies_start p.raft command
  rw [Process.start, synced]
  split_ifs <;> exact h

theorem flies_proposeConf (hlevel : p.raft.Level) (server : Int) (target : MemberRole) :
    Flies p.raft (p.proposeConf server target).raft := by
  rw [proposeConf]
  split
  · exact (Calm.refl _).flies
  · next r h => exact flies_confProposed hlevel h

theorem flies_snapshotCommit (p : Process) (index term : Int) (data : Bytes) (now : Int) :
    Flies p.raft (p.runStretch now (.snapshotCommit index term data)).raft := by
  rw [runStretch, snapshotCommit_eq]
  cases hc : p.raft.snapshotCheck index with
  | none => exact (Calm.refl _).flies
  | some t =>
    obtain ⟨-, hlt, -⟩ := snapshotCheck_eq_some hc
    exact (calm_persistLocked _).flies_after (flies_snapshotCut index term data hlt.le)

theorem flies_installCommit (p : Process) (args : InstallSnapshotArgs) (blob : Bytes) :
    Flies p.raft (p.installCommit args blob).raft := by
  unfold Process.installCommit
  cases hstale : p.raft.installStale args with
  | true => exact (Calm.refl _).flies
  | false =>
    have hgo : ∀ r, Flies (p.raft.installBegin args blob) r → Flies p.raft r := fun r hr =>
      ⟨fun h => hr.flight (flight_installBegin args blob h),
        fun hlevel idx h => hr.ready hlevel idx (readyAt_installBegin blob hstale h)⟩
    simp only [Bool.false_eq_true, ↓reduceIte]
    split_ifs
    · exact hgo _ (calm_convertToFollowerLocked _ _).flies
    · exact hgo _ (flies_installLogs args _)

/-- The applier comes out of its batch at the end, or behind a conf entry. -/
theorem Flying.settleApply {res : Raft × List ApplyMsg × Option (Nat × Int)}
    (hf : res.1.state = .kLeader → res.1.Flight)
    (hr : ∀ k idx, res.2.2 = some (k, idx) → res.1.ReadyAt idx) : (p.settleApply res).Flying := by
  rw [Process.settleApply]
  split
  · exact ⟨hf, fun _ a ha => by cases ha⟩
  · next k idx hres =>
    refine ⟨hf, fun _ a ha => ?_⟩
    cases ha
    exact hr k idx hres

theorem Flying.applyLoop (h : p.Flying) (hlevel : p.raft.Level) (now : Int) :
    (p.applyLoop now).Flying := by
  have hquiet : Flies p.raft { p.raft with pendingSnapshot := none } := .of_fields rfl rfl rfl rfl rfl
  rw [Process.applyLoop]
  split_ifs
  · exact h
  · split
    · exact h.step_of hlevel hquiet rfl
    · have hready : p.raft.ReadyAt (p.raft.lastApplied + 1) := by
        rw [ReadyAt]
        omega
      obtain ⟨hf, hr⟩ := flight_applyRun now (p.raft.applyStop - p.raft.lastApplied).toNat hlevel hready
        h.flight []
      exact .settleApply hf hr
  · split
    · exact h.step_of hlevel hquiet rfl
    · exact h

theorem Flying.applyResume (h : p.Flying) (hlevel : p.raft.Level) (now : Int) :
    (p.applyResume now).Flying := by
  rw [Process.applyResume]
  cases ha : p.applier with
  | none => exact h
  | some a =>
    dsimp only
    split_ifs
    · have hc := calm_applyConfAfter p.raft now
      have hready := hc.flies.ready (hc.level hlevel) a.idx (h.paused hlevel a ha)
      obtain ⟨hf, hr⟩ := flight_applyRun now a.left (hc.level hlevel) hready (hc.flies.flight h.flight) a.batch
      exact .settleApply hf hr
    · exact h

theorem flies_runStretch (hlevel : p.raft.Level) (now : Int) (st : Stretch)
    (hoffice : (p.runStretch now st).raft.state = .kLeader → p.raft.state ≠ .kLeader → p.raft.ConfsApplied)
    (hstale : ∀ args, st = .append args → p.raft.state = .kLeader →
      ∀ x ∈ args.entries, x.type = .kConfChange → x ∈ p.raft.logs.tail) :
    Flies p.raft (p.runStretch now st).raft := by
  cases st with
  | takeOffice =>
    rw [runStretch] at hoffice ⊢
    dsimp only at hoffice ⊢
    split_ifs at hoffice ⊢
    · exact flies_becomeLeaderIfQuorumLocked hlevel now hoffice
    · exact (Calm.refl _).flies
  | append args => exact flies_appendEntriesLocked args {} (hstale args rfl)
  | snapshotCommit index term data => exact flies_snapshotCommit p index term data now
  | installReceive args => exact flies_received p args now
  | installCommit args blob => exact flies_installCommit p args blob
  | installLogs args blob old => exact flies_installLogs args old
  | _ =>
    refine (calm_runStretch p now ?_).flies
    trivial

theorem flies_resume (hlevel : p.raft.Level) (k : Nat) (now : Int)
    (hoffice : (p.resume k now).raft.state = .kLeader → p.raft.state ≠ .kLeader → p.raft.ConfsApplied)
    (hstale : ∀ t args, p.threads[k]? = some t → t.stretch = .append args → p.raft.state = .kLeader →
      ∀ x ∈ args.entries, x.type = .kConfChange → x ∈ p.raft.logs.tail) :
    Flies p.raft (p.resume k now).raft := by
  rw [Process.resume] at hoffice ⊢
  cases ht : p.threads[k]? with
  | none => exact (Calm.refl _).flies
  | some t =>
    rw [ht] at hoffice
    dsimp only at hoffice ⊢
    split_ifs at hoffice ⊢
    · exact flies_runStretch (p := { p with threads := p.threads.eraseIdx k }) hlevel now t.stretch hoffice
        fun args => hstale t args ht
    · exact (Calm.refl _).flies

theorem flying_make (peers me : Nat) (d : Disk) (now : Int) : (boot peers me d now).Flying := by
  refine ⟨fun hl => ?_, fun _ a ha => by cases ha⟩
  have hstate := (make_members peers me d now).2.2.2
  rw [boot, hstate] at hl
  cases hl

theorem Flying.step (h : p.Flying) {e : ProcessEvent} (he : p.Orderly e) : (p.step e).Flying := by
  have hlevel := he.level
  cases e with
  | voteReply args i reply now =>
    exact h.step_of hlevel (flies_voteReply hlevel args i reply now he.office) (applier_step p trivial)
  | appendEntries args now =>
    exact h.step_of hlevel (flies_appendEntries p args now) (applier_step p trivial)
  | installSnapshot args now =>
    exact h.step_of hlevel (flies_installSnapshot p args now) (applier_step p trivial)
  | start command => exact h.step_of hlevel (flies_start p command) (applier_step p trivial)
  | proposeConf server target =>
    exact h.step_of hlevel (flies_proposeConf hlevel server target) (applier_step p trivial)
  | applyLoop now => exact h.applyLoop hlevel now
  | applyResume now => exact h.applyResume hlevel now
  | resume k now =>
    exact h.step_of hlevel (flies_resume hlevel k now he.office fun t args => he.stale k now t args rfl)
      (applier_step p trivial)
  | restart now => exact flying_make _ _ _ now
  | _ => refine h.step_of hlevel (calm_step p ?_).flies (applier_step p ?_) <;> trivial

theorem Flying.run (h : p.Flying) {es : List ProcessEvent} (hes : Meets Orderly p es) :
    (p.run es).Flying := by
  induction es generalizing p with
  | nil => exact h
  | cons e es ih => exact ih (h.step hes.1) hes.2

/-- In every orderly run, whatever the disk, a conf entry is proposed only when those of the log are
applied. -/
theorem single_flight (peers me : Nat) (d : Disk) (now : Int) (es : List ProcessEvent)
    (hes : Meets Orderly (boot peers me d now) es) (server : Int) (target : MemberRole) (r' : Raft)
    (h : ((boot peers me d now).run es).raft.confProposed server target = some r') :
    ∀ e ∈ ((boot peers me d now).run es).raft.logs.tail, e.type = .kConfChange →
      e.index ≤ ((boot peers me d now).run es).raft.lastApplied := by
  have hfly := (flying_make peers me d now).run hes
  rw [confProposed] at h
  simp only [Option.ite_none_left_eq_some, not_or, not_not] at h
  obtain ⟨hleader, -, hpending, -⟩ := h
  intro e he hconf
  exact (hfly.flight hleader e he hconf).resolve_right fun hflight => hflight.1 hpending.1

end Process

/-- A follower of three takes a conf entry from node 1, committed; the applier may get hold of it or not,
and the follower takes office in term 2. -/
def confOffice (applied : List ProcessEvent) : List ProcessEvent :=
  [.appendEntries { term := 1, leaderId := 1, prevLogIndex := 0, prevLogTerm := 0, leaderCommit := 1
                    entries := [{ term := 1, index := 1, type := .kConfChange, confServer := 2
                                  confRole := MemberRole.kLearner.toInt }] } 0, .resume 0 0] ++
  applied ++
  [.electionTimeout 200,
    .prevoteReply { term := 1, candidateId := 0, lastLogIndex := 1, lastLogTerm := 1 } 1
      { term := 1, voteGranted := true } 200, .resume 0 200,
    .voteReply { term := 2, candidateId := 0, lastLogIndex := 1, lastLogTerm := 1 } 1
      { term := 2, voteGranted := true } 200]

open Process

theorem orderly_follower {p : Process} {e : ProcessEvent}
    (h : p.raft.Level ∧ p.raft.state ≠ .kLeader ∧
      ((p.step e).raft.state ≠ .kLeader ∨ p.raft.ConfsApplied)) : p.Orderly e where
  level := h.1
  office hl _ := h.2.2.resolve_left fun hne => hne hl
  stale _ _ _ _ _ _ _ hl := absurd hl h.2.1

theorem single_flight_applied :
    let p := (boot 3 0 {} 0).run (confOffice [.applyLoop 0])
    (p.raft.confProposed 1 .kLearner).isSome ∧ (∃ e ∈ p.raft.logs.tail, e.type = .kConfChange) ∧
      ∀ e ∈ p.raft.logs.tail, e.type = .kConfChange → e.index ≤ p.raft.lastApplied := by
  have hes : Meets Orderly (boot 3 0 {} 0) (confOffice [.applyLoop 0]) := by
    refine ⟨?_, ?_, ?_, ?_, ?_, ?_, ?_, trivial⟩
    all_goals
      refine orderly_follower ?_
      decide +kernel
  have hsome : (((boot 3 0 {} 0).run (confOffice [.applyLoop 0])).raft.confProposed 1
      .kLearner).isSome := by decide +kernel
  obtain ⟨r', hr'⟩ := Option.isSome_iff_exists.mp hsome
  exact ⟨hsome, by decide +kernel, single_flight 3 0 {} 0 _ hes 1 .kLearner r' hr'⟩

/-- The conf entry at 1 is committed and not applied when the node takes office: its scan, which starts
behind the commit index, does not find it, and a second change is proposed. -/
theorem two_in_flight :
    let p := (boot 3 0 {} 0).run (confOffice [])
    p.raft.commitIndex = 1 ∧ p.raft.pendingConfIndex = 0 ∧
      ((p.raft.confProposed 1 .kLearner).map fun r => r.logs.map LogEntry.index) = some [0, 1, 2] ∧
      ∃ e ∈ p.raft.logs.tail, e.type = .kConfChange ∧ p.raft.lastApplied < e.index := by
  decide +kernel

end ChonKV
