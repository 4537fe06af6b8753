import ChonKV.Durable.Steady

/-!
A process in file mode keeps its log in step with the mirror, through every window in which `mu_` is
free.
-/

set_option autoImplicit false

namespace ChonKV

open Raft

/-- The log of a node in file mode is in step with its mirror. -/
structure Raft.Twinned (r : Raft) : Prop extends MirrorOK r where
  backed : r.persister.fileBacked = true

theorem kept_twinned : Kept Twinned where
  quiet h hq := by
    refine ⟨⟨⟨hq.index ▸ h.pos, ?_⟩, ?_⟩, hq.backed.trans h.backed⟩
    · rw [hq.index, hq.logs]
      exact h.log
    · rw [hq.index, hq.logs, hq.logStore]
      exact h.segment
  edit h he := ⟨h.toMirrorOK.edit he, he.keeps.backed.trans h.backed⟩
  snapshotCut h hlt hin term data := ⟨h.toMirrorOK.snapshotCut hlt hin term data, h.backed⟩
  truncatePrefix h hle := ⟨h.toMirrorOK.truncatePrefix hle rfl rfl rfl, h.backed⟩
  installLogs {r args blob} h hle _ :=
    ⟨h.toMirrorOK.installLogs hle, (keeps_installLogs (r.installBegin args blob) args _).backed.trans h.backed⟩
  make {p} h hd now := by
    refine ⟨mirrorOK_make _ _ now h.backed hd, ?_⟩
    rw [make_persister]
    exact h.backed

namespace Process

theorem Holds.survives_twinned {p : Process} (h : p.Holds Twinned) (e : ProcessEvent) :
    p.Survives Twinned e where
  appendEntries {args now r} _ hargs hr _ :=
    ⟨(h.raft.sameLog hr.toSameLog).appendEntriesLocked hargs {},
      (hr.toKeepsSnapshot.trans (keeps_appendEntriesLocked r args {})).backed.trans h.raft.backed⟩
  append {k now t args} _ _ _ hargs :=
    ⟨h.raft.appendEntriesLocked hargs {},
      (keeps_appendEntriesLocked p.raft args {}).backed.trans h.raft.backed⟩
  applyLoop {now} _ := by
    have hs := sameLog_applyRun p.raft now (p.raft.applyStop - p.raft.lastApplied).toNat
      (p.raft.lastApplied + 1) []
    exact ⟨h.raft.sameLog hs, hs.backed.trans h.raft.backed⟩
  applyResume {now a} _ _ := by
    have hs := (still_applyConfAfter p.raft now).toSameLog.trans (sameLog_applyRun _ now a.left a.idx a.batch)
    exact ⟨h.raft.sameLog hs, hs.backed.trans h.raft.backed⟩

theorem holds_boot (peers me : Nat) {d : Disk} (now : Int) (hfile : d.persister.fileBacked = true)
    (hd : d.Whole) : (boot peers me d now).Holds Twinned := by
  refine ⟨⟨mirrorOK_make peers me now hfile hd, ?_⟩, by simp [boot]⟩
  rw [boot, make_persister]
  exact hfile

/-- In every state of a steady run the log is numbered from the snapshot on, the mirror above the
snapshot is the log above its sentinel, and no append was refused. -/
theorem log_in_step (peers me : Nat) (d : Disk) (now : Int)
    (hfile : d.persister.fileBacked = true) (hd : d.Whole) (es : List ProcessEvent)
    (hes : Meets Steady (boot peers me d now) es) :
    let r := ((boot peers me d now).run es).raft
    r.logs ≠ [] ∧ (∀ (k : Nat) (e : LogEntry), r.logs[k]? = some e → e.index = r.snapshotIndex + k) ∧
      ∃ s, r.logStore = .segment s ∧
        s.entries.filter (fun e => decide (r.snapshotIndex < e.index)) = r.logs.tail ∧
        s.aborted = false := by
  intro r
  have h : r.Twinned := ((holds_boot peers me now hfile hd).run kept_twinned (fun _ _ he => he)
    (fun _ e h _ => h.survives_twinned e) hes).raft
  obtain ⟨s, hs, hm⟩ := h.segment
  exact ⟨h.log.held, fun k e hk => h.log.numbered.get hk, s, hs, hm.filter_eq, hm.sound⟩

end Process

/-- `n` entries of term 1 behind `prev`, from node 1. -/
def batchArgs (prev : Int) (n : Nat) : AppendEntriesArgs :=
  { term := 1, leaderId := 1, prevLogIndex := prev, prevLogTerm := if prev = 0 then 0 else 1
    leaderCommit := 3
    entries := (List.range n).map fun k => { term := 1, index := prev + 1 + k } }

/-- A follower takes a snapshot at 3; while it waits for its state to be saved, entries arrive. -/
def snapshotWindow (n : Nat) : List ProcessEvent :=
  [.appendEntries (batchArgs 0 3) 0, .flush, .flush, .flush, .resume 0 0, .applyLoop 0,
    .snapshot 3 [], .resume 0 0, .writeBlob, .writeBlob, .resume 0 0, .appendEntries (batchArgs 3 n) 0]

open Process

theorem log_in_step_window :
    let r := ((boot 2 0 { persister := { fileBacked := true } } 0).run (snapshotWindow 2)).raft
    r.logs.map LogEntry.index = [3, 4, 5] ∧
      ∃ s, r.logStore = .segment s ∧
        s.entries.filter (fun e => decide (r.snapshotIndex < e.index)) = r.logs.tail ∧
        s.aborted = false := by
  refine ⟨by decide +kernel, (log_in_step 2 0 { persister := { fileBacked := true } } 0 rfl
    ⟨fun _ => rfl, by simp, by simp, by simp⟩ (snapshotWindow 2) ?_).2.2⟩
  refine ⟨⟨rfl, rfl, rfl, trivial⟩, trivial, trivial, trivial, ?_, trivial, trivial, ?_, trivial, trivial,
    ?_, ⟨rfl, rfl, trivial⟩, trivial⟩
  all_goals
    refine steady_resume ?_
    decide +kernel

/-- A leader of term 1 installs a snapshot of that term that lists it as a learner: while it waits to be
a follower, the log is that of the old snapshot. And a follower whose process ends in the window of
`snapshotWindow` finds the records above the snapshot alone, and takes them for those above the state
that it saved before. -/
theorem log_out_of_step :
    let p := (boot 2 0 { persister := { fileBacked := true } } 0).run
      [.electionTimeout 200,
        .prevoteReply { term := 0, candidateId := 0, lastLogIndex := 0, lastLogTerm := 0 } 1
          { term := 0, voteGranted := true } 200, .resume 0 200,
        .voteReply { term := 1, candidateId := 0, lastLogIndex := 0, lastLogTerm := 0 } 1
          { term := 1, voteGranted := true } 200,
        .installSnapshot { lastChunk 5 with members := [1, 2] } 200, .resume 1 200, .writeBlob, .writeBlob,
        .resume 1 200]
    let q := ((boot 2 0 { persister := { fileBacked := true } } 0).run (snapshotWindow 5)).step
      (.restart 0)
    (p.raft.snapshotIndex = 5 ∧ p.raft.logs.map LogEntry.index = [0]) ∧
      q.raft.snapshotIndex = 3 ∧ q.raft.logs.map LogEntry.index = [3, 7, 8] := by
  decide +kernel

end ChonKV
