import ChonKV.Durable.Tenure

/-!
A process with what its `ReplicateLoop`s have sent: the requests whose callbacks may still run, and what
every step that is no turn of that loop leaves alone.
-/

set_option autoImplicit false

namespace ChonKV

open Raft

/-- The follower whose chunk callback this is, once it has stepped down. -/
def Stretch.heardFrom : Stretch → Option Nat
  | .snapshotHeard s => some s
  | _ => none

namespace Process

/-- The followers with a chunk callback that waits. -/
def hearing (p : Process) : List Nat := p.threads.filterMap fun t => t.stretch.heardFrom

/-- `p` becomes `p'` by a change `R` of the `Raft` object, and no chunk callback begins or ends to
wait. -/
structure Serves (R : Raft → Raft → Prop) (p p' : Process) : Prop where
  raft : R p.raft p'.raft
  hearing : p'.hearing = p.hearing

variable {R : Raft → Raft → Prop} {p p' : Process} {r : Raft}

theorem hearing_concat (p : Process) (r : Raft) {t : Thread} (h : t.stretch.heardFrom = none) :
    ({ p with raft := r, threads := p.threads ++ [t] } : Process).hearing = p.hearing := by
  simp [hearing, h]

theorem hearing_eraseIdx {k : Nat} {t : Thread} (ht : p.threads[k]? = some t)
    (h : t.stretch.heardFrom = none) :
    ({ p with threads := p.threads.eraseIdx k } : Process).hearing = p.hearing := by
  obtain ⟨hk, rfl⟩ := List.getElem?_eq_some_iff.mp ht
  have hsplit : p.threads.take k ++ p.threads[k] :: p.threads.drop (k+1) = p.threads := by simp
  calc (p.threads.eraseIdx k).filterMap (fun t => t.stretch.heardFrom)
      = (p.threads.take k ++ p.threads[k] :: p.threads.drop (k+1)).filterMap
          (fun t => t.stretch.heardFrom) := by
        simp only [List.eraseIdx_eq_take_drop_succ, List.filterMap_append, List.filterMap_cons, h]
    _ = p.hearing := by rw [hsplit, hearing]

theorem serves_raft (h : R p.raft r) : Serves R p { p with raft := r } := ⟨h, rfl⟩

theorem serves_wait (h : R p.raft r) {st : Stretch} (hst : st.heardFrom = none) :
    Serves R p (p.wait r st) := ⟨h, hearing_concat p r hst⟩

theorem Serves.spawn (h : Serves R p p') {st : Stretch} (hst : st.heardFrom = none) :
    Serves R p (p'.spawn p'.raft st) := ⟨h.raft, (hearing_concat p' _ hst).trans h.hearing⟩

theorem serves_spawn (h : R p.raft r) {st : Stretch} (hst : st.heardFrom = none) :
    Serves R p (p.spawn r st) := (serves_raft h).spawn hst

theorem serves_synced {res : Raft × Bool} (h : R p.raft res.1) : Serves R p (p.synced res) := by
  rw [synced]
  split_ifs
  · exact serves_spawn h rfl
  · exact serves_raft h

theorem serves_finishStart {st : Raft × ElectionStart} (h : R p.raft st.1) :
    Serves R p (p.finishStart st) := by
  rw [finishStart]
  split_ifs
  · exact serves_spawn h rfl
  · exact serves_raft h

theorem serves_settleApply {res : Raft × List ApplyMsg × Option (Nat × Int)} (h : R p.raft res.1) :
    Serves R p (p.settleApply res) := by
  rw [settleApply]
  split <;> exact ⟨h, rfl⟩

/-- What `R` relates besides what `Abides` does: a new leader, a callback of `Raft.AppendEntries`, and
the stretches that write the log. -/
structure Handles (R : Raft → Raft → Prop) (p : Process) (e : ProcessEvent) : Prop where
  abides : ∀ {r r' : Raft}, Abides r r' → R r r'
  voteReply : ∀ {args i reply now}, e = .voteReply args i reply now →
    R p.raft (p.raft.voteReply args i reply now)
  appendReply : ∀ {args s ok reply now}, e = .appendReply args s ok reply now →
    R p.raft (p.raft.appendReply args s ok reply now).1
  takeOffice : ∀ {k now t}, e = .resume k now → p.threads[k]? = some t → t.stretch = .takeOffice →
    R p.raft (p.raft.becomeLeaderIfQuorumLocked now)
  append : ∀ {k now t args}, e = .resume k now → p.threads[k]? = some t → t.stretch = .append args →
    R p.raft (p.raft.appendEntriesLocked args {}).1
  snapshotCommit : ∀ {k now t index term data}, e = .resume k now → p.threads[k]? = some t →
    t.stretch = .snapshotCommit index term data → p.raft.snapshotIndex < index →
    R p.raft (p.raft.snapshotCut index term data).persistLocked
  installCommit : ∀ {k now t args blob}, e = .resume k now → p.threads[k]? = some t →
    t.stretch = .installCommit args blob → p.raft.installStale args = false →
    R p.raft ((p.raft.installBegin args blob).installLogs args p.raft.snapshotIndex)
  installLogs : ∀ {k now t args blob old}, e = .resume k now → p.threads[k]? = some t →
    t.stretch = .installLogs args blob old → R p.raft (p.raft.installLogs args old)

variable {e : ProcessEvent}

theorem serves_electionTimeout (hR : ∀ r', Abides p.raft r' → R p.raft r') (now : Int) :
    Serves R p (p.electionTimeout now) := by
  rw [electionTimeout]
  split_ifs
  · exact serves_wait (hR _ (abides_convertToFollowerLocked le_rfl)) rfl
  · exact serves_finishStart (hR _ (abides_electionTimeout _ now))

/-- A callback that steps down waits and goes on with `st`. -/
theorem serves_callback (hR : ∀ r', Abides p.raft r' → R p.raft r') {r' : Raft} {term : Int}
    {st : Stretch} (hst : st.heardFrom = none) (h' : R p.raft r') :
    Serves R p (p.callback p.raft term st r') := by
  rw [callback]
  split_ifs with hdown
  · exact serves_wait (hR _ (abides_convertToFollowerLocked hdown.2.le)) hst
  · exact serves_raft h'

theorem serves_prevoteReply (hR : ∀ r', Abides p.raft r' → R p.raft r') (args : RequestPreVoteArgs)
    (i : Nat) (reply : RequestPreVoteReply) (now : Int) :
    Serves R p (p.prevoteReply args i reply now) := by
  have h : Serves R p (p.callback p.raft reply.term .heard (p.raft.prevoteReply args i reply now).1) :=
    serves_callback hR rfl (hR _ (abides_prevoteReply _ args i reply now))
  rw [prevoteReply]
  split_ifs
  · exact h.spawn rfl
  · exact h

theorem serves_appendReply (hR : ∀ r', Abides p.raft r' → R p.raft r') {args : AppendEntriesArgs}
    {s : Nat} {ok : Bool} {reply : AppendEntriesReply} {now : Int}
    (h : R p.raft (p.raft.appendReply args s ok reply now).1) :
    Serves R p (p.appendReply args s ok reply now) := by
  rw [appendReply]
  split_ifs with hdown
  · have hconvert : Abides (p.raft.noteReached s ok) ((p.raft.noteReached s ok).convertToFollowerLocked
        reply.term) := abides_convertToFollowerLocked hdown.2.2.le
    exact serves_wait (hR _ ((abides_noteReached _ s ok).trans hconvert)) rfl
  · exact serves_synced h

theorem serves_requestVote (hR : ∀ r', Abides p.raft r' → R p.raft r') (args : RequestVoteArgs)
    (now : Int) : Serves R p (p.requestVote args now) := by
  rw [requestVote]
  split_ifs with hterm
  · exact serves_wait (hR _ (abides_convertToFollowerLocked hterm.2.le)) rfl
  · exact serves_raft (hR _ (abides_requestVote _ args now))

/-- `AppendEntries` merges at once on a follower only. -/
theorem serves_appendEntries (hR : ∀ r', Abides p.raft r' → R p.raft r') (args : AppendEntriesArgs)
    (now : Int) : Serves R p (p.appendEntries args now) := by
  have h : Abides p.raft (p.raft.heardLeader args now) := .of_same rfl rfl rfl
  rw [appendEntries]
  dsimp only
  split_ifs with hno hwait
  · exact serves_raft (hR _ (.refl _))
  · have hterm : (p.raft.heardLeader args now).currentTerm ≤ args.term := not_lt.mp (not_or.mp hno).2
    exact serves_wait (hR _ (h.trans (abides_convertToFollowerLocked hterm))) rfl
  · rw [not_or, not_not] at hwait
    exact serves_raft (hR _ (h.trans (abides_appendEntriesLocked (by simp [hwait.2]) args {})))

theorem serves_received (hR : ∀ r', Abides p.raft r' → R p.raft r') (args : InstallSnapshotArgs)
    (now : Int) : Serves R p (p.received args now) := by
  have h := hR _ (abides_installReceive p.raft args {} now)
  rw [received]
  split
  · exact serves_raft h
  · exact serves_spawn h rfl

theorem serves_installSnapshot (hR : ∀ r', Abides p.raft r' → R p.raft r') (args : InstallSnapshotArgs)
    (now : Int) : Serves R p (p.installSnapshot args now) := by
  rw [installSnapshot]
  split_ifs with _ hterm
  · exact serves_raft (hR _ (.refl _))
  · exact serves_wait (hR _ (abides_convertToFollowerLocked hterm.le)) rfl
  · exact serves_received hR args now

theorem serves_proposeConf (hR : ∀ r', Abides p.raft r' → R p.raft r') (server : Int)
    (target : MemberRole) : Serves R p (p.proposeConf server target) := by
  rw [proposeConf]
  split
  · exact serves_raft (hR _ (.refl _))
  · next r h => exact serves_wait (hR _ (abides_confProposed h)) rfl

theorem serves_snapshot (hR : ∀ r', Abides p.raft r' → R p.raft r') (index : Int) (data : Bytes) :
    Serves R p (p.snapshot index data) := by
  rw [snapshot]
  split
  · exact serves_raft (hR _ (.refl _))
  · exact serves_spawn (hR _ (.refl _)) rfl

theorem serves_applyLoop (hR : ∀ r', Abides p.raft r' → R p.raft r') (now : Int) :
    Serves R p (p.applyLoop now) := by
  have hrefl : Serves R p p := serves_raft (hR _ (.refl _))
  rw [applyLoop]
  split_ifs
  · exact hrefl
  · split
    · exact ⟨hR _ (.of_same rfl rfl rfl), rfl⟩
    · exact serves_settleApply (hR _ (abides_applyRun _ _ _ _ _))
  · split
    · exact ⟨hR _ (.of_same rfl rfl rfl), rfl⟩
    · exact hrefl

theorem serves_applyResume (hR : ∀ r', Abides p.raft r' → R p.raft r') (now : Int) :
    Serves R p (p.applyResume now) := by
  rw [applyResume]
  split
  · exact serves_raft (hR _ (.refl _))
  · split_ifs
    · exact serves_settleApply
        (hR _ ((abides_applyConfAfter _ now).trans (abides_applyRun _ _ _ _ _)))
    · exact serves_raft (hR _ (.refl _))

theorem serves_saveBlob (hR : ∀ r', Abides p.raft r' → R p.raft r') (u : BlobUser) :
    Serves R p (p.saveBlob u) := by
  have hnext : u.next.heardFrom = none := by cases u <;> rfl
  rw [saveBlob]
  split_ifs
  · exact serves_spawn (hR _ (.refl _)) rfl
  · exact serves_spawn (hR _ (.refl _)) hnext
  · exact ⟨hR _ (.refl _), rfl⟩

theorem serves_writeBlob (hR : ∀ r', Abides p.raft r' → R p.raft r') : Serves R p p.writeBlob := by
  rw [writeBlob]
  split
  · exact serves_raft (hR _ (.refl _))
  · exact ⟨hR _ (.of_same rfl rfl rfl), rfl⟩
  · next u _ =>
    have hnext : u.next.heardFrom = none := by cases u <;> rfl
    exact ⟨hR _ (.of_same rfl rfl rfl), hearing_concat _ _ hnext⟩

theorem serves_flush (hR : ∀ r', Abides p.raft r' → R p.raft r') : Serves R p p.flush := by
  rw [flush]
  split
  · split
    · split_ifs
      · exact ⟨hR _ (.of_same rfl rfl rfl), rfl⟩
      · exact serves_raft (hR _ (.refl _))
    · exact serves_raft (hR _ (.refl _))
  · exact ⟨hR _ (.of_same rfl rfl rfl), rfl⟩
  · exact ⟨hR _ (.of_same rfl rfl rfl), rfl⟩

/-- Phase 2 of `InstallSnapshot`; a leader that it deposes waits before it cuts its log. -/
theorem serves_installCommit (hR : ∀ r', Abides p.raft r' → R p.raft r') (args : InstallSnapshotArgs)
    (blob : Bytes) (h : p.raft.installStale args = false →
      R p.raft ((p.raft.installBegin args blob).installLogs args p.raft.snapshotIndex)) :
    Serves R p (p.installCommit args blob) := by
  have hbegin : Abides p.raft (p.raft.installBegin args blob) := .of_same rfl rfl rfl
  unfold Process.installCommit
  cases hstale : p.raft.installStale args with
  | true => exact serves_raft (hR _ (.refl _))
  | false =>
    rw [if_neg Bool.false_ne_true]
    dsimp only
    split_ifs
    · exact serves_wait (hR _ (hbegin.trans (abides_convertToFollowerLocked le_rfl))) rfl
    · exact serves_wait (p := p) (h hstale) rfl

/-- A thread goes on that is no chunk callback. -/
theorem serves_resume {k : Nat} {now : Int} (h : Handles R p (.resume k now))
    (hheard : ∀ t, p.threads[k]? = some t → t.stretch.heardFrom = none) :
    Serves R p (p.resume k now) := by
  have hR : ∀ r', Abides p.raft r' → R p.raft r' := fun _ hr => h.abides hr
  rw [Process.resume]
  cases ht : p.threads[k]? with
  | none => exact serves_raft (hR _ (.refl _))
  | some t =>
    dsimp only
    split_ifs
    · have herase := hearing_eraseIdx ht (hheard t ht)
      suffices hq : Serves R { p with threads := p.threads.eraseIdx k }
          (({ p with threads := p.threads.eraseIdx k } : Process).runStretch now t.stretch) from
        ⟨hq.raft, hq.hearing.trans herase⟩
      cases hst : t.stretch with
      | prevote => exact serves_finishStart (hR _ (abides_beginPrevote _ now))
      | startRealElection =>
        have hstand := hR _ (abides_standForTerm p.raft now)
        rw [runStretch]
        split_ifs
        · exact serves_wait (p := { p with threads := p.threads.eraseIdx k }) hstand rfl
        · exact serves_raft hstand
      | takeOffice =>
        refine serves_raft ?_
        split_ifs
        · exact h.takeOffice rfl ht hst
        · exact hR _ (.refl _)
      | heard => exact serves_raft (hR _ (.of_same rfl rfl rfl))
      | snapshotHeard s =>
        have hnone := hheard t ht
        rw [hst] at hnone
        cases hnone
      | vote args => exact serves_raft (hR _ (abides_decideVote _ args {} now))
      | append args => exact serves_raft (h.append rfl ht hst)
      | commitSynced => exact serves_raft (hR _ (.of_same rfl rfl rfl))
      | advanceCommit => exact serves_synced (hR _ (abides_advanceCommitIndexLocked _))
      | saveBlob u => exact serves_saveBlob (p := { p with threads := p.threads.eraseIdx k }) hR u
      | snapshotCommit index term data =>
        rw [runStretch, snapshotCommit_eq]
        cases hc : p.raft.snapshotCheck index with
        | none => exact serves_raft (hR _ (.refl _))
        | some _ =>
          exact serves_wait (p := { p with threads := p.threads.eraseIdx k })
            (h.snapshotCommit rfl ht hst (snapshotCheck_eq_some hc).2.1) rfl
      | truncateStore index => exact serves_raft (hR _ (.of_same rfl rfl rfl))
      | installReceive args =>
        exact serves_received (p := { p with threads := p.threads.eraseIdx k }) hR args now
      | installCommit args blob =>
        exact serves_installCommit (p := { p with threads := p.threads.eraseIdx k }) hR args blob
          (h.installCommit rfl ht hst)
      | installLogs args blob old =>
        exact serves_wait (p := { p with threads := p.threads.eraseIdx k }) (h.installLogs rfl ht hst) rfl
      | installFinish msg keep => exact serves_raft (hR _ (.of_same rfl rfl rfl))
    · exact serves_raft (hR _ (.refl _))

/-- Neither a turn of `ReplicateLoop`, nor the callback of a chunk, nor the end of the process. -/
def Routine (p : Process) : ProcessEvent → Prop
  | .replicate _ _ | .snapshotReply _ _ _ _ _ | .restart _ => False
  | .resume k _ => ∀ t, p.threads[k]? = some t → t.stretch.heardFrom = none
  | _ => True

theorem serves_step (he : p.Routine e) (h : Handles R p e) : Serves R p (p.step e) := by
  have hR : ∀ r', Abides p.raft r' → R p.raft r' := fun _ hr => h.abides hr
  cases e with
  | electionTimeout now => exact serves_electionTimeout hR now
  | leaderTick now => exact serves_raft (hR _ (abides_leaderTick _ now))
  | prevoteReply args i reply now => exact serves_prevoteReply hR args i reply now
  | voteReply args i reply now => exact serves_callback hR rfl (h.voteReply rfl)
  | readHeartbeatReply args s reply now =>
    exact serves_callback hR rfl (hR _ (abides_readHeartbeatReply _ args s reply now))
  | appendReply args s ok reply now => exact serves_appendReply hR (h.appendReply rfl)
  | requestVote args now => exact serves_requestVote hR args now
  | appendEntries args now => exact serves_appendEntries hR args now
  | installSnapshot args now => exact serves_installSnapshot hR args now
  | start command => exact serves_synced (hR _ (abides_start _ command))
  | proposeConf server target => exact serves_proposeConf hR server target
  | snapshot index data => exact serves_snapshot hR index data
  | readIndexOpen now => exact serves_raft (hR _ (abides_readIndexOpen _ now))
  | readIndexPoll ctx term readIndex deadline now =>
    exact serves_raft (hR _ (abides_readIndexPoll _ ctx term readIndex deadline now))
  | setLimits m b => exact serves_raft (hR _ (.of_same rfl rfl rfl))
  | applyLoop now => exact serves_applyLoop hR now
  | applyResume now => exact serves_applyResume hR now
  | resume k now => exact serves_resume h he
  | writeBlob => exact serves_writeBlob hR
  | flush => exact serves_flush hR
  | kill =>
    refine serves_raft (hR _ ⟨⟨⟨rfl, fun _ => rfl, le_rfl, fun hs => .inr ⟨rfl, hs, id⟩⟩, rfl⟩, ?_, ?_⟩)
    · exact fun _ _ _ => ⟨rfl, le_rfl⟩
    · exact fun hl hno => absurd rfl (hno hl)
  | replicate _ _ => cases he
  | snapshotReply _ _ _ _ _ => cases he
  | restart _ => cases he

/-- The office and the transfers outlast every such step. -/
theorem tenure_handles (p : Process) (e : ProcessEvent) : Handles Tenure p e where
  abides h := h.toTenure
  voteReply _ := tenure_voteReply _ _ _ _ _
  appendReply _ := tenure_appendReply _ _ _ _ _ _
  takeOffice _ _ _ := tenure_becomeLeaderIfQuorumLocked _ _
  append _ _ _ := tenure_appendEntriesLocked _ _ _
  snapshotCommit _ _ _ _ := (tenure_snapshotCut _ _ _ _).persist
  installCommit {k now t args blob} _ _ _ _ := by
    have hbegin : Tenure p.raft (p.raft.installBegin args blob) := .of_part rfl
    exact hbegin.trans (tenure_installLogs _ _ _)
  installLogs _ _ _ := tenure_installLogs _ _ _

end Process

def Raft.Send.appends : Send → List AppendEntriesArgs
  | .append args => [args]
  | _ => []

def Raft.Send.chunks : Send → List InstallSnapshotArgs
  | .snapshot chunks => chunks
  | _ => []

/-- A process with what it has sent to each follower in its life; `owed` are the chunks whose callback
has not run. -/
structure Sender where
  process : Process
  appends : Nat → List AppendEntriesArgs := fun _ => []
  chunks : Nat → List InstallSnapshotArgs := fun _ => []
  owed : Nat → List InstallSnapshotArgs := fun _ => []

namespace Sender

open Function (update)

/-- A turn of `ReplicateLoop(s)` sends, the callback of a chunk runs once, and no callback outlives its
process. -/
def step (x : Sender) : ProcessEvent → Sender
  | .replicate s now =>
    let send := (x.process.raft.replicate s now).2
    { process := x.process.step (.replicate s now)
      appends := update x.appends s (x.appends s ++ send.appends)
      chunks := update x.chunks s (x.chunks s ++ send.chunks)
      owed := update x.owed s (x.owed s ++ send.chunks) }
  | .snapshotReply args s ok reply now =>
    { x with
      process := x.process.step (.snapshotReply args s ok reply now)
      owed := update x.owed s ((x.owed s).erase args) }
  | .restart now => { process := x.process.step (.restart now) }
  | e => { x with process := x.process.step e }

/-- A node comes up from `d`. -/
def boot (peers me : Nat) (d : Disk) (now : Int) : Sender := { process := .boot peers me d now }

def run (x : Sender) (es : List ProcessEvent) : Sender := es.foldl step x

/-- Every step of the run from `x` meets `C`. -/
def Meets (C : Sender → ProcessEvent → Prop) (x : Sender) : List ProcessEvent → Prop
  | [] => True
  | e :: es => C x e ∧ Meets C (x.step e) es

instance (C : Sender → ProcessEvent → Prop) [∀ x e, Decidable (C x e)] (x : Sender)
    (es : List ProcessEvent) : Decidable (Meets C x es) := by
  induction es generalizing x with
  | nil => exact .isTrue trivial
  | cons e es ih => exact @instDecidableAnd _ _ _ (ih _)

theorem Meets.mono {C D : Sender → ProcessEvent → Prop} (h : ∀ x e, C x e → D x e) {x : Sender}
    {es : List ProcessEvent} (hes : Meets C x es) : Meets D x es := by
  induction es generalizing x with
  | nil => trivial
  | cons e es ih => exact ⟨h x e hes.1, ih hes.2⟩

@[simp] theorem step_process (x : Sender) (e : ProcessEvent) : (x.step e).process = x.process.step e := by
  cases e <;> rfl

/-- The rule for runs: what every step that meets `C` keeps holds at the end. -/
theorem run_induction {C : Sender → ProcessEvent → Prop} {I : Sender → Prop}
    (hstep : ∀ x e, I x → C x e → I (x.step e)) {x : Sender} (hx : I x) {es : List ProcessEvent}
    (hes : Meets C x es) : I (x.run es) := by
  induction es generalizing x with
  | nil => exact hx
  | cons e es ih => exact ih (hstep x e hx hes.1) hes.2

end Sender
end ChonKV
