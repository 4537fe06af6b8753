import ChonKV.Cluster.Copying

/-!
What the stretches of `raft.cpp` that take, receive and restore snapshots do to a node, and what a
restart finds on its disk.
-/

set_option autoImplicit false

namespace ChonKV

open Ballot Ballot.Ledger
open Function (update)

section
variable {σ : Type} {n : Nat} {svc : Service σ} {E : Record} {G : Ghost} {K : Nat → Core} {i : Nat}
variable {r : Raft}

/-- Only a settled prefix with entries has a snapshot, so its term has begun. -/
theorem SnapOK.pos (h : Draft n E G K) {x t : Int} {raw : Bytes} {T : Int}
    (hs : SnapOK n svc E G x t raw T) : 0 < x ∧ 0 < T := by
  obtain ⟨l, k, hx, h0, hset, -, -⟩ := hs
  rcases hset with hk | ⟨U, p, hc, -, hU, -⟩
  · omega
  · have ha := h.wf.above U hc.1
    rw [h.floor] at ha
    omega

/-- A snapshot reaches the disk before the state that needs it. -/
theorem At.saveSnapshotBlob (h : At n svc E G K i r.frame) {index term : Int} {raw : Bytes}
    (hs : SnapOK n svc E G index term raw r.currentTerm) :
    Acts n svc E G K i r.frame (r.saveSnapshotBlob index term raw).frame fun _ => True := by
  unfold Raft.saveSnapshotBlob
  split
  · exact Acts.refl h trivial
  rename_i hlt
  refine Acts.of_moves h (Moves.refl h.inv h.core trivial)
    ⟨⟨rfl, le_rfl, le_rfl, (not_le.mp hlt).le⟩, fun hp => ⟨hp, rfl⟩⟩ fun G' hle => ?_
  have hh := h.ok.mono hle
  refine ⟨⟨hh.alive, hh.me, hh.peers, hh.members, hh.store, hh.sync, hh.disk, fun b hb => ?_, fun hb => ?_, ?_,
    hh.data, hh.crc, hh.pending⟩, hh.saved.term, hh.saved.vote, hh.saved.members, hh.saved.logs⟩
  · cases hb
    exact ⟨rfl, hs.mono hle le_rfl⟩
  · cases hb
  · exact hh.blobIndex.trans (not_le.mp hlt).le

theorem le_saveSnapshotBlob (r : Raft) (index term : Int) (raw : Bytes) :
    index ≤ (r.saveSnapshotBlob index term raw).savedBlobIndex := by
  unfold Raft.saveSnapshotBlob
  split
  · assumption
  · exact le_rfl

/-- Phase 2 of `Raft::Snapshot`. -/
theorem At.snapshotCommit (h : At n svc E G K i r.frame) {index term : Int} {data : Bytes}
    (hs : SnapOK n svc E G index term data r.currentTerm) (happ : index ≤ r.lastApplied)
    (hblob : index ≤ r.savedBlobIndex) :
    Acts n svc E G K i r.frame (r.snapshotCommit index term data).1.frame fun _ => True := by
  unfold Raft.snapshotCommit
  split
  · exact Acts.refl h trivial
  rename_i hcheck
  have hlt : r.snapshotIndex < index ∧ index ≤ r.commitIndex := by
    unfold Raft.snapshotCheck at hcheck
    split at hcheck
    · simp at hcheck
    · rename_i hno
      push Not at hno
      exact ⟨hno.2.1, hno.1⟩
  have hpos := (hs.pos h.inv.toDraft).1
  have hheld := h.ok.toHeld
  have hstore : r.logStore = .memory := hheld.store
  obtain ⟨l, k, hx, h0, hset, ht, -⟩ := id hs
  have hm := h.inv.rebase h.lt (l := l) (x := k) (by rw [h.core]; exact hset)
    (by rw [h.core, ← hx]; exact hlt.1.le)
  rw [h.core, ← hx, ← ht] at hm
  simp only [show max r.frame.commitIndex index = r.commitIndex from max_eq_left hlt.2,
    show max r.frame.lastApplied index = r.lastApplied from max_eq_left happ] at hm
  refine Acts.of_persist h hm ⟨⟨rfl, le_rfl, le_rfl, le_rfl⟩, fun hp => ⟨hp, rfl⟩⟩ fun G' hle => ?_
  have hh := hheld.mono hle
  refine ⟨hh.alive, hh.me, hh.peers, hh.members, ?_, hh.sync, hh.disk, hh.blob, hh.noBlob, hblob,
    fun _ => hs.mono hle le_rfl, fun hc => ?_, hh.pending⟩
  · show r.logStore.dropPrefix index = .memory
    simp [hstore]
  · exact absurd hc (by show (-1 : Int) ≠ index; omega)

theorem Held.truncateStore (h : Held n svc E G i r.frame) (index : Int) :
    r.truncateStore index = r := by
  have hstore : r.logStore = .memory := h.store
  unfold Raft.truncateStore
  rw [hstore, LogStorage.truncatePrefix_memory, ← hstore]

theorem frame_openBuffer {r r' : Raft} {args : InstallSnapshotArgs} (h : r.openBuffer args = some r') :
    r'.frame = r.frame := by
  unfold Raft.openBuffer at h
  split_ifs at h <;> cases h <;> rfl

theorem frame_addChunk (r : Raft) (args : InstallSnapshotArgs) :
    (r.addChunk args).1.frame = r.frame := by
  unfold Raft.addChunk
  dsimp only
  split_ifs <;> rfl

theorem frame_installReceive (r : Raft) (args : InstallSnapshotArgs) (reply : InstallSnapshotReply)
    (now : Int) : (r.installReceive args reply now).1.frame = r.frame := by
  unfold Raft.installReceive
  dsimp only
  split
  · rfl
  split
  · rfl
  · rename_i r' hb
    exact (frame_addChunk _ _).trans ((frame_openBuffer hb).trans rfl)

/-- A buffer passes only with the length and the checksum that the last chunk tells. -/
theorem addChunk_some {r : Raft} {args : InstallSnapshotArgs} {buf : Bytes}
    (h : (r.addChunk args).2 = some buf) : args.done = true ∧
      buf.length = args.offset.toNat + args.data.length ∧ crc32 buf = args.crc := by
  unfold Raft.addChunk at h
  dsimp only at h
  split_ifs at h with h1 h2 h3
  · cases h
    exact ⟨by simpa using h2, h3⟩

theorem installReceive_some {r : Raft} {args : InstallSnapshotArgs} {reply : InstallSnapshotReply}
    {now : Int} {buf : Bytes} (h : (r.installReceive args reply now).2.2 = some buf) :
    args.done = true ∧ buf.length = args.offset.toNat + args.data.length ∧ crc32 buf = args.crc := by
  unfold Raft.installReceive at h
  dsimp only at h
  split at h
  · cases h
  split at h
  · cases h
  · exact addChunk_some h

/-- A buffer that passes is the snapshot that was sent, unless a checksum failed to tell them apart. -/
theorem InstallOK.reassembled {args : InstallSnapshotArgs} (h : InstallOK n svc E G args) {buf : Bytes}
    (hd : args.done = true) (hlen : buf.length = args.offset.toNat + args.data.length)
    (hcrc : crc32 buf = args.crc) (hasm : E.assembled buf) :
    SnapOK n svc E G args.lastIncludedIndex args.lastIncludedTerm buf args.term := by
  obtain ⟨-, data, ⟨l, k, hx, h0, hset, ht, hc⟩, hcrc', hdone⟩ := h
  refine ⟨l, k, hx, h0, hset, ht, fun hint => ?_⟩
  obtain ⟨htaken, hload⟩ := hc hint
  have heq := hint buf data hasm htaken (hlen.trans (hdone hd)) (hcrc.trans hcrc')
  rw [heq]
  exact ⟨htaken, hload⟩

/-- A node answers for what it committed. -/
theorem At.vouch (h : At n svc E G K i r.frame) {m : Nat} (hm : (m : Int) ≤ r.commitIndex) :
    Acts n svc E G K i r.frame r.frame fun G' => Acks (majority n) G'.L i r.currentTerm m := by
  have hv := h.inv.vouch h.lt (m := m) (by rw [h.core]; exact hm)
  rw [h.core] at hv
  exact Acts.of_moves h hv (Grows.refl _) fun G' hle => h.ok.mono hle

theorem installReceive_ok {r : Raft} {args : InstallSnapshotArgs} {reply : InstallSnapshotReply}
    {now : Int} (h : (r.installReceive args reply now).2.1.okInstall = true) :
    args.lastIncludedIndex ≤ r.lastApplied := by
  unfold Raft.installReceive at h
  dsimp only at h
  split at h
  · assumption
  split at h <;> cases h

/-- A node of the leader's term says that it has a snapshot only if it applied that much. -/
theorem At.installReceive (h : At n svc E G K i r.frame) {args : InstallSnapshotArgs}
    (hreq : InstallOK n svc E G args) (hT : r.currentTerm = args.term) (reply : InstallSnapshotReply)
    (now : Int) :
    Acts n svc E G K i r.frame (r.installReceive args reply now).1.frame fun G' =>
      Vouched n G' i args (r.installReceive args reply now).2.1 := by
  rw [frame_installReceive]
  by_cases hok : (r.installReceive args reply now).2.1.okInstall = true
  · obtain ⟨-, data, ⟨l, k, hx, -⟩, -⟩ := hreq
    have happ : args.lastIncludedIndex ≤ r.lastApplied := installReceive_ok hok
    have hcom : r.lastApplied ≤ r.commitIndex := h.node.applied.2
    refine (h.vouch (m := k) (by omega)).imp fun G' _ hack _ => ⟨k, hx, ?_⟩
    rwa [← hT]
  · exact Acts.refl h fun hyes => absurd hyes hok

/-- Phase 0 of `InstallSnapshot`. -/
theorem At.installSnapshot (h : At n svc E G K i r.frame) {args : InstallSnapshotArgs}
    (hreq : InstallOK n svc E G args) (now : Int)
    (hasm : ∀ buf, (r.installSnapshot args now).2.2 = some buf → E.assembled buf) :
    Acts n svc E G K i r.frame (r.installSnapshot args now).1.frame fun G' =>
      Vouched n G' i args (r.installSnapshot args now).2.1 ∧
      ∀ buf, (r.installSnapshot args now).2.2 = some buf →
        args.term ≤ (r.installSnapshot args now).1.currentTerm ∧
        SnapOK n svc E G' args.lastIncludedIndex args.lastIncludedTerm buf args.term := by
  have hblob : ∀ (r' : Raft) (reply : InstallSnapshotReply) (G' : Ghost) (buf : Bytes), G.Le E G' →
      (r'.installReceive args reply now).2.2 = some buf → E.assembled buf →
      SnapOK n svc E G' args.lastIncludedIndex args.lastIncludedTerm buf args.term := by
    intro r' reply G' buf hle hb ha
    obtain ⟨hd, hlen, hcrc⟩ := installReceive_some hb
    exact (hreq.mono hle).reassembled hd hlen hcrc ha
  unfold Raft.installSnapshot at hasm ⊢
  dsimp only at hasm ⊢
  split
  · exact Acts.refl h ⟨fun hyes => by simp at hyes, fun buf hb => by simp at hb⟩
  rename_i hge
  rw [if_neg hge] at hasm
  split
  · rename_i hlt
    rw [if_pos hlt] at hasm
    have hc : (r.convertToFollowerLocked args.term).currentTerm = args.term :=
      congrArg Core.currentTerm (Raft.core_persistLocked _)
    refine (h.convertToFollower hlt.le fun _ => hlt).trans fun G₁ hle₁ hat _ => ?_
    refine (hat.installReceive (hreq.mono hle₁) hc _ now).imp fun G' hle hv => ⟨hv, fun buf hb => ⟨?_, ?_⟩⟩
    · have hf := congrArg (fun f : Frame => f.currentTerm) (frame_installReceive
        (r.convertToFollowerLocked args.term) args
        { term := (r.convertToFollowerLocked args.term).currentTerm } now)
      exact (hf.trans hc).ge
    · exact hblob _ _ G' buf (hle₁.trans hle) hb (hasm buf hb)
  · rename_i hle
    rw [if_neg hle] at hasm
    have hT : r.currentTerm = args.term := le_antisymm (not_lt.mp hge) (not_lt.mp hle)
    refine (h.installReceive hreq hT _ now).imp fun G' hle' hv => ⟨hv, fun buf hb => ⟨?_, ?_⟩⟩
    · have hf := congrArg (fun f : Frame => f.currentTerm) (frame_installReceive r args
        { term := r.currentTerm } now)
      exact (not_lt.mp hle).trans hf.ge
    · exact hblob _ _ G' buf hle' hb (hasm buf hb)

/-- The node after phase 2, up to its `PersistLocked`. -/
def Raft.installed (r : Raft) (args : InstallSnapshotArgs) (blob : Bytes) : Raft :=
  { r with
    snapshotIndex := args.lastIncludedIndex
    snapshotTerm := args.lastIncludedTerm
    snapshotData := blob
    snapCrc := 0
    snapCrcIndex := -1
    logs := cutLogs r.logs (args.lastIncludedIndex - r.snapshotIndex).toNat args.lastIncludedTerm
      args.lastIncludedIndex
    commitIndex := max r.commitIndex args.lastIncludedIndex
    lastApplied := max r.lastApplied args.lastIncludedIndex
    pendingSnapshot := some (Raft.snapshotMsg args blob) }

theorem Held.frame_install (h : Held n svc E G i r.frame) {args : InstallSnapshotArgs} {blob : Bytes}
    (hmem : args.members = List.replicate n 2) (happ : r.lastApplied < args.lastIncludedIndex)
    (hle : r.snapshotIndex ≤ r.lastApplied) (keep : Bool) :
    (((r.installBegin args blob).installLogs args r.snapshotIndex).installFinish
      (Raft.snapshotMsg args blob) keep).frame = (r.installed args blob).persistLocked.frame := by
  have hsync : r.persistAsync = false := h.sync
  have hstore : r.logStore = .memory := h.store
  have hmem' : (if args.members.length = r.peers then args.members.map MemberRole.ofInt
      else r.isMember) = r.isMember := by
    rw [hmem, show r.peers = n from h.peers, List.length_replicate, if_pos rfl, List.map_replicate,
      show r.isMember = List.replicate n .kVoter from h.members]
    rfl
  have hpend : (r.pendingSnapshot.map fun p => decide (p.snapshotIndex <
      (Raft.snapshotMsg args blob).snapshotIndex)).getD true = true := by
    cases hp : r.pendingSnapshot with
    | none => rfl
    | some p =>
      have hx : p.snapshotIndex = r.lastApplied := (h.pending p hp).2.2.1
      simp only [Option.map_some, Option.getD_some, decide_eq_true_eq, hx]
      exact happ
  unfold Raft.installFinish Raft.installLogs
  rw [Raft.installPos_of_le (hle.trans happ.le)]
  unfold Raft.installBegin
  rw [Raft.persistLocked_of_sync (by exact hsync), Raft.persistLocked_of_sync (by exact hsync)]
  simp only [hmem', hpend, hstore, LogStorage.dropPrefix_memory, LogStorage.truncatePrefix_memory]
  unfold Raft.installed Raft.frame Raft.core Raft.encodeRaftStateLocked
  simp only [hstore, LogStorage.keepsLogExternally_memory]
  rfl

/-- Phase 2 of `InstallSnapshot`. -/
theorem At.installCommit (h : At n svc E G K i r.frame) {args : InstallSnapshotArgs} {blob : Bytes}
    (hreq : InstallOK n svc E G args) (hT : args.term ≤ r.currentTerm)
    (hs : SnapOK n svc E G args.lastIncludedIndex args.lastIncludedTerm blob args.term)
    (hblob : args.lastIncludedIndex ≤ r.savedBlobIndex) :
    Acts n svc E G K i r.frame (r.installCommit args blob).1.frame fun G' =>
      Vouched n G' i args (r.installCommit args blob).2 := by
  have hheld := h.ok.toHeld
  unfold Raft.installCommit
  split
  · exact Acts.refl h fun hyes => by simp at hyes
  rename_i hstale
  simp only [Raft.installStale, Bool.or_eq_true, decide_eq_true_eq, not_or, not_lt, not_le] at hstale
  have hterm : r.currentTerm = args.term := le_antisymm hstale.1 hT
  have hvoter : (r.installBegin args blob).voter (r.installBegin args blob).me = true := by
    have hmem : (r.installBegin args blob).isMember = List.replicate n .kVoter := by
      unfold Raft.installBegin
      dsimp only
      rw [hreq.members, show r.peers = n from hheld.peers, List.length_replicate, if_pos rfl,
        List.map_replicate]
      rfl
    have hme : (r.installBegin args blob).me = i := hheld.me
    rw [Raft.voter, hmem, hme, List.getD_eq_getElem?_getD, List.getElem?_replicate, if_pos h.lt]
    rfl
  have hdep : (r.installBegin args blob).installDeposed args = false := by
    simp [Raft.installDeposed, hvoter]
  dsimp only
  simp only [hdep]
  have hap := h.node.applied.1
  rw [if_neg (by simp), hheld.frame_install hreq.members hstale.2 hap]
  have hpos := (hs.pos h.inv.toDraft).1
  obtain ⟨l, k, hx, h0, hset, ht, -⟩ := id hs
  have hm := h.inv.rebase h.lt (l := l) (x := k)
    (by rw [h.core, show r.frame.currentTerm = args.term from hterm]; exact hset)
    (by rw [h.core, ← hx]; exact hap.trans hstale.2.le)
  rw [h.core, ← hx, ← ht] at hm
  have hvouch : Moves n E G K i (r.installed args blob).core fun G' =>
      ∃ m : Nat, args.lastIncludedIndex = m ∧ Acks (majority n) G'.L i args.term m := by
    refine hm.trans fun G₁ _ hinv _ => ?_
    have hv := hinv.vouch h.lt (m := k) (by
      rw [Function.update_self, ← hx]
      exact le_max_right _ _)
    rw [Function.update_self] at hv
    refine hv.imp fun G' _ hack => ⟨k, hx, ?_⟩
    rwa [← hterm]
  refine Acts.of_persist (r := r.installed args blob) h (hvouch.imp fun G' _ hk _ => hk)
    ⟨⟨rfl, le_rfl, le_max_left _ _, le_rfl⟩, fun hp => by cases hp⟩ fun G' hle => ?_
  have hh := hheld.mono hle
  have hs' := hs.mono hle hterm.ge
  refine ⟨hh.alive, hh.me, hh.peers, hh.members, hh.store, hh.sync, hh.disk, hh.blob, hh.noBlob, hblob,
    fun _ => hs', fun hc => ?_, fun m hm => ?_⟩
  · exact absurd hc (by show (-1 : Int) ≠ args.lastIncludedIndex; omega)
  · cases hm
    exact ⟨rfl, rfl, (max_eq_right hstale.2.le).symm, hs'⟩

/-- The callback of a chunk. -/
theorem At.snapshotReply (h : At n svc E G K i r.frame) {args : InstallSnapshotArgs} (s : Nat)
    (ok : Bool) (reply : InstallSnapshotReply) (now : Int)
    (hacc : ok = true → Vouched n G s args reply) :
    Acts n svc E G K i r.frame (r.snapshotReply args s ok reply now).frame fun _ => True := by
  unfold Raft.snapshotReply
  split
  · exact Acts.refl h trivial
  dsimp only
  generalize (if ok = true then reply.term else 0) = replyTerm
  split
  · rename_i hlt
    exact At.stepDownTo (r := r.noteReached s ok) h hlt
  split
  · split <;> exact Acts.quiet h rfl trivial
  rename_i hgo
  push Not at hgo
  have hT : args.term = r.currentTerm := hgo.1
  have hs : r.state = .kLeader := hgo.2
  split
  · exact Acts.quiet h rfl trivial
  split
  · rename_i hyes
    obtain ⟨k, hx, hack⟩ := hacc hyes.1 hyes.2
    rw [hT] at hack
    have leads := h.node.leads hs
    have hlast : r.lastLogIndexLocked = (G.L.log i).length := h.node.shows.lastIndexOf_eq
    have hlen := hack.le_hist h.inv.wf leads.opened
    rw [← show G.L.log i = G.L.hist r.currentTerm from leads.log] at hlen
    have hlead := h.inv.lead h.lt (by rw [h.core]; exact hs)
      (u := r.nextIndex.set s (args.lastIncludedIndex + 1))
      (v := r.matchIndex.set s (max (r.matchIndex.getD s 0) args.lastIncludedIndex)) (fun q => by
        rw [h.core]
        rcases getD_set_cases (l := r.matchIndex) (s := s) (q := q)
          (x := max (r.matchIndex.getD s 0) args.lastIncludedIndex) (d := 0) with ⟨rfl, hq⟩ | hq
        · obtain ⟨m, hm, ha⟩ := leads.matched q
          have hm' : r.matchIndex.getD q 0 = m := hm
          rw [hq, hm', hx]
          rcases le_total m k with hmk | hkm
          · exact ⟨k, by omega, hack⟩
          · exact ⟨m, by omega, ha⟩
        · rw [hq]
          exact leads.matched q) fun q => by
      rw [h.core]
      rcases getD_set_cases (l := r.nextIndex) (s := s) (q := q)
        (x := args.lastIncludedIndex + 1) (d := 0) with ⟨-, hq⟩ | hq
      · rw [hq, show lastIndexOf r.frame.logs = r.lastLogIndexLocked from rfl]
        omega
      · rw [hq]
        have hnx := leads.next q
        rw [← leads.log, ← h.node.shows.lastIndexOf_eq] at hnx
        exact hnx
    rw [h.core] at hlead
    exact Acts.of_hard h hlead rfl
  · exact Acts.quiet h rfl trivial

/-- What the upper layer is fed, from the state at index `a` to that at `b`. -/
inductive Fed (n : Nat) (svc : Service σ) (E : Record) (G : Ghost) : Int → List ApplyMsg → Int → Prop
  | nil (a : Int) : Fed n svc E G a [] a
  | command {l : List LogEntry} {k : Nat} {T : Int} {e : LogEntry} {ms : List ApplyMsg} {b : Int}
      (settled : G.L.Settled (majority n) l (k+1) T) (get : l[k]? = some e)
      (rest : Fed n svc E G ((k+1 : Nat) : Int) ms b) :
      Fed n svc E G k (Raft.commandMsg ((k+1 : Nat) : Int) e :: ms) b
  | snapshot {m : ApplyMsg} {T a : Int} {ms : List ApplyMsg} {b : Int}
      (valid : m.snapshotValid = true) (noCommand : m.commandValid = false)
      (ok : SnapOK n svc E G m.snapshotIndex m.snapshotTerm m.snapshot T)
      (rest : Fed n svc E G m.snapshotIndex ms b) : Fed n svc E G a (m :: ms) b

theorem Fed.mono {G' : Ghost} {a b : Int} {ms : List ApplyMsg} (h : Fed n svc E G a ms b)
    (hle : G.Le E G') : Fed n svc E G' a ms b := by
  induction h with
  | nil a => exact .nil a
  | command settled get _ ih => exact .command (settled.ext hle.ext) get ih
  | snapshot valid noCommand ok _ ih => exact .snapshot valid noCommand (ok.mono hle le_rfl) ih

theorem Fed.append {a b c : Int} {ms ms' : List ApplyMsg} (h : Fed n svc E G a ms b)
    (h' : Fed n svc E G b ms' c) : Fed n svc E G a (ms ++ ms') c := by
  induction h with
  | nil a => exact h'
  | command settled get _ ih => exact .command settled get (ih h')
  | snapshot valid noCommand ok _ ih => exact .snapshot valid noCommand ok (ih h')

/-- The batch loop, where the log has the indexes and none of them is a conf entry. -/
theorem applyBatch_eq (now : Int) : ∀ (k : Nat) (r : Raft) (x : Int), r.installGateDepth ≤ 0 →
    r.snapshotIndex < x → x + k ≤ r.snapshotIndex + r.logs.length →
    (∀ j : Nat, j < k → (r.logAt (x+j)).type ≠ .kConfChange) →
    (r.applyBatch now k x).1.frame =
      { r.frame with lastApplied := if k = 0 then r.lastApplied else x + k - 1 } ∧
    (r.applyBatch now k x).1.logs = r.logs ∧
    (r.applyBatch now k x).2 =
      (List.range k).map fun j : Nat => Raft.commandMsg (x+j) (r.logAt (x+j)) := by
  intro k
  induction k with
  | zero => exact fun r x _ _ _ _ => ⟨rfl, rfl, rfl⟩
  | succ k ih =>
    intro r x hgate hx hlen hconf
    have hin : r.inLogs x := by
      refine ⟨by omega, ?_⟩
      push_cast at hlen
      omega
    have hturn : r.applyTurn x =
        .dispatch { r with lastApplied := x } (Raft.commandMsg x (r.logAt x)) := by
      have hty : (r.logAt x).type ≠ .kConfChange := by
        have hz := hconf 0 (by omega)
        simpa using hz
      unfold Raft.applyTurn
      rw [if_neg (by omega), if_neg (by omega), if_neg (not_not.mpr hin)]
      dsimp only
      rw [if_neg hty]
    unfold Raft.applyBatch
    rw [hturn]
    dsimp only
    obtain ⟨hframe, hlogs, hmsgs⟩ := ih { r with lastApplied := x } (x+1) hgate
      (by show r.snapshotIndex < x + 1; omega)
      (by show x + 1 + (k : Int) ≤ r.snapshotIndex + r.logs.length; push_cast at hlen; omega)
      (fun j hj => by
        have hz := hconf (j+1) (by omega)
        rwa [show x + ((j+1 : Nat) : Int) = x + 1 + j by push_cast; omega] at hz)
    refine ⟨?_, hlogs, ?_⟩
    · have hk : ¬ k + 1 = 0 := Nat.succ_ne_zero k
      have hla : (if k = 0 then x else x + 1 + (k : Int) - 1) = x + ((k+1 : Nat) : Int) - 1 := by
        split <;> (push_cast; omega)
      rw [hframe, if_neg hk, ← hla]
      rfl
    · rw [hmsgs, List.range_succ_eq_map, List.map_cons, List.map_map]
      refine congrArg₂ List.cons (by simp) (List.map_congr_left fun j _ => ?_)
      simp only [Function.comp_apply, Nat.succ_eq_add_one]
      rw [show x + ((j+1 : Nat) : Int) = x + 1 + j by push_cast; omega]
      rfl

/-- The messages of consecutive settled entries. -/
theorem Fed.of_range {l : List LogEntry} {c : Nat} {T : Int} (hset : G.L.Settled (majority n) l c T) :
    ∀ (k a : Nat) (f : Nat → LogEntry), a + k ≤ c → (∀ j : Nat, j < k → l[a+j]? = some (f j)) →
      Fed n svc E G a ((List.range k).map fun j : Nat => Raft.commandMsg ((a : Int) + 1 + j) (f j))
        ((a + k : Nat) : Int) := by
  intro k
  induction k with
  | zero => exact fun a f _ _ => .nil _
  | succ k ih =>
    intro a f hc hf
    rw [List.range_succ_eq_map, List.map_cons, List.map_map]
    have hrest := ih (a+1) (fun j => f (j+1)) (by omega) fun j hj => by
      rw [show a + 1 + j = a + (j+1) by omega]
      exact hf (j+1) (by omega)
    have hmap : ((fun j : Nat => Raft.commandMsg ((a : Int) + 1 + j) (f j)) ∘ Nat.succ) =
        fun j : Nat => Raft.commandMsg (((a+1 : Nat) : Int) + 1 + j) (f (j+1)) := by
      funext j
      simp only [Function.comp_apply, Nat.succ_eq_add_one]
      congr 1
      push_cast
      omega
    rw [hmap, show a + (k+1) = a + 1 + k by omega,
      show (a : Int) + 1 + ((0 : Nat) : Int) = ((a+1 : Nat) : Int) by push_cast; omega]
    exact .command (hset.mono (by omega) le_rfl) (by simpa using hf 0 (by omega)) hrest

/-- A log entry that the applier dispatched. -/
def DispatchOK (n : Nat) (G : Ghost) (e : LogEntry) : Prop :=
  ∃ (l : List LogEntry) (k : Nat) (T : Int), G.L.Settled (majority n) l (k+1) T ∧ l[k]? = some e

/-- A snapshot that the applier passed on. -/
def PassedOK (n : Nat) (svc : Service σ) (E : Record) (G : Ghost) (m : ApplyMsg) : Prop :=
  ∃ T, SnapOK n svc E G m.snapshotIndex m.snapshotTerm m.snapshot T

/-- The index of the state that a message leads to. -/
def ApplyMsg.index (m : ApplyMsg) : Int := if m.commandValid then m.commandIndex else m.snapshotIndex

/-- One turn of `ApplyLoop`. -/
structure Applies (n : Nat) (svc : Service σ) (E : Record) (G : Ghost) (r r' : Raft)
    (batch : List ApplyMsg) : Prop where
  fed : ∀ a, (r.pendingSnapshot = none → a = r.lastApplied) →
    ∃ b, Fed n svc E G a batch b ∧ (r'.pendingSnapshot = none → b = r'.lastApplied)
  bound : ∀ m ∈ batch, m.index ≤ r'.lastApplied
  dispatched : ∀ m ∈ batch, m.commandValid = true → DispatchOK n G (r.logAt m.commandIndex)
  installed : ∀ m ∈ batch, m.snapshotValid = true → PassedOK n svc E G m

theorem Applies.none (r : Raft) : Applies n svc E G r r [] where
  fed a ha := ⟨a, .nil a, ha⟩
  bound m hm := by simp at hm
  dispatched m hm := by simp at hm
  installed m hm := by simp at hm

theorem At.applyLoop (h : At n svc E G K i r.frame) (now : Int) :
    Applying n svc E G K i r.frame (r.applyLoop now).1.frame ∧
      Applies n svc E G r (r.applyLoop now).1 (r.applyLoop now).2 := by
  have hheld := h.ok.toHeld
  unfold Raft.applyLoop
  split
  · exact ⟨Applying.refl h, .none r⟩
  rename_i hgate
  push Not at hgate
  split
  · rename_i m hm
    obtain ⟨hv, hc, hx, hs⟩ := hheld.pending m hm
    refine ⟨Applying.of_moves h (Moves.refl h.inv h.core trivial)
      ⟨rfl, le_rfl, le_rfl, le_rfl⟩ fun G' hle => ?_, ?_⟩
    · have hh := h.ok.mono hle
      exact ⟨⟨hh.alive, hh.me, hh.peers, hh.members, hh.store, hh.sync, hh.disk, hh.blob, hh.noBlob,
        hh.blobIndex, hh.data, hh.crc, fun m hm => by cases hm⟩, hh.saved.term, hh.saved.vote,
        hh.saved.members, hh.saved.logs⟩
    · refine ⟨fun a _ => ⟨m.snapshotIndex, .snapshot hv hc hs (.nil _), fun _ => hx⟩, ?_, ?_, ?_⟩
      · intro m' hm'
        rw [List.mem_singleton.mp hm', ApplyMsg.index, hc]
        exact hx.le
      · intro m' hm' hcv
        rw [List.mem_singleton.mp hm', hc] at hcv
        cases hcv
      · intro m' hm' _
        rw [List.mem_singleton.mp hm']
        exact ⟨_, hs⟩
  rename_i hpend
  split
  · rename_i hlt
    have node := h.node
    have hshow := node.shows
    have hsi : r.snapshotIndex = G.L.base i := hshow.index
    have hlen := hshow.length
    have hbase := hshow.le
    obtain ⟨hap, -⟩ : r.snapshotIndex ≤ r.lastApplied ∧ r.lastApplied ≤ r.commitIndex := node.applied
    obtain ⟨c, hcc, hset⟩ := node.commit
    have hc : r.commitIndex = c := hcc
    have hcl := hset.le_length
    obtain ⟨a, ha⟩ : ∃ a : Nat, r.lastApplied = a := ⟨r.lastApplied.toNat, by omega⟩
    generalize hk : (r.applyStop - r.lastApplied).toNat = k
    have hstop : a + k ≤ c ∧ 0 < k := by
      have hl : r.logs.length = (G.L.log i).length - G.L.base i + 1 := hlen
      rw [Raft.applyStop, kMaxApplyBatch] at hk
      omega
    have hget : ∀ j : Nat, j < k → (G.L.log i)[a+j]? = some (r.logAt (a + 1 + j)) := by
      intro j hj
      have hp : (G.L.log i)[a+j]? = some (G.L.log i)[a+j] := List.getElem?_eq_getElem (by omega)
      have he := hshow.entryAt_eq (p := a+j) (by omega) hp
      rw [hp, Raft.logAt, show (a : Int) + 1 + j = ((a+j : Nat) : Int) + 1 by push_cast; omega]
      exact congrArg some he.symm
    have hconf : ∀ j : Nat, j < k → (r.logAt (r.lastApplied + 1 + j)).type ≠ .kConfChange := by
      intro j hj
      obtain ⟨⟨U, hU⟩, -⟩ := h.inv.settled_mem hset (hget j hj) (by omega)
      rw [ha]
      exact h.inv.noConf U _ hU
    obtain ⟨hframe, hlogs, hmsgs⟩ := applyBatch_eq now k r (r.lastApplied + 1) hgate.2
      (by omega) (by have hl : r.logs.length = (G.L.log i).length - G.L.base i + 1 := hlen; omega) hconf
    rw [if_neg (by omega), show r.lastApplied + 1 + (k : Int) - 1 = ((a + k : Nat) : Int) by
      push_cast; omega] at hframe
    have hpend' : (r.applyBatch now k (r.lastApplied + 1)).1.pendingSnapshot = none :=
      (congrArg (fun f : Frame => f.pendingSnapshot) hframe).trans hpend
    have hla : (r.applyBatch now k (r.lastApplied + 1)).1.lastApplied = ((a + k : Nat) : Int) :=
      congrArg (fun f : Frame => f.lastApplied) hframe
    refine ⟨?_, fun b hb => ?_, fun m hm => ?_, fun m hm hv => ?_, fun m hm hv => ?_⟩
    · rw [hframe]
      have hm := h.inv.keep h.lt (x := { r.frame.toCore with lastApplied := ((a + k : Nat) : Int) })
        (by rw [h.core]) (by rw [h.core]) (by rw [h.core]) (by rw [h.core]) (by rw [h.core])
        (by rw [h.core]) ⟨by show r.snapshotIndex ≤ ((a + k : Nat) : Int); push_cast; omega,
          by show ((a + k : Nat) : Int) ≤ r.commitIndex; omega⟩ ⟨c, hcc, hset⟩ (fun hl => ?_) fun hl => ?_
      · refine Applying.of_moves h hm ⟨rfl, le_rfl, by
          show r.lastApplied ≤ ((a + k : Nat) : Int)
          push_cast
          omega, le_rfl⟩
          fun G' hle => ?_
        have hh := h.ok.mono hle
        refine ⟨⟨hh.alive, hh.me, hh.peers, hh.members, hh.store, hh.sync, hh.disk, hh.blob, hh.noBlob,
          hh.blobIndex, hh.data, hh.crc, fun m hm => ?_⟩, hh.saved.term, hh.saved.vote,
          hh.saved.members, hh.saved.logs⟩
        exact absurd (hpend.symm.trans hm) (by simp)
      · have leads := node.leads hl
        exact ⟨leads.opened, leads.owner, leads.log, leads.self, leads.matched, leads.next⟩
      · exact (node.stands hl).granted
    · refine ⟨_, ?_, fun _ => hla.symm⟩
      rw [hmsgs, hb hpend, ha]
      exact Fed.of_range hset k a (fun j => r.logAt (a + 1 + j)) hstop.1 hget
    · rw [hmsgs, List.mem_map] at hm
      obtain ⟨j, hj, rfl⟩ := hm
      have hjk := List.mem_range.mp hj
      rw [hla, show (Raft.commandMsg (r.lastApplied + 1 + j) (r.logAt (r.lastApplied + 1 + j))).index =
        r.lastApplied + 1 + j from rfl]
      omega
    · rw [hmsgs, List.mem_map] at hm
      obtain ⟨j, hj, rfl⟩ := hm
      rw [show (Raft.commandMsg (r.lastApplied + 1 + j) (r.logAt (r.lastApplied + 1 + j))).commandIndex =
        r.lastApplied + 1 + j from rfl, ha]
      exact ⟨_, a + j, _, hset.mono (by have := List.mem_range.mp hj; omega) le_rfl,
        hget j (List.mem_range.mp hj)⟩
    · rw [hmsgs, List.mem_map] at hm
      obtain ⟨j, -, rfl⟩ := hm
      simp [Raft.commandMsg] at hv
  · exact ⟨Applying.refl h, .none r⟩

/-- A node that came up from a state blob. -/
def booted (n i : Nat) (p : Persister) (st : RaftState) : Frame where
  state := .kFollower
  currentTerm := st.currentTerm
  votedFor := st.votedFor
  voteGranted := []
  logs := st.logs
  snapshotIndex := st.snapshotIndex
  snapshotTerm := st.snapshotTerm
  commitIndex := st.snapshotIndex
  lastApplied := st.snapshotIndex
  nextIndex := List.replicate n (lastIndexOf st.logs + 1)
  matchIndex := List.replicate n 0
  killed := false
  me := i
  peers := n
  isMember := st.isMember
  logStore := .memory
  persistAsync := false
  persister := p
  savedBlobIndex := st.snapshotIndex
  pendingSnapshot := none
  snapshotData := []
  snapCrc := 0
  snapCrcIndex := -1

/-- The state blob with the log cut behind the snapshot blob. -/
def RaftState.behind (st : RaftState) (b : SnapshotBlob) : RaftState :=
  { st with
    logs := cutLogs st.logs (b.index - st.snapshotIndex).toNat b.term b.index
    snapshotIndex := b.index
    snapshotTerm := b.term }

/-- The bytes of a snapshot blob are loaded with it. -/
def Frame.load (f : Frame) (b : SnapshotBlob) : Frame :=
  { f with snapshotData := b.raw, snapCrc := crc32 b.raw, snapCrcIndex := b.index }

theorem frame_make_none {p : Persister} (hf : p.fileBacked = false) (hst : p.raftState = none)
    (seg : List LogEntry) (now : Int) :
    (Raft.make n i ⟨p, seg⟩ now).frame = booted n i p (firstState n) := by
  unfold Raft.make Raft.blank
  simp only [hst, hf]
  rfl

theorem frame_make_some {p : Persister} {st : RaftState} (hf : p.fileBacked = false)
    (hst : p.raftState = some st) (hm : st.isMember.length = n) (seg : List LogEntry) (now : Int) :
    (Raft.make n i ⟨p, seg⟩ now).frame = match p.snapshot with
      | none => booted n i p st
      | some b =>
        if st.snapshotIndex < b.index then (booted n i p (st.behind b)).load b
        else if b.index = st.snapshotIndex then (booted n i p st).load b
        else booted n i p st := by
  unfold Raft.make Raft.readPersist Raft.restoreRest Raft.restoreState
  simp only [hst]
  cases hb : p.snapshot with
  | none =>
    simp only [Raft.blank, hf, hb, hm]
    rfl
  | some b =>
    simp only [Raft.blank, hf, hb, Raft.adoptBlob]
    by_cases h1 : st.snapshotIndex < b.index
    · simp only [h1, if_true, hm, max_eq_right h1.le]
      rfl
    · by_cases h2 : b.index = st.snapshotIndex
      · simp only [h2, lt_irrefl, if_false, if_true, hm]
        unfold Frame.load
        rw [h2]
        rfl
      · simp only [h1, h2, if_false, hm]
        rfl

theorem cutLogs_cutLogs (logs : List LogEntry) (p q : Nat) (t x u y : Int) :
    cutLogs (cutLogs logs p t x) q u y = cutLogs logs (p+q) u y := by
  simp only [cutLogs, List.drop_succ_cons, List.drop_drop]
  congr 2
  omega

/-- A crash leaves the log as it was. -/
theorem At.crashed {f : Frame} (h : At n svc E G K i f) {x : Core} (hs : x.state = .kFollower)
    (hT : x.currentTerm = f.currentTerm) (hv : x.votedFor = f.votedFor) (hl : x.logs = f.logs)
    (hx : x.snapshotIndex = f.snapshotIndex) (ht : x.snapshotTerm = f.snapshotTerm)
    (hc : x.commitIndex = f.snapshotIndex) (ha : x.lastApplied = f.snapshotIndex) :
    Moves n E G K i x fun _ => True := by
  obtain ⟨h1, h2⟩ := h.node.applied
  refine h.inv.stepDown h.lt ?_ hs ?_ ?_ ?_ ?_ ?_ ?_
  · rw [h.core, hT]
  · rw [h.core]
    exact fun _ _ => hv
  · rw [h.core, hl]
  · rw [h.core, hx]
  · rw [h.core, ht]
  · rw [hx, hc, ha]
    exact ⟨le_rfl, le_rfl⟩
  · rw [h.core, hc]
    exact h1.trans h2

/-- A crash of a node whose snapshot blob is later than its state cuts the log behind the blob. -/
theorem At.crashedBehind {f : Frame} (h : At n svc E G K i f) {st : RaftState} (hst : Stored f st)
    {b : SnapshotBlob} (hb : SnapOK n svc E G b.index b.term b.raw f.currentTerm)
    (hle : f.snapshotIndex ≤ b.index) (hlt : st.snapshotIndex < b.index) :
    Moves n E G K i ((booted n i f.persister (st.behind b)).load b).toCore fun _ => True := by
  obtain ⟨l, x, hx, h0, hset, ht, -⟩ := hb
  rw [← hst.term] at hset
  have hstep := h.crashed (x := { (booted n i f.persister (st.behind b)).toCore with
    logs := f.logs, snapshotIndex := f.snapshotIndex, snapshotTerm := f.snapshotTerm
    commitIndex := f.snapshotIndex, lastApplied := f.snapshotIndex })
    rfl hst.term hst.vote rfl rfl rfl rfl rfl
  refine hstep.trans fun G₁ hle₁ hinv _ => ?_
  have hm := hinv.rebase h.lt (l := l) (x := x)
    (by rw [Function.update_self]; exact hset.ext hle₁.ext)
    (by rw [Function.update_self, ← hx]; exact hle)
  rw [Function.update_self, ← hx, ← ht] at hm
  have hcut : cutLogs f.logs (b.index - f.snapshotIndex).toNat b.term b.index =
      cutLogs st.logs (b.index - st.snapshotIndex).toNat b.term b.index := by
    rcases hst.logs with ⟨hi, -, hl⟩ | ⟨h0', hlt', hl⟩
    · rw [hi, hl]
    · rw [hl, cutLogs_cutLogs]
      congr 1
      omega
  simp only [hcut, max_eq_right hle] at hm
  exact hm

theorem Held.booted {f : Frame} (h : Held n svc E G i f) {st : RaftState}
    (hm : st.isMember = f.isMember) (hx : st.snapshotIndex = 0)
    (hb : f.persister.snapshot = none) : Held n svc E G i (booted n i f.persister st) where
  alive := rfl
  me := rfl
  peers := rfl
  members := hm.trans h.members
  store := rfl
  sync := rfl
  disk := h.disk
  blob b hb' := by
    rw [show f.persister.snapshot = some b from hb'] at hb
    cases hb
  noBlob _ := hx
  blobIndex := le_rfl
  data h0 := by
    have h0' : 0 < st.snapshotIndex := h0
    omega
  crc hc := by
    have hc' : (-1 : Int) = st.snapshotIndex := hc
    omega
  pending m hm := by cases hm

theorem Held.bootedLoad {f : Frame} (h : Held n svc E G i f) {st : RaftState} {b : SnapshotBlob}
    (hT : st.currentTerm = f.currentTerm) (hm : st.isMember = f.isMember)
    (hx : st.snapshotIndex = b.index) (ht : st.snapshotTerm = b.term)
    (hb : f.persister.snapshot = some b) :
    Held n svc E G i ((ChonKV.booted n i f.persister st).load b) := by
  obtain ⟨-, hs⟩ := h.blob b hb
  rw [← hT] at hs
  refine ⟨rfl, rfl, rfl, hm.trans h.members, rfl, rfl, h.disk, fun b' hb' => ?_, fun hb' => ?_, le_rfl,
    fun _ => ?_, fun _ => rfl, fun m hm => by cases hm⟩
  · rw [show f.persister.snapshot = some b' from hb'] at hb
    cases hb
    exact ⟨hx.symm, hs⟩
  · rw [show f.persister.snapshot = none from hb'] at hb
    cases hb
  · show SnapOK n svc E G st.snapshotIndex st.snapshotTerm b.raw st.currentTerm
    rwa [hx, ht]

theorem Held.store_some {f : Frame} (h : Held n svc E G i f) {st : RaftState}
    (hr : f.persister.raftState = some st) (hst : Stored f st) : NodeOK n svc E G i f :=
  ⟨h, by rwa [hr, Option.getD_some]⟩

/-- A snapshot that the node holds has the term of the entry it covers. -/
theorem At.snapTerm {f : Frame} (h : At n svc E G K i f) {x t : Int} {raw : Bytes}
    (hs : SnapOK n svc E G x t raw f.currentTerm) (hx : f.snapshotIndex = x) : f.snapshotTerm = t := by
  obtain ⟨l, k, hk, -, hset, ht, -⟩ := hs
  have hshow := h.node.shows
  have hb : (G.L.base i : Int) = k := by
    rw [← hk, ← hx]
    exact hshow.index.symm
  have hag := h.inv.wf.settled_agree (h.inv.wf.settled i) hset
  rw [show f.snapshotTerm = _ from hshow.term, ht, Int.ofNat_inj.mp hb]
  rw [Int.ofNat_inj.mp hb, Nat.min_self] at hag
  exact termAt_congr hag

/-- What comes up after a crash is what the abstract state knows of the node. -/
theorem At.crash {f : Frame} (h : At n svc E G K i f) (seg : List LogEntry) (now : Int) :
    ∃ G', G.Le E G' ∧ At n svc E G' (update K i (Raft.make n i ⟨f.persister, seg⟩ now).core) i
      (Raft.make n i ⟨f.persister, seg⟩ now).frame := by
  have hok := h.ok
  have hsaved := hok.saved
  have h0 : 0 ≤ f.snapshotIndex := by
    rw [show f.snapshotIndex = _ from h.node.shows.index]
    exact Int.natCast_nonneg _
  -- the blob tells how far the log was cut
  have hfrom : ∀ f' : Frame, (Raft.make n i ⟨f.persister, seg⟩ now).frame = f' →
      Moves n E G K i f'.toCore (fun _ => True) → NodeOK n svc E G i f' →
      ∃ G', G.Le E G' ∧ At n svc E G' (update K i (Raft.make n i ⟨f.persister, seg⟩ now).core) i
        (Raft.make n i ⟨f.persister, seg⟩ now).frame := by
    rintro f' rfl ⟨G', hle, hinv, -⟩ hok'
    exact ⟨G', hle, hinv, by simp; rfl, h.lt, hok'.mono hle⟩
  have hplain : ∀ st, Stored f st → st.snapshotIndex = f.snapshotIndex →
      st.snapshotTerm = f.snapshotTerm ∧ st.logs = f.logs := by
    intro st hst hx
    rcases hst.logs with ⟨-, ht, hl⟩ | ⟨-, hlt, -⟩
    · exact ⟨ht, hl⟩
    · omega
  cases hr : f.persister.raftState with
  | none =>
    rw [hr, Option.getD_none] at hsaved
    have hb : f.persister.snapshot = none := by
      cases hb : f.persister.snapshot with
      | none => rfl
      | some b =>
        have hpos := ((hok.blob b hb).2.pos h.inv.toDraft).2
        have hT : (0 : Int) = f.currentTerm := hsaved.term
        omega
    have hx : (firstState n).snapshotIndex = f.snapshotIndex := by
      have hle := hok.blobIndex
      rw [hok.noBlob hb] at hle
      exact le_antisymm h0 hle
    obtain ⟨ht, hl⟩ := hplain _ hsaved hx
    refine hfrom _ (frame_make_none hok.disk hr seg now) ?_ ⟨hok.toHeld.booted hsaved.members rfl hb, ?_⟩
    · exact h.crashed rfl hsaved.term hsaved.vote hl hx ht hx hx
    · rw [show (booted n i f.persister (firstState n)).persister = f.persister from rfl, hr]
      exact ⟨rfl, rfl, rfl, .inl ⟨rfl, rfl, rfl⟩⟩
  | some st =>
    rw [hr, Option.getD_some] at hsaved
    have hm : st.isMember.length = n := by
      rw [hsaved.members, hok.members, List.length_replicate]
    have hframe := frame_make_some (i := i) hok.disk hr hm seg now
    cases hb : f.persister.snapshot with
    | none =>
      rw [hb] at hframe
      have hle := hok.blobIndex
      rw [hok.noBlob hb] at hle
      have hx : st.snapshotIndex = f.snapshotIndex := by
        rcases hsaved.logs with ⟨hx, -⟩ | ⟨hx0, hlt, -⟩
        · exact hx
        · omega
      obtain ⟨ht, hl⟩ := hplain _ hsaved hx
      exact hfrom _ hframe (h.crashed rfl hsaved.term hsaved.vote hl hx ht hx hx)
        ((hok.toHeld.booted hsaved.members (by omega) hb).store_some hr
          ⟨rfl, rfl, rfl, .inl ⟨rfl, rfl, rfl⟩⟩)
    | some b =>
      rw [hb] at hframe
      obtain ⟨hbx, hs⟩ := hok.blob b hb
      have hle : f.snapshotIndex ≤ b.index := hbx ▸ hok.blobIndex
      have hstx : 0 ≤ st.snapshotIndex ∧ st.snapshotIndex ≤ f.snapshotIndex := by
        rcases hsaved.logs with ⟨hx, -⟩ | ⟨hx0, hlt, -⟩ <;> omega
      by_cases hlt : st.snapshotIndex < b.index
      · simp only [hlt, if_true] at hframe
        have hheld : Held n svc E G i ((ChonKV.booted n i f.persister (st.behind b)).load b) :=
          hok.toHeld.bootedLoad hsaved.term hsaved.members rfl rfl hb
        exact hfrom _ hframe (h.crashedBehind hsaved hs hle hlt)
          (hheld.store_some hr ⟨rfl, rfl, rfl, .inr ⟨hstx.1, hlt, rfl⟩⟩)
      · have hx : b.index = st.snapshotIndex := by omega
        have hxf : st.snapshotIndex = f.snapshotIndex := by omega
        simp only [hx, lt_irrefl, if_false, if_true] at hframe
        obtain ⟨ht, hl⟩ := hplain _ hsaved hxf
        have htb : st.snapshotTerm = b.term := ht.trans (h.snapTerm hs (by omega))
        exact hfrom _ hframe (h.crashed rfl hsaved.term hsaved.vote hl hxf ht hxf hxf)
          ((hok.toHeld.bootedLoad hsaved.term hsaved.members hx.symm htb hb).store_some hr
            ⟨rfl, rfl, rfl, .inl ⟨rfl, rfl, rfl⟩⟩)

end
end ChonKV
