import ChonKV.Cluster.History
import ChonKV.Cluster.Readers

/-!
Linearizable reads: a call of `ReadIndex` that gives a read index gives one that is not below what any node had
committed before the call, as long as nobody joins a round at a leader that has fallen behind.
-/

set_option autoImplicit false

namespace ChonKV

open Ballot Raft
open Function (update)

section
variable {σ : Type}

/-- The node at which a call of `ReadIndex` runs its first stretch, and the time. -/
def Cluster.opens (c : Cluster σ) : Event → Option (Nat × Int)
  | .read i now => some (i, now)
  | .runTask i k now => match (c.nodes i).tasks[k]? with
    | some (.readOpen _) => some (i, now)
    | _ => none
  | _ => none

/-- A reader joins a round that is under way, at a leader that has committed less than some node did. -/
def Cluster.joinsBehind (c : Cluster σ) (e : Event) : Bool :=
  match c.opens e with
  | none => false
  | some (i, now) => match ((c.nodes i).raft.readIndexOpen now).2 with
    | .wait _ _ readIndex false => decide (readIndex < c.maxCommit)
    | _ => false

theorem joins_le {c : Cluster σ} {e : Event} (h : c.joinsBehind e = false) {i : Nat} {now : Int}
    (ho : c.opens e = some (i, now)) {ctx : Nat} {term readIndex : Int}
    (hw : ((c.nodes i).raft.readIndexOpen now).2 = .wait ctx term readIndex false) : c.maxCommit ≤ readIndex := by
  rw [Cluster.joinsBehind, ho] at h
  dsimp only at h
  rw [hw] at h
  simpa using h

/-- The calls on record: none got less than it is owed. -/
def CallsOK (R : Readers) (calls : List ReadCall) : Prop :=
  ∀ (k : Nat) rc, calls[k]? = some rc → rc.floor = R.call k ∧ ∀ r, rc.result = some r → 0 ≤ r → rc.floor ≤ r

/-- The invariant of the readers of a run. -/
structure Reads (n : Nat) (G : Ghost) (R : Readers) (c : Cluster σ) : Prop where
  fair : ∀ i inc ctx op, R.opening i inc ctx = some op → op.Fair n ∧ ∀ q, op.terms q ≤ G.L.term q
  fresh : ∀ i inc ctx op, R.opening i inc ctx = some op → inc ≤ (c.nodes i).inc
  nodes : ∀ i < n, Attends R c.calls.length c.packets.length i (c.nodes i)
  packets : ∀ p ∈ c.packets, PacketReads R c.packets.length p
  answers : ∀ a ∈ c.answers, AnswerReads R c.packets.length a
  calls : CallsOK R c.calls
  callBound : ∀ k, R.call k ≤ c.maxCommit
  tokenBound : ∀ k, R.token k ≤ c.maxCommit

variable {n : Nat} {svc : Service σ} {E : Record} {G G' : Ghost} {R R' : Readers} {c d : Cluster σ} {i : Nat}

theorem length_setResult (calls : List ReadCall) (f : Nat × Int) : (Cluster.setResult calls f).length = calls.length :=
  List.length_modify _ _ _

theorem length_finished (fs : List (Nat × Int)) (calls : List ReadCall) :
    (fs.foldl Cluster.setResult calls).length = calls.length := by
  induction fs generalizing calls with
  | nil => rfl
  | cons f fs ih => rw [List.foldl_cons, ih, length_setResult]

theorem CallsOK.finished {fs : List (Nat × Int)} {calls : List ReadCall} (h : CallsOK R calls)
    (hfs : ∀ f ∈ fs, 0 ≤ f.2 → R.call f.1 ≤ f.2) : CallsOK R (fs.foldl Cluster.setResult calls) := by
  induction fs generalizing calls with
  | nil => exact h
  | cons f fs ih =>
    refine ih (fun k rc hk => ?_) fun g hg => hfs g (List.mem_cons_of_mem f hg)
    rw [Cluster.setResult, List.getElem?_modify] at hk
    obtain ⟨rc', hk', heq⟩ := Option.map_eq_some_iff.mp hk
    obtain ⟨hfloor, hresult⟩ := h k rc' hk'
    split_ifs at heq with hkf
    · subst heq
      refine ⟨hfloor, fun r hr hpos => ?_⟩
      cases hr
      rw [hfloor, ← hkf]
      exact hfs f List.mem_cons_self hpos
    · subst heq
      exact ⟨hfloor, hresult⟩

/-- Node `i` leaves the effect `ef` behind. -/
theorem Reads.put (h : Reads n G R c) (hle : G.Le E G') {ef : Effect σ}
    (hnext : R.Next n c.packets.length i (c.nodes i).inc c.maxCommit G.L.term R')
    (hserves : Serves R' c.calls.length (c.packets.length + ef.packets.length) i ef)
    (hinc : (c.nodes i).inc ≤ ef.node.inc) : Reads n G' R' (c.put i ef) := by
  have hother : ∀ j, j ≠ i → (c.put i ef).nodes j = c.nodes j := fun j hj => Function.update_of_ne hj _ _
  have hself : (c.put i ef).nodes i = ef.node := Function.update_self _ _ _
  have hN : (c.put i ef).calls.length = c.calls.length := length_finished _ _
  have hP : (c.put i ef).packets.length = c.packets.length + ef.packets.length := List.length_append
  have hM : c.maxCommit ≤ (c.put i ef).maxCommit := le_max_left _ _
  have hR := hnext.le (N := c.calls.length)
  refine ⟨fun j inc ctx op ho => ?_, fun j inc ctx op ho => ?_, fun j hj => ?_, fun p hp => ?_, fun a ha => ?_, ?_,
    fun k => ?_, fun k => ?_⟩
  · rcases hnext.opened j inc ctx op ho with hold | ⟨-, -, hfair, hterms⟩
    · exact ⟨(h.fair j inc ctx op hold).1, fun q => ((h.fair j inc ctx op hold).2 q).trans (hle.ext.term_mono q)⟩
    · exact ⟨hfair, fun q => hterms ▸ hle.ext.term_mono q⟩
  · by_cases hji : j = i
    · rw [hji, hself]
      rcases hnext.opened j inc ctx op ho with hold | ⟨-, rfl, -⟩
      · exact (h.fresh i inc ctx op (hji ▸ hold)).trans hinc
      · exact hinc
    · rw [hother j hji]
      rcases hnext.opened j inc ctx op ho with hold | ⟨hj, -⟩
      · exact h.fresh j inc ctx op hold
      · exact absurd hj hji
  · rw [hN, hP]
    by_cases hji : j = i
    · subst hji
      rw [hself]
      exact hserves.toAttends
    · rw [hother j hji]
      refine (h.nodes j hj).mono hR le_rfl (Nat.le_add_right _ _) (funext fun ctx => ?_)
      cases ho : R'.opening j (c.nodes j).inc ctx with
      | none =>
        by_contra hne
        obtain ⟨op, hop⟩ := Option.ne_none_iff_exists'.mp (Ne.symm hne)
        rw [hnext.opening _ _ _ _ hop] at ho
        cases ho
      | some op =>
        rcases hnext.opened _ _ _ _ ho with hold | ⟨hj', -⟩
        · exact hold.symm
        · exact absurd hj' hji
  · rw [hP]
    rcases List.mem_append.mp hp with hp | hp
    · exact (h.packets p hp).mono hR (Nat.le_add_right _ _)
    · exact hserves.packets p hp
  · rw [hP]
    rcases List.mem_append.mp ha with ha | ha
    · exact (h.answers a ha).mono hR (Nat.le_add_right _ _)
    · cases hk : ef.node.raft.killed with
      | true => simp [hk] at ha
      | false => exact hserves.answers hk a (by simpa [hk] using ha)
  · refine CallsOK.finished (fun k rc hk => ?_) fun f hf => (hserves.finished f hf).2
    rw [hnext.call]
    exact h.calls k rc hk
  · rw [hnext.call]
    exact (h.callBound k).trans hM
  · exact (hnext.bound k).trans (max_le ((h.tokenBound k).trans hM) hM)

theorem Reads.mono (h : Reads n G R c) (hle : G.Le E G') : Reads n G' R c where
  fair j inc ctx op ho := ⟨(h.fair j inc ctx op ho).1, fun q => ((h.fair j inc ctx op ho).2 q).trans (hle.ext.term_mono q)⟩
  fresh := h.fresh
  nodes := h.nodes
  packets := h.packets
  answers := h.answers
  calls := h.calls
  callBound := h.callBound
  tokenBound := h.tokenBound

/-- A call goes on record with what it is owed. -/
theorem Reads.called (h : Reads n G R c) (e : Event) : ∃ R', Reads n G R' (c.called e) := by
  cases e with
  | read i now =>
    let R' : Readers := { R with call := update R.call c.calls.length c.maxCommit }
    have hR : R.Le c.calls.length c.packets.length R' :=
      ⟨fun _ _ _ _ ho => ho, fun k hk => Function.update_of_ne hk.ne _ _, fun _ _ => rfl⟩
    have hN : (c.called (.read i now)).calls.length = c.calls.length + 1 := by simp [Cluster.called]
    have hself : R'.call c.calls.length = c.maxCommit := Function.update_self _ _ _
    have hother : ∀ k, k ≠ c.calls.length → R'.call k = R.call k := fun k hk => Function.update_of_ne hk _ _
    refine ⟨R', h.fair, h.fresh, fun j hj => ?_, fun p hp => (h.packets p hp).mono hR le_rfl,
      fun a ha => (h.answers a ha).mono hR le_rfl, fun k rc hk => ?_, fun k => ?_, h.tokenBound⟩
    · rw [hN]
      exact (h.nodes j hj).mono hR (Nat.le_succ _) le_rfl rfl
    · rcases lt_trichotomy k c.calls.length with hlt | rfl | hgt
      · rw [Cluster.called, List.getElem?_append_left hlt] at hk
        rw [hR.call k hlt]
        exact h.calls k rc hk
      · rw [Cluster.called, List.getElem?_concat_length] at hk
        cases hk
        exact ⟨hself.symm, fun r hr => by cases hr⟩
      · rw [List.getElem?_eq_none (by rw [hN]; omega)] at hk
        cases hk
    · by_cases hk : k = c.calls.length
      · rw [hk]
        exact hself.le
      · exact (hother k hk).trans_le (h.callBound k)
  | _ => exact ⟨R, h⟩

theorem make_nextReadCtx (peers me : Nat) (disk : Disk) (now : Int) :
    (Raft.make peers me disk now).nextReadCtx = 1 := by
  have hadopt : ∀ (r : Raft) (b : SnapshotBlob), (r.adoptBlob b).nextReadCtx = r.nextReadCtx := by
    intro r b
    rw [adoptBlob]
    split_ifs <;> rfl
  rw [Raft.make]
  dsimp only
  split
  · rw [readPersist]
    dsimp only [restoreRest]
    split
    · exact hadopt _ _
    · rfl
  · rfl

/-- A node comes up without a round. -/
theorem make_timely {o : Nat → Option Opening} (peers me : Nat) (disk : Disk) (now : Int) (h : ∀ ctx, o ctx = none) :
    Timely o (Raft.make peers me disk now) := by
  have hnone : ∀ {ctx op}, o ctx ≠ some op := fun {ctx op} ho => by
    rw [h ctx] at ho
    cases ho
  refine ⟨(make_nextReadCtx peers me disk now).ge, fun ctx hctx => ?_, fun _ _ ho => absurd ho hnone,
    fun _ _ ho => absurd ho hnone, fun _ _ ho => absurd ho hnone, fun _ _ ho => absurd ho hnone⟩
  rw [make_activeRead] at hctx
  cases hctx

/-- A node that is down serves nobody. -/
theorem Attends.kill {N P : Nat} {s : Server σ} (h : Attends R N P i s) : Attends R N P i s.kill := by
  unfold Server.kill
  split_ifs
  · exact h
  · refine ⟨fun halive => absurd halive (by simp), fun t ht => ?_⟩
    have htask := h.tasks t ht
    cases t with
    | readBroadcast k ctx term readIndex t => exact ⟨htask.1, fun halive => absurd halive (by simp)⟩
    | readWait k ctx term readIndex deadline => exact ⟨htask.1, fun halive => absurd halive (by simp)⟩
    | readOpen k => exact htask
    | readForwarded k token => exact htask
    | _ => trivial

theorem reads_init (n : Nat) (svc : Service σ) :
    Reads n Ghost.start ⟨fun _ _ _ => none, fun _ => 0, fun _ => 0⟩ (Cluster.init n svc) where
  fair _ _ _ _ ho := by cases ho
  fresh _ _ _ _ ho := by cases ho
  nodes i _ := ⟨fun _ => make_timely n i {} 0 fun _ => rfl, fun t ht => by cases ht⟩
  packets p hp := by cases hp
  answers a ha := by cases ha
  calls k rc hk := by cases hk
  callBound _ := le_rfl
  tokenBound _ := le_rfl

/-- The floors of the calls on record. -/
def Cluster.floors (c : Cluster σ) : List Int := c.calls.map ReadCall.floor

theorem floors_finished (fs : List (Nat × Int)) (calls : List ReadCall) :
    (fs.foldl Cluster.setResult calls).map ReadCall.floor = calls.map ReadCall.floor := by
  induction fs generalizing calls with
  | nil => rfl
  | cons f fs ih =>
    rw [List.foldl_cons, ih, Cluster.setResult]
    refine List.ext_getElem? fun k => ?_
    rw [List.getElem?_map, List.getElem?_map, List.getElem?_modify]
    cases calls[k]? with
    | none => rfl
    | some rc =>
      simp only [Option.map_some]
      split_ifs <;> rfl

variable [DecidableEq σ]

/-- Every turn but a crash or a restart. -/
theorem Reads.stretch {e : Event} (h : Reads n G R (c.called e)) (hs : Sound n svc E G c) (hp : Peaked n G c)
    (hstatic : e.isStatic = true) (hstretch : e.isStretch = true) (hle : G.Le E G') (hi : i < n) {ef : Effect σ}
    (ht : Cluster.Turn n svc c e i ef) (hd : Sound n svc E G' ((c.called e).put i ef))
    (hjoin : c.joinsBehind e = false) : ∃ R', Reads n G' R' ((c.called e).put i ef) := by
  have hkilled : ef.node.raft.killed = (c.nodes i).raft.killed := (hp.toCeiled.obeys hs hstatic hstretch hi ht).raft.killed
  have hself : ((c.called e).put i ef).nodes i = ef.node := Function.update_self _ _ _
  have hbase := h.nodes i hi
  have hcall := h.callBound
  have htoken := h.tokenBound
  have hput : ∀ R', R.Next n (c.called e).packets.length i ((c.called e).nodes i).inc (c.called e).maxCommit G.L.term R' →
      Serves R' (c.called e).calls.length ((c.called e).packets.length + ef.packets.length) i ef →
        ((c.called e).nodes i).inc ≤ ef.node.inc → Reads n G' R' ((c.called e).put i ef) := fun _ => h.put hle
  simp only [Cluster.called_nodes, Cluster.called_packets, Cluster.called_maxCommit] at hbase hput hcall htoken
  generalize hN : (c.called e).calls.length = N at hbase hput
  -- the members of a node that is up
  have hlive : (c.nodes i).raft.killed = false → Held n svc E G i (c.nodes i).raft.frame ∧
      G.L.term i = (c.nodes i).raft.currentTerm := fun hk =>
    ⟨(hs.live hi hk).ok.toHeld, (hs.live hi hk).node.term⟩
  have hnode : ∀ m, Attends R N (c.packets.length + m) i (c.nodes i) := fun m =>
    hbase.mono (.refl R N c.packets.length) le_rfl (Nat.le_add_right _ m) rfl
  have hsame : (Serves R N (c.packets.length + ef.packets.length) i ef) → (c.nodes i).inc = ef.node.inc →
      ∃ R', Reads n G' R' ((c.called e).put i ef) := fun hserves hinc =>
    ⟨R, hput R (.refl R n c.packets.length i _ _ _) hserves hinc.le⟩
  have hquiet : (c.nodes i).Abstains ef → ∃ R', Reads n G' R' ((c.called e).put i ef) := fun hq =>
    hsame (hq.serves (hnode _) hkilled) hq.inc.symm
  have hopen : ∀ (s : Server σ) (k : Reader) now, ef = s.openRead k c.packets.length now → s.raft = (c.nodes i).raft →
      s.inc = (c.nodes i).inc → (∀ t ∈ s.tasks, t ∈ (c.nodes i).tasks) → k.Known N c.packets.length →
        c.opens e = some (i, now) → ∃ R', Reads n G' R' ((c.called e).put i ef) := by
    intro s k now heq hraft hinc htasks hk ho
    have hs' : Attends R N c.packets.length i s := by
      refine ⟨?_, fun t ht => ?_⟩
      · rw [hraft, hinc]
        exact hbase.rounds
      · rw [hraft, hinc]
        exact hbase.tasks t (htasks t ht)
    have hme : s.raft.killed = false → G.L.term s.raft.me ≤ s.raft.currentTerm := by
      rw [hraft]
      intro hk
      rw [show (c.nodes i).raft.me = i from (hlive hk).1.me, (hlive hk).2]
    have hfair : s.raft.killed = false → s.raft.state = .kLeader → s.raft.readSafeCommit ≤ s.raft.commitIndex →
        Opening.Fair n ⟨s.raft.currentTerm, G.L.term, c.maxCommit, s.raft.commitIndex⟩ := by
      rw [hraft]
      exact fun hk hl hsafe Q hQ hterms => hp.fair hs hi hk hl hsafe hQ hterms
    obtain ⟨R', hnext, hserves⟩ := serves_openRead hs' hk (hk.floor_le hcall htoken) now
      (fun ctx term readIndex hw => joins_le hjoin ho (hraft ▸ hw)) hme hfair
    rw [← heq] at hserves
    refine ⟨R', hput R' (hinc ▸ hnext) hserves ?_⟩
    rw [heq, inc_openRead, hinc]
  cases ht with
  | electionTimeout i now => exact hquiet (abstains_electionTimeout _ now)
  | leaderTick i now => exact hquiet (.of_raft _ (changes_leaderTick _ now).quiet (by simp))
  | runTask i k now t ht =>
    have hmem := List.mem_of_getElem? ht
    cases hread : t.ofRead with
    | false => exact hquiet (abstains_runTask _ k _ now hread)
    | true =>
      by_cases ho : ∃ reader, t = .readOpen reader
      · obtain ⟨reader, rfl⟩ := ho
        refine hopen _ reader now rfl rfl rfl (fun t ht => List.mem_of_mem_eraseIdx ht) ?_ ?_
        · exact hbase.tasks _ hmem
        · simp [Cluster.opens, ht]
      · push Not at ho
        refine hsame (serves_runTask (hnode _) (fun hk => (hlive hk).1.me) hmem ho hread k _ now) ?_
        rw [inc_runTask _ hread]
  | noTask i k now => exact hquiet (.stay _)
  | deliver k now p hk =>
    have hpacket := h.packets p (by rw [Cluster.called_packets]; exact List.mem_of_getElem? hk)
    rw [Cluster.called_packets] at hpacket
    cases hread : p.rpc.ofRead with
    | false => exact hquiet (abstains_deliver _ hread now)
    | true =>
      refine hsame (serves_deliver (hnode _) (hpacket.mono (.refl R N _) (Nat.le_add_right _ _)) rfl ?_ hread now hkilled)
        (inc_deliver _ p now).symm
      intro halive j inc ctx op ho
      rw [← (hlive halive).2]
      exact (h.fair j inc ctx op ho).2 _
  | answer k now a hk =>
    have hanswer := h.answers a (by rw [Cluster.called_answers]; exact List.mem_of_getElem? hk)
    rw [Cluster.called_packets] at hanswer
    cases hread : a.packet.rpc.ofRead with
    | false => exact hquiet (abstains_answer _ hread a.reply now)
    | true =>
      refine hsame (serves_answer (n := n) (hnode _) (hanswer.mono (.refl R N _) (Nat.le_add_right _ _)) rfl
        (fun ctx op ho => (h.fair _ _ _ op ho).1) (fun hk => (hlive hk).1.voter) (fun hk => (hlive hk).1.memberCount)
        hread now hkilled) (inc_answer _ _ a.reply now).symm
  | fail k now p hk =>
    by_cases hread : ∃ args token, p.rpc = .readIndex args token
    · obtain ⟨args, token, hrpc⟩ := hread
      refine hsame (serves_fail (hnode _) hrpc now) ?_
      unfold Server.fail
      rw [hrpc]
      dsimp only
      split_ifs
      · rfl
      · exact (inc_endForward _ token false {}).symm
    · push Not at hread
      exact hquiet (abstains_fail _ hread now)
  | replicate i s now hs' =>
    have hnodeEq := replicate_node (c.nodes i) s now
    refine hsame (serves_replicate (hnode _) s now (fun hk => ?_) ?_) (by rw [hnodeEq])
    · have hme := (hd.live hi (by rw [hself, hkilled, hk])).ok.me
      rw [hself, hnodeEq] at hme
      exact hme
    · rw [hnodeEq] at hkilled
      exact hkilled
  | start i command => exact hquiet (abstains_start _ command)
  | proposeConf i server target => cases hstatic
  | applyLoop i now => exact hquiet (abstains_applyLoop _ now)
  | consume i =>
    obtain ⟨hraft, htasks, -⟩ := consume_raft svc (c.nodes i)
    refine hquiet ⟨?_, ?_, fun t ht => .inl (htasks ▸ ht), by simp, by simp, rfl⟩
    · unfold Server.consume
      split <;> rfl
    · rw [hraft]
      exact .refl _
  | takeSnapshot i index data => exact hquiet (abstains_takeSnapshot svc _ index data)
  | kill i => cases hstretch
  | restart i now => cases hstretch
  | read i now =>
    refine hopen _ _ now rfl rfl rfl (fun t ht => ht) ?_ rfl
    rw [← hN]
    simp [Reader.Known, Cluster.called]
  | setLimits i m b =>
    refine hquiet (.of_raft _ (rests_of_part ?_) (by simp))
    rfl

/-- Every event of a run with a static membership, if nobody joins a round behind. -/
theorem Reads.step (h : Reads n G R c) (hs : Sound n svc E G c) (hp : Peaked n G c) {e : Event}
    (hstatic : e.isStatic = true) (hle : G.Le E G') (hd : Sound n svc E G' (c.step n svc e))
    (hjoin : c.joinsBehind e = false) : ∃ R', Reads n G' R' (c.step n svc e) := by
  rcases Cluster.step_cases n svc c e with heq | ⟨i, hi, ef, ht, heq⟩
  · obtain ⟨R', h'⟩ := h.called e
    exact ⟨R', heq ▸ h'.mono hle⟩
  cases hstretch : e.isStretch with
  | true =>
    obtain ⟨R', h'⟩ := h.called e
    rw [heq] at hd ⊢
    exact h'.stretch hs hp hstatic hstretch hle hi ht hd hjoin
  | false =>
    have hput : ∀ {ef : Effect σ}, ef.packets = [] → Serves R c.calls.length c.packets.length i ef →
        (c.nodes i).inc ≤ ef.node.inc → Reads n G' R (c.put i ef) := fun hnil hserves hinc =>
      h.put hle (.refl R n _ i _ _ _) (by rw [hnil]; exact hserves) hinc
    have hbase := h.nodes i hi
    cases ht with
    | kill i =>
      refine ⟨R, heq ▸ hput rfl { hbase.kill with } ?_⟩
      unfold Server.kill
      split_ifs <;> rfl
    | restart i now =>
      refine ⟨R, heq ▸ hput rfl ?_ ?_⟩
      · unfold Server.restart
        split_ifs
        · refine { rounds := fun _ => make_timely n i _ now fun ctx => ?_, tasks := fun t ht => ?_ }
          · by_contra hne
            obtain ⟨op, ho⟩ := Option.ne_none_iff_exists'.mp hne
            exact absurd (h.fresh i _ ctx op ho) (Nat.not_succ_le_self _)
          · cases ht
        · exact { hbase with }
      · unfold Server.restart
        split_ifs
        · exact Nat.le_succ _
        · exact le_rfl
    | _ => cases hstretch

theorem forall_getElem?_iff {α : Type} {l : List α} {P : Nat → α → Prop} :
    (∀ (b : Nat) x, l[b]? = some x → P b x) ↔ ∀ b : Fin l.length, P b (l.get b) := by
  refine ⟨fun h b => h b _ (List.getElem?_eq_getElem b.isLt), fun h b x hx => ?_⟩
  obtain ⟨hb, rfl⟩ := List.getElem?_eq_some_iff.mp hx
  exact h ⟨b, hb⟩

/-- Nobody joins a round behind in the run. -/
def NoJoinBehind (n : Nat) (svc : Service σ) (evs : List Event) : Prop :=
  ∀ (b : Nat) e, evs[b]? = some e → (Cluster.run n svc (evs.take b)).joinsBehind e = false

instance (n : Nat) (svc : Service σ) (evs : List Event) : Decidable (NoJoinBehind n svc evs) :=
  decidable_of_iff (∀ b : Fin evs.length, (Cluster.run n svc (evs.take b)).joinsBehind (evs.get b) = false)
    (forall_getElem?_iff (P := fun b e => (Cluster.run n svc (evs.take b)).joinsBehind e = false)).symm

/-- The invariant of rounds and readers. -/
def Cluster.Tracked (n : Nat) (svc : Service σ) (c : Cluster σ) : Prop :=
  ∃ G R, Sound n svc .all G c ∧ Peaked n G c ∧ Reads n G R c

theorem tracked_init (n : Nat) (svc : Service σ) : (Cluster.init n svc).Tracked n svc :=
  ⟨_, _, sound_init n svc .all, peaked_init n svc, reads_init n svc⟩

theorem Cluster.Tracked.step (h : c.Tracked n svc) {e : Event} (hstatic : e.isStatic = true)
    (hjoin : c.joinsBehind e = false) : (c.step n svc e).Tracked n svc := by
  obtain ⟨G, R, hs, hp, hr⟩ := h
  obtain ⟨G', hle, hd⟩ := hs.step hstatic (coversAll_all _ [e]).1
  obtain ⟨R', hr'⟩ := hr.step hs hp hstatic hle hd hjoin
  exact ⟨G', R', hd, hp.step hs hstatic hle hd, hr'⟩

/-- The rule for runs. -/
theorem reads_run (svc : Service σ) {evs : List Event} (hstatic : ∀ e ∈ evs, e.isStatic = true)
    (hjoin : NoJoinBehind n svc evs) (a : Nat) : (Cluster.run n svc (evs.take a)).Tracked n svc := by
  induction a with
  | zero => exact tracked_init n svc
  | succ a ih =>
    cases he : evs[a]? with
    | none =>
      have hlen := List.getElem?_eq_none_iff.mp he
      rwa [List.take_of_length_le (by omega), ← List.take_of_length_le hlen]
    | some e =>
      have hrun : Cluster.run n svc (evs.take (a+1)) = (Cluster.run n svc (evs.take a)).step n svc e := by
        rw [List.take_add_one, he, Cluster.run_append]
        rfl
      rw [hrun]
      exact ih.step (hstatic e (List.mem_of_getElem? he)) (hjoin a e he)

/-- A step records what a call is owed when it begins. -/
theorem floors_step (n : Nat) (svc : Service σ) (c : Cluster σ) (e : Event) :
    (c.step n svc e).floors = (c.called e).floors := by
  rcases Cluster.step_cases n svc c e with heq | ⟨i, -, ef, -, heq⟩
  · rw [heq]
  · rw [heq]
    exact floors_finished _ _

/-- What a call is owed stays on record. -/
theorem floors_grow (n : Nat) (svc : Service σ) (c : Cluster σ) (e : Event) :
    c.floors <+: (c.step n svc e).floors := by
  rw [floors_step]
  cases e with
  | read i now => exact (List.prefix_append _ _).map _
  | _ => exact List.prefix_rfl

/-- A call that begins later is owed what was committed before. -/
theorem floors_late (n : Nat) (svc : Service σ) (c : Cluster σ) (es : List Event) :
    c.maxCommit ≤ (es.foldl (Cluster.step n svc) c).maxCommit ∧ ∀ (k : Nat) (f : Int), c.calls.length ≤ k →
      (es.foldl (Cluster.step n svc) c).floors[k]? = some f → c.maxCommit ≤ f := by
  induction es using List.reverseRecOn with
  | nil =>
    refine ⟨le_rfl, fun k f hk hf => ?_⟩
    rw [List.foldl_nil, Cluster.floors, List.getElem?_eq_none (by simpa using hk)] at hf
    cases hf
  | append_singleton es e ih =>
    obtain ⟨hmax, hlate⟩ := ih
    rw [List.foldl_append, List.foldl_cons, List.foldl_nil]
    generalize es.foldl (Cluster.step n svc) c = d at hmax hlate
    refine ⟨hmax.trans (d.maxCommit_step n svc e), fun k f hk hf => ?_⟩
    rw [floors_step] at hf
    cases e with
    | read i now =>
      have hcalled : (d.called (.read i now)).floors = d.floors ++ [d.maxCommit] := List.map_append
      rw [hcalled] at hf
      rcases lt_or_ge k d.floors.length with hlt | hge
      · exact hlate k f hk (by rwa [List.getElem?_append_left hlt] at hf)
      · rw [List.getElem?_append_right hge] at hf
        have hmem := List.mem_of_getElem? hf
        rw [List.mem_singleton] at hmem
        exact hmem ▸ hmax
    | _ => exact hlate k f hk hf

/-- A call that gives a read index gives what was committed before it began. -/
theorem read_floor (svc : Service σ) {evs : List Event} (hstatic : ∀ e ∈ evs, e.isStatic = true)
    (hjoin : NoJoinBehind n svc evs) {a k : Nat} (hk : (Cluster.run n svc (evs.take a)).calls.length ≤ k)
    {rc : ReadCall} (hrc : (Cluster.run n svc evs).calls[k]? = some rc) {r : Int} (hr : rc.result = some r)
    (hpos : 0 ≤ r) : (Cluster.run n svc (evs.take a)).maxCommit ≤ r := by
  obtain ⟨G, R, -, -, hreads⟩ := reads_run svc hstatic hjoin evs.length
  rw [List.take_length] at hreads
  have hlate := (floors_late n svc (Cluster.run n svc (evs.take a)) (evs.drop a)).2 k rc.floor hk
  rw [← Cluster.run_append, List.take_append_drop, Cluster.floors, List.getElem?_map, hrc] at hlate
  exact (hlate rfl).trans ((hreads.calls k rc hrc).2 r hr hpos)

/-- Linearizable reads. If nobody joins a round at a leader that has committed less than some node did, then a call
of `ReadIndex`, at whatever node, that gives a read index gives one that is not below the commit index that any node
had at any time before the call. -/
theorem linearizable_reads (svc : Service σ) {evs : List Event} (hstatic : ∀ e ∈ evs, e.isStatic = true)
    (hjoin : NoJoinBehind n svc evs) {a k : Nat} (hk : (Cluster.run n svc (evs.take a)).calls.length ≤ k)
    {rc : ReadCall} (hrc : (Cluster.run n svc evs).calls[k]? = some rc) {r : Int} (hr : rc.result = some r)
    (hpos : 0 ≤ r) {j : Nat} (hj : j < n) : (nodeAfter n svc evs a j).commitIndex ≤ r := by
  obtain ⟨G, -, -, hpeak, -⟩ := reads_run svc hstatic hjoin a
  have hcommit : (nodeAfter n svc evs a j).commitIndex ≤ (Cluster.run n svc (evs.take a)).maxCommit :=
    (hpeak.toCeiled.images j hj).1
  exact hcommit.trans (read_floor svc hstatic hjoin hk hrc hr hpos)

end

/-- Node 0 has committed an entry; a client of node 1 reads, and node 1 forwards the read to node 0. -/
def followerReadRun : List Event :=
  takeoverRun.take 11 ++ [.read 1 210, .deliver 5 210, .runTask 0 1 210, .runTask 0 1 210, .runTask 0 1 210,
    .runTask 0 1 210, .runTask 0 1 210, .deliver 6 210, .answer 3 210, .runTask 0 1 210, .answer 4 210]

theorem linearizable_reads_follower :
    (Cluster.run 3 unitService followerReadRun).calls = [{ node := 1, floor := 1, result := some 1 }] ∧
      (nodeAfter 3 unitService followerReadRun 11 0).commitIndex ≤ 1 := by
  have hcalls : (Cluster.run 3 unitService followerReadRun).calls = [{ node := 1, floor := 1, result := some 1 }] := by
    decide +kernel
  have hnone : (Cluster.run 3 unitService (followerReadRun.take 11)).calls.length = 0 := by decide +kernel
  refine ⟨hcalls, ?_⟩
  exact linearizable_reads (n := 3) unitService (by decide) (by decide +kernel) (a := 11) (k := 0) hnone.le
    (by rw [hcalls]; rfl) rfl (by decide) (by decide)

/-- Node 0 leads term 1 and opens a round. Node 1 acknowledges it, wins term 2 and commits an entry with node 2; only
then a reader joins the round of node 0, and the acknowledgement arrives. -/
def staleReadRun : List Event :=
  takeoverRun.take 11 ++ [.read 0 210, .runTask 0 1 210, .runTask 0 1 210, .runTask 0 1 210, .runTask 0 1 210,
    .deliver 5 210, .electionTimeout 1 400, .deliver 8 400, .answer 4 400, .runTask 1 0 400, .runTask 1 0 400,
    .deliver 10 400, .answer 5 400, .start 1 [], .replicate 1 2 400, .deliver 11 400, .answer 6 400, .read 0 410,
    .answer 3 410, .runTask 0 2 410]

/-- Whoever joins behind may read what is out of date. -/
theorem joined_read_stale : (∀ e ∈ staleReadRun, e.isStatic = true) ∧
    (Cluster.run 3 unitService staleReadRun).calls[1]? = some { node := 0, floor := 2, result := some 1 } :=
  ⟨by decide, by decide +kernel⟩

end ChonKV
