import ChonKV.Kv.Replicated
import ChonKV.Kv.WaitOp

/-!
What a step does to the calls under way and to the entries they wait at.
-/

set_option autoImplicit false

namespace ChonKV

open Function (update)

/-- A list in which one place is set. -/
theorem getElem?_set_cases {α : Type} {l : List α} {t t' : Nat} {x y z : α} (hx : l[t']? = some x)
    (h : (l.set t' y)[t]? = some z) : l[t]? = some z ∨ (t' = t ∧ z = y) := by
  by_cases htt : t' = t
  · subst htt
    rw [List.getElem?_set_self (List.getElem?_eq_some_iff.mp hx).1] at h
    exact .inr ⟨rfl, (Option.some.inj h).symm⟩
  · rw [List.getElem?_set_ne htt] at h
    exact .inl h

theorem getElem?_append_one {α : Type} {l : List α} {t : Nat} {y z : α} (h : (l ++ [y])[t]? = some z) :
    l[t]? = some z ∨ (t = l.length ∧ z = y) := by
  rcases lt_or_ge t l.length with hlt | hge
  · rw [List.getElem?_append_left hlt] at h
    exact .inl h
  · rw [List.getElem?_append_right hge, List.getElem?_singleton] at h
    split_ifs at h with hz
    exact .inr ⟨by omega, (Option.some.inj h).symm⟩

namespace KvCluster

variable {n : Nat} {cfg : KvConfig} {k : KvCluster} {ev : KvEvent}

/-- Where a call of `Get` comes from. -/
inductive GetStep (n : Nat) (k : KvCluster) : KvEvent → Nat → GetCall → Prop
  | old {ev : KvEvent} {t : Nat} {g : GetCall} (h : k.gets[t]? = some g) : GetStep n k ev t g
  | call {i : Nat} {key : Bytes} {now : Int} (hi : i < n) :
      GetStep n k (.get i key now) k.gets.length
        ⟨i, (k.raft.nodes i).inc, key, k.raft.calls.length, k.raft.maxCommit, none⟩
  | turn {t : Nat} {timedOut : Bool} {g : GetCall} {kv : KVServer} {ri : Int} (hg : k.gets[t]? = some g)
      (hkv : k.server g.node g.inc = some kv) (hri : (k.raft.calls[g.call]?).bind ReadCall.result = some ri) :
      GetStep n k (.getTurn t timedOut) t { g with
        reply := (kv.getTurn (k.raft.nodes g.node).raft g.key ri timedOut).map fun r => (kv.lastCmdIndex, r) }

theorem gets_step (k : KvCluster) (c : Cluster (Option KVState)) (ev : KvEvent) {t : Nat} {g : GetCall}
    (h : (k.upper n cfg c ev).gets[t]? = some g) : GetStep n k ev t g := by
  cases ev with
  | get i key now =>
    dsimp only [upper] at h
    split_ifs at h with hi
    · rcases getElem?_append_one h with hold | ⟨rfl, rfl⟩
      · exact .old hold
      · exact .call hi
    · exact .old h
  | getTurn t' timedOut =>
    dsimp only [upper] at h
    split at h
    · next g' hg' =>
      split at h
      · next kv ri hkv hreply hri =>
        rcases getElem?_set_cases hg' h with hold | ⟨rfl, rfl⟩
        · exact .old hold
        · exact .turn hg' hkv hri
      · exact .old h
    · exact .old h
  | waitTurn t' timedOut =>
    dsimp only [upper] at h
    split at h
    · split at h
      · split at h <;> exact .old h
      · exact .old h
    · exact .old h
  | propose t' | register t' =>
    dsimp only [upper] at h
    split at h
    · split at h <;> exact .old h
    · exact .old h
  | putAppend i args =>
    dsimp only [upper] at h
    split at h
    · split_ifs at h <;> exact .old h
    · exact .old h
  | applier i | force i | restart i now =>
    dsimp only [upper] at h
    split at h <;> exact .old h
  | _ => exact .old h

/-- Where a call of `PutAppend` comes from. -/
inductive PutStep (n : Nat) (k : KvCluster) : KvEvent → Nat → PutCall → Prop
  | old {ev : KvEvent} {t : Nat} {p : PutCall} (h : k.puts[t]? = some p) : PutStep n k ev t p
  | call {i : Nat} {args : PutAppendArgs} (hi : i < n) :
      PutStep n k (.putAppend i args) k.puts.length
        ⟨i, (k.raft.nodes i).inc, args.toOp, k.raft.maxCommit, .proposing 0, 0, 0⟩
  | refused {i : Nat} {args : PutAppendArgs} {reply : PutAppendReply} (hi : i < n) (h : reply.err ≠ .kOK) :
      PutStep n k (.putAppend i args) k.puts.length
        ⟨i, (k.raft.nodes i).inc, args.toOp, k.raft.maxCommit, .returned reply, 0, 0⟩
  | again {t tries : Nat} {p : PutCall} (hp : k.puts[t]? = some p) :
      PutStep n k (.propose t) t { p with phase := .proposing (tries + 1) }
  | failed {t : Nat} {p : PutCall} {reply : PutAppendReply} (hp : k.puts[t]? = some p) (h : reply.err ≠ .kOK) :
      PutStep n k (.propose t) t { p with phase := .returned reply }
  | placed {t : Nat} {p : PutCall} (hp : k.puts[t]? = some p)
      (h : ((k.raft.nodes p.node).raft.start p.op.serialize).2.1.isLeader = true) :
      PutStep n k (.propose t) t { p with
        phase := .started
        index := ((k.raft.nodes p.node).raft.start p.op.serialize).2.1.index
        term := ((k.raft.nodes p.node).raft.start p.op.serialize).2.1.term }
  | registered {t : Nat} {p : PutCall} (hp : k.puts[t]? = some p) (hphase : p.phase = .started)
      (hinc : p.inc = (k.raft.nodes p.node).inc) : PutStep n k (.register t) t { p with phase := .waiting }
  | returned {t : Nat} {timedOut : Bool} {p : PutCall} {kv : KVServer} {r : Raft} {reply : PutAppendReply}
      (hp : k.puts[t]? = some p) (hphase : p.phase = .waiting) (hkv : k.server p.node p.inc = some kv)
      (h : kv.waitTurn r p.index timedOut = some reply) :
      PutStep n k (.waitTurn t timedOut) t { p with phase := .returned reply }

theorem puts_step (k : KvCluster) (c : Cluster (Option KVState)) (ev : KvEvent) {t : Nat} {p : PutCall}
    (h : (k.upper n cfg c ev).puts[t]? = some p) : PutStep n k ev t p := by
  cases ev with
  | putAppend i args =>
    dsimp only [upper] at h
    split at h
    · next kv hkv =>
      split_ifs at h with hi
      · rcases getElem?_append_one h with hold | ⟨rfl, rfl⟩
        · exact .old hold
        · split
          · next reply hgone =>
            refine .refused hi ?_
            rw [KVServer.sessionGone] at hgone
            split at hgone
            · cases hgone
              exact Err.noConfusion
            · cases hgone
          · exact .call hi
      · exact .old h
    · exact .old h
  | propose t' =>
    dsimp only [upper] at h
    split at h
    · next p' hp' =>
      split at h
      · next kv tries hkv hphase =>
        rcases getElem?_set_cases hp' h with hold | ⟨rfl, rfl⟩
        · exact .old hold
        · split
          · exact .again hp'
          · next reply hret => exact .failed hp' (KVServer.afterStart_ret hret)
          · next index term hwait =>
            obtain ⟨hl, rfl, rfl⟩ := KVServer.afterStart_wait hwait
            exact .placed hp' hl
      · exact .old h
    · exact .old h
  | register t' =>
    dsimp only [upper] at h
    split at h
    · next p' hp' =>
      split at h
      · next kv hkv hphase =>
        rcases getElem?_set_cases hp' h with hold | ⟨rfl, rfl⟩
        · exact .old hold
        · exact .registered hp' hphase (server_some hkv).1
      · exact .old h
    · exact .old h
  | waitTurn t' timedOut =>
    dsimp only [upper] at h
    split at h
    · next p' hp' =>
      split at h
      · next kv hkv hphase =>
        split at h
        · next reply hreply =>
          rcases getElem?_set_cases hp' h with hold | ⟨rfl, rfl⟩
          · exact .old hold
          · exact .returned hp' hphase hkv hreply
        · exact .old h
      · exact .old h
    · exact .old h
  | getTurn t' timedOut =>
    dsimp only [upper] at h
    split at h
    · split at h <;> exact .old h
    · exact .old h
  | applier i | force i | get i key now | restart i now =>
    dsimp only [upper] at h
    split at h <;> exact .old h
  | _ => exact .old h

end KvCluster

theorem replies_notify_at {kv : KVServer} {op : Op} {index x : Int} {m' : NotifyMsg}
    (h : (kv.notify index op).msgReplies x = some m') :
    ∃ m, kv.msgReplies x = some m ∧ WaitState.Follows (if x = index then [op] else []) m m' := by
  by_cases hx : x = index
  · rw [if_pos hx]
    exact WaitState.replies_notify h
  · rw [if_neg hx]
    refine ⟨m', ?_, .refl _ m'⟩
    rw [KVServer.notify] at h
    split at h
    · simp only [KVServer.setReply, if_neg hx] at h
      exact h
    · exact h

/-- What one round of `ApplierLoop` makes of the entry at an index: only the command of that index can succeed. -/
theorem replies_applierLoop_at {kv kv' : KVServer} {msg : ApplyMsg} (h : kv.applierLoop msg = some kv') {x : Int}
    {m' : NotifyMsg} (hm' : kv'.msgReplies x = some m') : ∃ m, kv.msgReplies x = some m ∧
      WaitState.Follows (if msg.commandValid ∧ x = msg.commandIndex then (KVServer.opOf msg).toList else []) m m' := by
  by_cases hc : msg.commandValid = true
  · rw [KVServer.applierLoop, if_pos hc] at h
    cases h
    rw [KVServer.applyCommand] at hm'
    cases hop : KVServer.opOf msg with
    | none =>
      rw [hop] at hm'
      obtain ⟨m, hm, hf⟩ := WaitState.replies_clearWaiter [] hm'
      rw [WaitState.replies_advance] at hm
      refine ⟨m, hm, ?_⟩
      rwa [Option.toList_none, ite_self]
    | some op =>
      rw [hop] at hm'
      dsimp only at hm'
      rw [WaitState.replies_advance] at hm'
      obtain ⟨m, hm, hf⟩ := replies_notify_at hm'
      refine ⟨m, hm, ?_⟩
      simpa [hc] using hf
  · obtain ⟨m, hm, hf⟩ := WaitState.replies_applierLoop h hm'
    rw [if_neg hc] at hf
    rw [if_neg fun hand => hc hand.1]
    exact ⟨m, hm, hf⟩

namespace KvCluster

variable {n : Nat} {cfg : KvConfig} {k : KvCluster}

/-- Where the entry that node `j` has for an index comes from. -/
inductive ReplyStep (k : KvCluster) (j : Nat) : KvEvent → Int → NotifyMsg → Prop
  | kept {ev : KvEvent} {x : Int} {kv : KVServer} {m m' : NotifyMsg} (hkv : k.servers j = some kv)
      (hm : kv.msgReplies x = some m) (h : WaitState.Follows [] m m') : ReplyStep k j ev x m'
  | applied {x : Int} {kv : KVServer} {m m' : NotifyMsg} {msg : ApplyMsg} {rest : List ApplyMsg} {op : Op}
      (hkv : k.servers j = some kv) (hch : (k.raft.nodes j).applyCh = msg :: rest) (hc : msg.commandValid = true)
      (hx : x = msg.commandIndex) (hop : KVServer.opOf msg = some op) (hm : kv.msgReplies x = some m)
      (h : WaitState.Follows [op] m m') : ReplyStep k j (.applier j) x m'
  | registered {t : Nat} {p : PutCall} (hp : k.puts[t]? = some p) (hphase : p.phase = .started) (hnode : p.node = j)
      (hinc : p.inc = (k.raft.nodes j).inc) :
      ReplyStep k j (.register t) p.index ⟨false, false, p.op.clientId, p.op.seqId⟩

theorem boot_replies {s kv : KVServer} {idx : Int} {raw : Bytes} (h : s.boot idx raw = some kv) :
    kv.msgReplies = s.msgReplies := by
  rw [KVServer.boot] at h
  split_ifs at h
  · cases h
    rfl
  · obtain ⟨state, -, rfl⟩ := Option.map_eq_some_iff.mp h
    rfl
  · cases h
    rfl

/-- A server that comes up was made by the constructor. -/
theorem comeUp_boot {i : Nat} {now : Int} {x : Raft × KVServer} (h : k.comeUp n cfg i now = some x) :
    (KVServer.fresh cfg.cap cfg.maxIdleIndex).boot x.1.snapshotIndex x.1.snapshotData = some x.2 := by
  obtain ⟨r, -, hup⟩ := Option.bind_eq_some_iff.mp h
  obtain ⟨kv, hkv, rfl⟩ := Option.map_eq_some_iff.mp hup
  exact hkv

theorem replies_step (k : KvCluster) (c : Cluster (Option KVState)) (ev : KvEvent) {j : Nat} {kv' : KVServer}
    (hkv' : (k.upper n cfg c ev).servers j = some kv') {x : Int} {m' : NotifyMsg} (hm' : kv'.msgReplies x = some m') :
    ReplyStep k j ev x m' := by
  have hold : k.servers j = some kv' → ReplyStep k j ev x m' := fun h => .kept h hm' (.refl [] m')
  have hother : ∀ {i : Nat} {v : Option KVServer}, update k.servers i v j = some kv' → j ≠ i →
      ReplyStep k j ev x m' := fun h hji => hold ((Function.update_of_ne hji _ _).symm.trans h)
  have hself : ∀ {v : Option KVServer}, update k.servers j v j = some kv' → v = some kv' := fun {v} h =>
    (Function.update_self j v k.servers).symm.trans h
  cases ev with
  | applier i =>
    dsimp only [upper] at hkv'
    split at hkv'
    · next kv msg rest hkv hch =>
      by_cases hji : j = i
      · subst hji
        replace hkv' := hself hkv'
        obtain ⟨m, hm, hf⟩ := replies_applierLoop_at hkv' hm'
        split_ifs at hf with hx
        · cases hop : KVServer.opOf msg with
          | none =>
            rw [hop] at hf
            exact .kept hkv hm hf
          | some op =>
            rw [hop] at hf
            exact .applied hkv hch hx.1 hx.2 hop hm hf
        · exact .kept hkv hm hf
      · exact hother hkv' hji
    · exact hold hkv'
  | restart i now =>
    dsimp only [upper] at hkv'
    split at hkv'
    · by_cases hji : j = i
      · subst hji
        replace hkv' := hself hkv'
        obtain ⟨x, hup, rfl⟩ := Option.map_eq_some_iff.mp hkv'
        rw [boot_replies (comeUp_boot hup)] at hm'
        cases hm'
      · exact hother hkv' hji
    · exact hold hkv'
  | kill i =>
    dsimp only [upper] at hkv'
    by_cases hji : j = i
    · subst hji
      replace hkv' := hself hkv'
      obtain ⟨kv, hkv, rfl⟩ := Option.map_eq_some_iff.mp hkv'
      exact .kept hkv hm' (.refl [] m')
    · exact hother hkv' hji
  | release i =>
    dsimp only [upper] at hkv'
    by_cases hji : j = i
    · subst hji
      replace hkv' := hself hkv'
      obtain ⟨kv, hkv, rfl⟩ := Option.map_eq_some_iff.mp hkv'
      split_ifs at hm' with hdead
      · obtain ⟨m, hm, rfl⟩ := Option.map_eq_some_iff.mp hm'
        exact .kept hkv hm (.cleared [] m)
      · exact .kept hkv hm' (.refl [] m')
    · exact hother hkv' hji
  | register t =>
    dsimp only [upper] at hkv'
    split at hkv'
    · next p hp =>
      split at hkv'
      · next kv hkv hphase =>
        by_cases hji : j = p.node
        · subst hji
          replace hkv' := hself hkv'
          cases hkv'
          simp only [KVServer.setReply] at hm'
          split_ifs at hm' with hx
          · cases hm'
            rw [hx]
            exact .registered hp hphase rfl (server_some hkv).1
          · exact .kept (server_some hkv).2 hm' (.refl [] m')
        · exact hother hkv' hji
      · exact hold hkv'
    · exact hold hkv'
  | waitTurn t timedOut =>
    dsimp only [upper] at hkv'
    split at hkv'
    · next p hp =>
      split at hkv'
      · next kv hkv hphase =>
        split at hkv'
        · by_cases hji : j = p.node
          · subst hji
            replace hkv' := hself hkv'
            cases hkv'
            simp only [KVServer.setReply] at hm'
            split_ifs at hm'
            exact .kept (server_some hkv).2 hm' (.refl [] m')
          · exact hother hkv' hji
        · exact hold hkv'
      · exact hold hkv'
    · exact hold hkv'
  | putAppend i args =>
    dsimp only [upper] at hkv'
    split at hkv'
    · split_ifs at hkv' <;> exact hold hkv'
    · exact hold hkv'
  | getTurn t timedOut | propose t =>
    dsimp only [upper] at hkv'
    split at hkv'
    · split at hkv' <;> exact hold hkv'
    · exact hold hkv'
  | force i | get i key now =>
    dsimp only [upper] at hkv'
    split at hkv' <;> exact hold hkv'
  | _ => exact hold hkv'

end KvCluster
end ChonKV
