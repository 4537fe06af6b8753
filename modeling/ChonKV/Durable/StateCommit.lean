import Mathlib.Data.List.Induction
import Mathlib.Tactic.Common

/-!
`PersistLocked` and `PersistFlushLoop` of a node with files: any number of callers register the state
that they have encoded, one thread writes the newest. A state is a value of any type here.
-/

set_option autoImplicit false

namespace ChonKV.StateCommit

variable {σ β : Type}

/-- Where `PersistFlushLoop` stands, with its own `blob` and `v`. -/
inductive FlushLoop (β : Type) where
  | idle
  | saving (blob : Option β) (v : Nat)
  | saved (v : Nat)
  | exited

/-- The members behind `mu_`, the versions that callers wait for, and every blob that was written
with its version. -/
structure Registers (β : Type) where
  pendingStateBlob : Option β := none
  persistVersion : Nat := 0
  persistSynced : Nat := 0
  persistDirty : Bool := false
  killed : Bool := false
  waiting : List Nat := []
  flusher : FlushLoop β := .idle
  written : List (Nat × Option β) := []

inductive Action (σ : Type) where
  /-- `PersistLocked` up to its wait, called where the state is `r`. -/
  | persistLocked (r : σ)
  /-- The wait of the caller that registered `v` is over. -/
  | release (v : Nat)
  /-- The flusher has `mu_`: it takes the newest blob, or ends. -/
  | take
  /-- `SaveRaftState`. -/
  | save
  /-- The flusher has `mu_` again. -/
  | publish
  | kill

/-- What the flusher will publish. -/
def FlushLoop.taken : FlushLoop β → Option Nat
  | .saving _ v | .saved v => some v
  | _ => none

/-- What the flusher has taken and not written. -/
def FlushLoop.inHand : FlushLoop β → List (Nat × Option β)
  | .saving blob v => [(v, blob)]
  | _ => []

namespace Registers

/-- `none` where the action is not enabled. -/
def step (encode : σ → β) (s : Registers β) : Action σ → Option (Registers β)
  | .persistLocked r =>
    some { s with
      pendingStateBlob := some (encode r)
      persistVersion := s.persistVersion + 1
      persistDirty := true
      waiting := s.waiting ++ [s.persistVersion + 1] }
  | .release v =>
    if v ∈ s.waiting ∧ (s.killed ∨ v ≤ s.persistSynced) then
      some { s with waiting := s.waiting.erase v }
    else none
  | .take =>
    match s.flusher with
    | .idle =>
      if s.killed then some { s with flusher := .exited }
      else if s.persistDirty then
        some { s with
          pendingStateBlob := none
          persistDirty := false
          flusher := .saving s.pendingStateBlob s.persistVersion }
      else none
    | _ => none
  | .save =>
    match s.flusher with
    | .saving blob v => some { s with written := s.written ++ [(v, blob)], flusher := .saved v }
    | _ => none
  | .publish =>
    match s.flusher with
    | .saved v => some { s with persistSynced := max s.persistSynced v, flusher := .idle }
    | _ => none
  | .kill => some { s with killed := true }

def run (encode : σ → β) (s : Registers β) (es : List (Action σ)) : Option (Registers β) :=
  es.foldlM (step encode) s

/-- `s'` is where some actions lead from `s`. -/
def Reaches (encode : σ → β) (s s' : Registers β) : Prop := ∃ es, run encode s es = some s'

/-- The blobs that the flusher has taken, in order. -/
def takes (s : Registers β) : List (Nat × Option β) := s.written ++ s.flusher.inHand

end Registers

def Action.registers : Action σ → List σ
  | .persistLocked r => [r]
  | _ => []

/-- The states that were registered: the one at position `v - 1` has version `v`. -/
def registered (es : List (Action σ)) : List σ := es.flatMap Action.registers

/-- The blob has the version under which it was encoded. -/
def Encodes (encode : σ → β) (es : List (Action σ)) (p : Nat × Option β) : Prop :=
  ∃ r v, p.1 = v + 1 ∧ (registered es)[v]? = some r ∧ p.2 = some (encode r)

structure Inv (encode : σ → β) (es : List (Action σ)) (s : Registers β) : Prop where
  version : (registered es).length = s.persistVersion
  sorted : (s.takes.map Prod.fst).Pairwise (· < ·)
  sound : ∀ p ∈ s.takes, Encodes encode es p
  newest : s.persistDirty → Encodes encode es (s.persistVersion, s.pendingStateBlob) ∧
    ∀ p ∈ s.takes, p.1 < s.persistVersion
  waiting : ∀ v ∈ s.waiting, 0 < v
  synced : s.persistSynced = 0 ∨ ∃ p, s.written.getLast? = some p ∧ s.persistSynced ≤ p.1
  saved : ∀ v, s.flusher = .saved v → ∃ p, s.written.getLast? = some p ∧ p.1 = v
  due : s.persistVersion ≤ s.persistSynced ∨ s.persistDirty ∨
    ∃ t, s.flusher.taken = some t ∧ s.persistVersion ≤ t

section Steps
variable {encode : σ → β} {es : List (Action σ)} {s s' s'' : Registers β} {x : Action σ}

namespace Registers

theorem Reaches.refl (encode : σ → β) (s : Registers β) : Reaches encode s s := ⟨[], rfl⟩

theorem Reaches.trans (h : Reaches encode s s') (h' : Reaches encode s' s'') : Reaches encode s s'' := by
  obtain ⟨es, hes⟩ := h
  obtain ⟨es', hes'⟩ := h'
  refine ⟨es ++ es', ?_⟩
  rw [run, List.foldlM_append]
  exact Option.bind_eq_some_iff.mpr ⟨s', hes, hes'⟩

theorem reaches_step (h : s.step encode x = some s') : Reaches encode s s' := ⟨[x], by simp [run, h]⟩

end Registers

@[simp] theorem registered_snoc (es : List (Action σ)) (x : Action σ) :
    registered (es ++ [x]) = registered es ++ x.registers := by
  simp [registered]

theorem Encodes.snoc {p : Nat × Option β} (h : Encodes encode es p) (x : Action σ) :
    Encodes encode (es ++ [x]) p := by
  obtain ⟨r, v, hv, hr, hp⟩ := h
  refine ⟨r, v, hv, ?_, hp⟩
  obtain ⟨hlt, -⟩ := List.getElem?_eq_some_iff.mp hr
  rw [registered_snoc, List.getElem?_append_left hlt, hr]

theorem Encodes.lt {p : Nat × Option β} (h : Encodes encode es p) :
    p.1 < (registered es).length + 1 := by
  obtain ⟨r, v, hv, hr, -⟩ := h
  obtain ⟨hlt, -⟩ := List.getElem?_eq_some_iff.mp hr
  omega

/-- An action that registers nothing and leaves what was taken alone. -/
theorem Inv.keep (h : Inv encode es s) (hx : x.registers = [])
    (hv : s'.persistVersion = s.persistVersion) (hb : s'.pendingStateBlob = s.pendingStateBlob)
    (hd : s'.persistDirty = s.persistDirty) (ht : s'.takes = s.takes)
    (hw : ∀ v ∈ s'.waiting, 0 < v)
    (hsynced : s'.persistSynced = 0 ∨ ∃ p, s'.written.getLast? = some p ∧ s'.persistSynced ≤ p.1)
    (hsaved : ∀ v, s'.flusher = .saved v → ∃ p, s'.written.getLast? = some p ∧ p.1 = v)
    (hdue : s'.persistVersion ≤ s'.persistSynced ∨ s'.persistDirty ∨
      ∃ t, s'.flusher.taken = some t ∧ s'.persistVersion ≤ t) : Inv encode (es ++ [x]) s' where
  version := by rw [registered_snoc, hx, List.append_nil, hv, h.version]
  sorted := ht ▸ h.sorted
  sound := fun p hp => (h.sound p (ht ▸ hp)).snoc x
  newest := by
    intro hdirty
    obtain ⟨henc, hlt⟩ := h.newest (hd ▸ hdirty)
    rw [hv, hb, ht]
    exact ⟨henc.snoc x, hlt⟩
  waiting := hw
  synced := hsynced
  saved := hsaved
  due := hdue

theorem Inv.persistLocked (h : Inv encode es s) (r : σ)
    (hs : s.step encode (.persistLocked r) = some s') : Inv encode (es ++ [.persistLocked r]) s' := by
  cases hs
  have hlast : (registered (es ++ [.persistLocked r]))[s.persistVersion]? = some r := by
    simp [Action.registers, ← h.version]
  refine ⟨by simp [Action.registers, h.version], h.sorted, fun p hp => (h.sound p hp).snoc _,
    fun _ => ⟨⟨r, s.persistVersion, rfl, hlast, rfl⟩, fun p hp => ?_⟩, ?_, h.synced, h.saved,
    Or.inr (Or.inl rfl)⟩
  · exact h.version ▸ (h.sound p hp).lt
  · intro v hv
    obtain hv | rfl : v ∈ s.waiting ∨ v = s.persistVersion + 1 := by simpa using hv
    · exact h.waiting v hv
    · exact Nat.succ_pos _

/-- The flusher takes the newest blob, which is later than all that it took before. -/
theorem Inv.take (h : Inv encode es s) (hs : s.step encode .take = some s') :
    Inv encode (es ++ [.take]) s' := by
  simp only [Registers.step] at hs
  split at hs
  · rename_i hidle
    have hhand : s.takes = s.written := by simp [Registers.takes, hidle, FlushLoop.inHand]
    split_ifs at hs with hkilled hdirty
    · cases hs
      refine h.keep rfl rfl rfl rfl ?_ h.waiting h.synced (fun v hv => by cases hv) ?_
      · rw [hhand]
        simp [Registers.takes, FlushLoop.inHand]
      · have hdue := h.due
        rw [hidle] at hdue
        exact hdue
    · cases hs
      obtain ⟨henc, hlt⟩ := h.newest hdirty
      refine ⟨by simp [Action.registers, h.version], ?_, ?_, (fun hd => by cases hd), h.waiting,
        h.synced, (fun v hv => by cases hv), Or.inr (Or.inr ⟨_, rfl, Nat.le_refl _⟩)⟩
      · simp only [Registers.takes, FlushLoop.inHand, List.map_append, List.pairwise_append]
        rw [← hhand]
        refine ⟨h.sorted, by simp, ?_⟩
        simpa using fun v b hp => hlt (v, b) hp
      · intro p hp
        simp only [Registers.takes, FlushLoop.inHand, List.mem_append, List.mem_singleton] at hp
        obtain hp | rfl := hp
        · exact (h.sound p (hhand ▸ hp)).snoc _
        · exact henc.snoc _
  · cases hs

theorem Inv.save (h : Inv encode es s) (hs : s.step encode .save = some s') :
    Inv encode (es ++ [.save]) s' := by
  simp only [Registers.step] at hs
  split at hs
  · rename_i blob v hsaving
    cases hs
    have htakes : s.takes = s.written ++ [(v, blob)] := by
      simp [Registers.takes, hsaving, FlushLoop.inHand]
    refine h.keep rfl rfl rfl rfl ?_ h.waiting ?_ ?_ ?_
    · rw [htakes]
      simp [Registers.takes, FlushLoop.inHand]
    · obtain h0 | ⟨p, hp, hle⟩ := h.synced
      · exact Or.inl h0
      · refine Or.inr ⟨(v, blob), by simp, Nat.le_trans hle ?_⟩
        have hsorted := h.sorted
        rw [htakes, List.map_append, List.pairwise_append] at hsorted
        have hmem := List.mem_map_of_mem (f := Prod.fst) (List.mem_of_getLast? hp)
        exact Nat.le_of_lt (hsorted.2.2 _ hmem v (by simp))
    · rintro w ⟨⟩
      exact ⟨(v, blob), by simp, rfl⟩
    · have hdue := h.due
      rw [hsaving] at hdue
      exact hdue
  · cases hs

theorem Inv.publish (h : Inv encode es s) (hs : s.step encode .publish = some s') :
    Inv encode (es ++ [.publish]) s' := by
  simp only [Registers.step] at hs
  split at hs
  · rename_i v hsaved
    cases hs
    obtain ⟨p, hp, hpv⟩ := h.saved v hsaved
    refine h.keep rfl rfl rfl rfl ?_ h.waiting ?_ (fun w hw => by cases hw) ?_
    · simp [hsaved, Registers.takes, FlushLoop.inHand]
    · obtain h0 | ⟨q, hq, hle⟩ := h.synced
      · exact Or.inr ⟨p, hp, by simp [h0, hpv]⟩
      · cases hp.symm.trans hq
        exact Or.inr ⟨p, hp, Nat.max_le.mpr ⟨hle, Nat.le_of_eq hpv.symm⟩⟩
    · obtain hd | hd | ⟨t, ht, hd⟩ := h.due
      · exact Or.inl (Nat.le_trans hd (Nat.le_max_left _ _))
      · exact Or.inr (Or.inl hd)
      · rw [hsaved] at ht
        cases ht
        exact Or.inl (Nat.le_trans hd (Nat.le_max_right _ _))
  · cases hs

theorem Inv.step (h : Inv encode es s) (hs : s.step encode x = some s') :
    Inv encode (es ++ [x]) s' := by
  cases x with
  | persistLocked r => exact h.persistLocked r hs
  | release v =>
    simp only [Registers.step] at hs
    split_ifs at hs
    cases hs
    exact h.keep rfl rfl rfl rfl rfl (fun v hv => h.waiting v (List.mem_of_mem_erase hv)) h.synced
      h.saved h.due
  | take => exact h.take hs
  | save => exact h.save hs
  | publish => exact h.publish hs
  | kill =>
    cases hs
    exact h.keep rfl rfl rfl rfl rfl h.waiting h.synced h.saved h.due

theorem inv_init (encode : σ → β) : Inv encode [] {} where
  version := rfl
  sorted := List.Pairwise.nil
  sound := fun p hp => by cases hp
  newest := fun hd => by cases hd
  waiting := fun v hv => by cases hv
  synced := Or.inl rfl
  saved := fun v hv => by cases hv
  due := Or.inl (Nat.le_refl _)

theorem inv_run (hrun : Registers.run encode {} es = some s) : Inv encode es s := by
  induction es using List.reverseRecOn generalizing s with
  | nil =>
    cases hrun
    exact inv_init encode
  | append_singleton es x ih =>
    rw [Registers.run, List.foldlM_append] at hrun
    obtain ⟨mid, hmid, hstep⟩ := Option.bind_eq_some_iff.mp hrun
    have hx : mid.step encode x = some s := by simpa using hstep
    exact (ih hmid).step hx

/-- A caller that may go on finds its own state or a later one written. -/
theorem Inv.released (h : Inv encode es s) {v : Nat} (hmem : v ∈ s.waiting)
    (hv : v ≤ s.persistSynced) : ∃ p, s.written.getLast? = some p ∧ v ≤ p.1 ∧ Encodes encode es p := by
  have hpos := h.waiting v hmem
  obtain h0 | ⟨p, hp, hsynced⟩ := h.synced
  · omega
  · exact ⟨p, hp, Nat.le_trans hv hsynced, h.sound p (List.mem_append_left _ (List.mem_of_getLast? hp))⟩

/-- What is written has increasing versions, each the version of its encoding; a caller that goes on
finds its own state or a later one written; and a version that is not written is dirty or on its way. -/
theorem stateCommit (hrun : Registers.run encode {} es = some s) :
    (s.written.map Prod.fst).Pairwise (· < ·) ∧
    (∀ p ∈ s.written, Encodes encode es p) ∧
    (∀ v s', s.step encode (.release v) = some s' → s.killed = false →
      ∃ p, s.written.getLast? = some p ∧ v ≤ p.1 ∧ Encodes encode es p) ∧
    ∀ v ≤ s.persistVersion, s.persistSynced < v →
      s.persistDirty ∨ ∃ t, s.flusher.taken = some t ∧ v ≤ t := by
  have h := inv_run hrun
  refine ⟨?_, fun p hp => h.sound p (List.mem_append_left _ hp), fun v s' hrel halive => ?_, fun v hv hsynced => ?_⟩
  · have hsorted := h.sorted
    rw [Registers.takes, List.map_append, List.pairwise_append] at hsorted
    exact hsorted.1
  · simp only [Registers.step] at hrel
    split_ifs at hrel with hcond
    obtain ⟨hmem, hle⟩ := hcond
    exact h.released hmem (hle.resolve_left (by simp [halive]))
  · obtain hd | hd | ⟨t, ht, hd⟩ := h.due
    · omega
    · exact Or.inl hd
    · exact Or.inr ⟨t, ht, Nat.le_trans hv hd⟩

end Steps

/-- Two callers whose states go to the disk in one write, and a third one during it. -/
def shared : List (Action Nat) :=
  [.persistLocked 5, .persistLocked 6, .take, .persistLocked 7, .save, .publish]

theorem stateCommit_shared : ∃ p, Encodes (fun n : Nat => n * 10) shared p ∧ 1 ≤ p.1 := by
  obtain ⟨s, hrun, hrel, halive⟩ : ∃ s : Registers Nat,
      Registers.run (fun n => n * 10) {} shared = some s ∧
      s.step (fun n => n * 10) (.release 1) = some { s with waiting := s.waiting.erase 1 } ∧
      s.killed = false := ⟨_, rfl, rfl, rfl⟩
  obtain ⟨p, -, hle, henc⟩ := (stateCommit hrun).2.2.1 1 _ hrel halive
  exact ⟨p, henc, hle⟩

end ChonKV.StateCommit
