import Mathlib.Data.List.Induction
import Mathlib.Tactic.Common

/-!
`SegmentLogStorage::Sync` and `FlushLoop` with `flush_mu_` and the two condition variables: every
stretch between two releases of the lock is a step, and `fsync` begins and ends in steps of its own.
-/

set_option autoImplicit false

namespace ChonKV.GroupCommit

def kGroupCommitNs : Int := 2000000
def kFlushUrgentNs : Int := 200000

/-- Where `FlushLoop` stands. -/
inductive FlushPoint where
  /-- It is about to take `flush_mu_`. -/
  | locking
  /-- It waits for `flush_wake_cv_`; `woken` once it was notified. -/
  | asleep (woken : Bool)
  /-- It waits in the debounce window. -/
  | debouncing (target : Nat) (window deadline : Int)
  /-- It has cleared the flags and released the lock. -/
  | cleared (target : Nat)
  | fsyncing (target : Nat)
  /-- `fsync` is done, its target not yet published. -/
  | fsynced (target : Nat)
  /-- It has released the lock for the `fsync` of the shutdown. -/
  | closing
  | exited
  deriving DecidableEq, Repr

/-- What is behind `flush_mu_`, where the flusher stands, and the epochs that `Sync(true)` callers
wait for. -/
structure FlushState where
  requestEpoch : Nat := 0
  doneEpoch : Nat := 0
  pending : Bool := false
  urgent : Bool := false
  stop : Bool := false
  dirty : Bool := false
  waiting : List Nat := []
  flusher : FlushPoint := .locking
  deriving DecidableEq, Repr

/-- The times that the flusher reads come with the step. -/
inductive FlushEvent where
  /-- `Sync(true)` up to its wait. -/
  | syncForce
  | syncAppend
  /-- The wait of the `Sync(true)` that registered `my` is over. -/
  | release (my : Nat)
  /-- A record is written or the file is cut. -/
  | write
  /-- The flusher has the lock and looks at the flags. -/
  | check (now later : Int)
  | debounce (timeout : Bool) (now later : Int)
  | fsyncBegin
  | fsyncEnd
  | publish
  /-- The end of the `fsync` of the shutdown. -/
  | close
  | stop
  deriving DecidableEq, Repr

namespace FlushPoint

/-- `flush_wake_cv_.notify_one()`. -/
def notify : FlushPoint → FlushPoint
  | .asleep _ => .asleep true
  | p => p

/-- What the flusher will publish, once it has cleared the pending flag. -/
def taken : FlushPoint → Option Nat
  | .cleared t | .fsyncing t | .fsynced t => some t
  | _ => none

end FlushPoint

namespace FlushState

/-- `Sync(true)` up to its wait. -/
def syncForce (s : FlushState) : FlushState :=
  { s with
    requestEpoch := s.requestEpoch + 1
    pending := true
    urgent := true
    waiting := s.waiting ++ [s.requestEpoch + 1]
    flusher := s.flusher.notify }

/-- `Sync(false)`. -/
def syncAppend (s : FlushState) : FlushState :=
  if s.pending then s else { s with pending := true, flusher := s.flusher.notify }

/-- The condition of the debounce loop: it waits on, or leaves the lock with the flags cleared. -/
def debounceLoop (s : FlushState) (target : Nat) (window deadline now : Int) (timeout : Bool) :
    FlushState :=
  if now < deadline ∧ ¬ timeout then { s with flusher := .debouncing target window deadline }
  else { s with pending := false, urgent := false, flusher := .cleared target }

/-- `FlushLoop` from the predicate of its first wait on. -/
def check (s : FlushState) (now later : Int) : FlushState :=
  if s.stop then
    if s.dirty then { s with flusher := .closing }
    else { s with doneEpoch := s.requestEpoch, flusher := .exited }
  else if s.pending then
    let window := if s.urgent then kFlushUrgentNs else kGroupCommitNs
    s.debounceLoop s.requestEpoch window (now + window) later false
  else { s with flusher := .asleep false }

/-- A `wait_for` of the debounce loop returns. -/
def debounce (s : FlushState) (target : Nat) (window deadline : Int) (timeout : Bool)
    (now later : Int) : FlushState :=
  let target := max target s.requestEpoch
  if s.urgent ∧ kFlushUrgentNs < window then
    s.debounceLoop target kFlushUrgentNs (now + kFlushUrgentNs) later timeout
  else s.debounceLoop target window deadline later timeout

/-- `none` where the step is not enabled. A sleeping flusher may look at the flags without having
been notified. -/
def step (s : FlushState) : FlushEvent → Option FlushState
  | .syncForce => some s.syncForce
  | .syncAppend => some s.syncAppend
  | .release my =>
    if my ∈ s.waiting ∧ (s.stop ∨ my ≤ s.doneEpoch) then
      some { s with waiting := s.waiting.erase my }
    else none
  | .write => some { s with dirty := true }
  | .check now later =>
    match s.flusher with
    | .locking | .asleep _ => some (s.check now later)
    | _ => none
  | .debounce timeout now later =>
    match s.flusher with
    | .debouncing target window deadline =>
      some (s.debounce target window deadline timeout now later)
    | _ => none
  | .fsyncBegin =>
    match s.flusher with
    | .cleared target => some { s with flusher := .fsyncing target }
    | _ => none
  | .fsyncEnd =>
    match s.flusher with
    | .fsyncing target => some { s with flusher := .fsynced target }
    | _ => none
  | .publish =>
    match s.flusher with
    | .fsynced target => some { s with doneEpoch := target, flusher := .locking }
    | _ => none
  | .close =>
    match s.flusher with
    | .closing => some { s with doneEpoch := s.requestEpoch, flusher := .exited }
    | _ => none
  | .stop => some { s with stop := true, flusher := s.flusher.notify }

/-- The state after the steps, in order. -/
def run (s : FlushState) (es : List FlushEvent) : Option FlushState := es.foldlM step s

end FlushState

/-- `Sync(true)` has registered the epoch `e`. -/
def Registered (es : List FlushEvent) (e : Nat) : Prop :=
  ∃ a b, es = a ++ .syncForce :: b ∧ a.count .syncForce + 1 = e

/-- The last `fsync` to begin has begun after the epoch `e` was registered. -/
def Begun (es : List FlushEvent) (e : Nat) : Prop :=
  ∃ a b, es = a ++ .fsyncBegin :: b ∧ .fsyncBegin ∉ b ∧ Registered a e

/-- An `fsync` that began after the epoch `e` was registered has ended. -/
def Synced (es : List FlushEvent) (e : Nat) : Prop :=
  ∃ a b, es = a ++ .fsyncEnd :: b ∧ Begun a e

section Traces
variable {es : List FlushEvent} {e : Nat}

theorem registered_of_le (hpos : 0 < e) (hle : e ≤ es.count .syncForce) : Registered es e := by
  induction es using List.reverseRecOn with
  | nil => simp at hle; omega
  | append_singleton es x ih =>
    by_cases hold : e ≤ es.count .syncForce
    · obtain ⟨a, b, hab, hcount⟩ := ih hold
      exact ⟨a, b ++ [x], by simp [hab], hcount⟩
    · by_cases hx : x = .syncForce
      · subst hx
        exact ⟨es, [], rfl, by simp at hle; omega⟩
      · simp [List.count_append, hx] at hle
        omega

theorem Begun.snoc {x : FlushEvent} (h : Begun es e) (hx : x ≠ .fsyncBegin) : Begun (es ++ [x]) e := by
  obtain ⟨a, b, hab, hb, hreg⟩ := h
  exact ⟨a, b ++ [x], by simp [hab], by simp [hb, hx.symm], hreg⟩

theorem Registered.begin (h : Registered es e) : Begun (es ++ [.fsyncBegin]) e :=
  ⟨es, [], rfl, by simp, h⟩

theorem Begun.synced (h : Begun es e) : Synced (es ++ [.fsyncEnd]) e := ⟨es, [], rfl, h⟩

theorem Synced.snoc (x : FlushEvent) (h : Synced es e) : Synced (es ++ [x]) e := by
  obtain ⟨a, b, hab, hbegun⟩ := h
  exact ⟨a, b ++ [x], by simp [hab], hbegun⟩

end Traces

/-- What holds at a point of the flusher after the steps `es`. -/
def At (es : List FlushEvent) (s : FlushState) : FlushPoint → Prop
  | .asleep woken => s.pending → woken
  | .debouncing target _ _ => target ≤ s.requestEpoch ∧ s.pending
  | .cleared target => s.doneEpoch ≤ target ∧ target ≤ s.requestEpoch
  | .fsyncing target => (s.doneEpoch ≤ target ∧ target ≤ s.requestEpoch) ∧
      ∀ e, 0 < e → e ≤ target → Begun es e
  | .fsynced target => (s.doneEpoch ≤ target ∧ target ≤ s.requestEpoch) ∧
      ∀ e, 0 < e → e ≤ target → Synced es e
  | .closing => s.stop
  | _ => True

/-- An epoch that is registered and not done has set the pending flag, or is on its way to be
published. -/
def Due (s : FlushState) : Prop :=
  s.requestEpoch ≤ s.doneEpoch ∨ s.pending ∨ ∃ t, s.flusher.taken = some t ∧ s.requestEpoch ≤ t

structure Inv (es : List FlushEvent) (s : FlushState) : Prop where
  count : es.count .syncForce = s.requestEpoch
  done_le : s.doneEpoch ≤ s.requestEpoch
  synced : s.stop = false → ∀ e, 0 < e → e ≤ s.doneEpoch → Synced es e
  waiting : ∀ e ∈ s.waiting, 0 < e
  point : At es s s.flusher
  due : Due s

@[simp] theorem FlushPoint.taken_notify (p : FlushPoint) : p.notify.taken = p.taken := by
  cases p <;> rfl

section Steps
variable {es : List FlushEvent} {s s' : FlushState} {x : FlushEvent}

theorem At.keep {p : FlushPoint} (h : At es s p) (hx : x ≠ .fsyncBegin)
    (hreq : s.requestEpoch ≤ s'.requestEpoch) (hdone : s'.doneEpoch = s.doneEpoch)
    (hpend : s'.pending = s.pending) (hstop : s'.stop = s.stop) : At (es ++ [x]) s' p := by
  cases p with
  | asleep woken => exact fun hp => h (hpend ▸ hp)
  | debouncing target window deadline => exact ⟨Nat.le_trans h.1 hreq, hpend ▸ h.2⟩
  | cleared target => exact ⟨hdone ▸ h.1, Nat.le_trans h.2 hreq⟩
  | fsyncing target =>
    exact ⟨⟨hdone ▸ h.1.1, Nat.le_trans h.1.2 hreq⟩, fun e h0 he => (h.2 e h0 he).snoc hx⟩
  | fsynced target =>
    exact ⟨⟨hdone ▸ h.1.1, Nat.le_trans h.1.2 hreq⟩, fun e h0 he => (h.2 e h0 he).snoc x⟩
  | closing => exact hstop.trans h
  | _ => trivial

/-- A notified flusher may find the pending flag set. -/
theorem At.notify {p : FlushPoint} (h : At es s p) (hx : x ≠ .fsyncBegin)
    (hreq : s.requestEpoch ≤ s'.requestEpoch) (hdone : s'.doneEpoch = s.doneEpoch)
    (hpend : s.pending → s'.pending) (hstop : s.stop → s'.stop) : At (es ++ [x]) s' p.notify := by
  cases p with
  | asleep woken => exact fun _ => rfl
  | debouncing target window deadline => exact ⟨Nat.le_trans h.1 hreq, hpend h.2⟩
  | cleared target => exact ⟨hdone ▸ h.1, Nat.le_trans h.2 hreq⟩
  | fsyncing target =>
    exact ⟨⟨hdone ▸ h.1.1, Nat.le_trans h.1.2 hreq⟩, fun e h0 he => (h.2 e h0 he).snoc hx⟩
  | fsynced target =>
    exact ⟨⟨hdone ▸ h.1.1, Nat.le_trans h.1.2 hreq⟩, fun e h0 he => (h.2 e h0 he).snoc x⟩
  | closing => exact hstop h
  | _ => trivial

theorem Inv.count_snoc (h : Inv es s) (hx : x ≠ .syncForce) :
    (es ++ [x]).count .syncForce = s.requestEpoch := by
  simp [List.count_append, hx, h.count]

theorem Inv.syncForce (h : Inv es s) : Inv (es ++ [.syncForce]) s.syncForce where
  count := by simp [List.count_append, h.count, FlushState.syncForce]
  done_le := Nat.le_succ_of_le h.done_le
  synced := fun hstop e h0 he => (h.synced hstop e h0 he).snoc _
  waiting := by
    intro e he
    obtain he | rfl : e ∈ s.waiting ∨ e = s.requestEpoch + 1 := by
      simpa [FlushState.syncForce] using he
    · exact h.waiting e he
    · exact Nat.succ_pos _
  point := h.point.notify (by simp) (Nat.le_succ _) rfl (fun _ => rfl) id
  due := Or.inr (Or.inl rfl)

theorem Inv.syncAppend (h : Inv es s) : Inv (es ++ [.syncAppend]) s.syncAppend := by
  rw [FlushState.syncAppend]
  split_ifs with hp
  · exact ⟨h.count_snoc (by simp), h.done_le, fun hs e h0 he => (h.synced hs e h0 he).snoc _,
      h.waiting, h.point.keep (by simp) (Nat.le_refl _) rfl rfl rfl, h.due⟩
  · exact ⟨h.count_snoc (by simp), h.done_le, fun hs e h0 he => (h.synced hs e h0 he).snoc _,
      h.waiting, h.point.notify (by simp) (Nat.le_refl _) rfl (fun _ => rfl) id,
      Or.inr (Or.inl rfl)⟩

/-- The flags are cleared under the lock that the newest epoch is read under. -/
theorem Inv.debounceLoop (h : Inv es s) {window deadline now : Int} {timeout : Bool}
    (hpend : s.pending) (hx : x ≠ .syncForce) :
    Inv (es ++ [x]) (s.debounceLoop s.requestEpoch window deadline now timeout) := by
  rw [FlushState.debounceLoop]
  split_ifs
  · exact ⟨h.count_snoc hx, h.done_le, fun hs e h0 he => (h.synced hs e h0 he).snoc _, h.waiting,
      ⟨Nat.le_refl _, hpend⟩, Or.inr (Or.inl hpend)⟩
  · exact ⟨h.count_snoc hx, h.done_le, fun hs e h0 he => (h.synced hs e h0 he).snoc _, h.waiting,
      ⟨h.done_le, Nat.le_refl _⟩, Or.inr (Or.inr ⟨s.requestEpoch, rfl, Nat.le_refl _⟩)⟩

theorem Inv.check (h : Inv es s) (hidle : s.flusher.taken = none) (now later : Int) :
    Inv (es ++ [.check now later]) (s.check now later) := by
  rw [FlushState.check]
  have hnone : ¬ ∃ t, s.flusher.taken = some t ∧ s.requestEpoch ≤ t := by simp [hidle]
  split_ifs with hstop hdirty hpend hurgent
  · exact ⟨h.count_snoc (by simp), h.done_le, fun hs => absurd hs (by simp [hstop]), h.waiting,
      hstop, h.due.imp_right fun hd => Or.inl (hd.resolve_right hnone)⟩
  · exact ⟨h.count_snoc (by simp), Nat.le_refl _, fun hs => absurd hs (by simp [hstop]), h.waiting,
      trivial, Or.inl (Nat.le_refl _)⟩
  · exact h.debounceLoop hpend (by simp)
  · exact h.debounceLoop hpend (by simp)
  · have hdone : s.requestEpoch ≤ s.doneEpoch := by
      obtain hd | hd | hd := h.due
      · exact hd
      · exact absurd hd hpend
      · exact absurd hd hnone
    exact ⟨h.count_snoc (by simp), h.done_le, fun hs e h0 he => (h.synced hs e h0 he).snoc _,
      h.waiting, fun hp => absurd hp hpend, Or.inl hdone⟩

theorem Inv.debounce (h : Inv es s) {target : Nat} {window deadline : Int} (timeout : Bool)
    (now later : Int) (hp : s.flusher = .debouncing target window deadline) :
    Inv (es ++ [.debounce timeout now later])
      (s.debounce target window deadline timeout now later) := by
  have hpoint := h.point
  rw [hp] at hpoint
  obtain ⟨hle, hpend⟩ := hpoint
  rw [FlushState.debounce, Nat.max_eq_right hle]
  split_ifs
  · exact h.debounceLoop hpend (by simp)
  · exact h.debounceLoop hpend (by simp)

theorem Inv.step (h : Inv es s) (hs : s.step x = some s') : Inv (es ++ [x]) s' := by
  cases x with
  | syncForce => cases hs; exact h.syncForce
  | syncAppend => cases hs; exact h.syncAppend
  | release my =>
    simp only [FlushState.step] at hs
    split_ifs at hs
    cases hs
    exact ⟨h.count_snoc (by simp), h.done_le, fun hs e h0 he => (h.synced hs e h0 he).snoc _,
      fun e he => h.waiting e (List.mem_of_mem_erase he),
      h.point.keep (by simp) (Nat.le_refl _) rfl rfl rfl, h.due⟩
  | write =>
    cases hs
    exact ⟨h.count_snoc (by simp), h.done_le, fun hs e h0 he => (h.synced hs e h0 he).snoc _,
      h.waiting, h.point.keep (by simp) (Nat.le_refl _) rfl rfl rfl, h.due⟩
  | check now later =>
    simp only [FlushState.step] at hs
    split at hs
    · rename_i hp
      cases hs
      exact h.check (by rw [hp]; rfl) now later
    · rename_i hp
      cases hs
      exact h.check (by rw [hp]; rfl) now later
    · cases hs
  | debounce timeout now later =>
    simp only [FlushState.step] at hs
    split at hs
    · rename_i hp
      cases hs
      exact h.debounce timeout now later hp
    · cases hs
  | fsyncBegin =>
    simp only [FlushState.step] at hs
    split at hs
    · rename_i target hp
      cases hs
      have hpoint := h.point
      have hdue := h.due
      rw [hp] at hpoint
      rw [Due, hp] at hdue
      refine ⟨h.count_snoc (by simp), h.done_le, fun hs e h0 he => (h.synced hs e h0 he).snoc _,
        h.waiting, ⟨hpoint, fun e h0 he => ?_⟩, hdue⟩
      have hreg : e ≤ es.count .syncForce := h.count ▸ Nat.le_trans he hpoint.2
      exact (registered_of_le h0 hreg).begin
    · cases hs
  | fsyncEnd =>
    simp only [FlushState.step] at hs
    split at hs
    · rename_i target hp
      cases hs
      have hpoint := h.point
      have hdue := h.due
      rw [hp] at hpoint
      rw [Due, hp] at hdue
      exact ⟨h.count_snoc (by simp), h.done_le, fun hs e h0 he => (h.synced hs e h0 he).snoc _,
        h.waiting, ⟨hpoint.1, fun e h0 he => (hpoint.2 e h0 he).synced⟩, hdue⟩
    · cases hs
  | publish =>
    simp only [FlushState.step] at hs
    split at hs
    · rename_i target hp
      cases hs
      have hpoint := h.point
      have hdue := h.due
      rw [hp] at hpoint
      rw [Due, hp] at hdue
      refine ⟨h.count_snoc (by simp), hpoint.1.2, fun hs e h0 he => (hpoint.2 e h0 he).snoc _,
        h.waiting, trivial, ?_⟩
      obtain hd | hd | ⟨t, ht, hd⟩ := hdue
      · exact Or.inl (Nat.le_trans hd hpoint.1.1)
      · exact Or.inr (Or.inl hd)
      · cases ht
        exact Or.inl hd
    · cases hs
  | close =>
    simp only [FlushState.step] at hs
    split at hs
    · rename_i hp
      cases hs
      have hstop : s.stop := by
        have hpoint := h.point
        rwa [hp] at hpoint
      exact ⟨h.count_snoc (by simp), Nat.le_refl _, fun hs => absurd hs (by simp [hstop]), h.waiting,
        trivial, Or.inl (Nat.le_refl _)⟩
    · cases hs
  | stop =>
    cases hs
    refine ⟨h.count_snoc (by simp), h.done_le, fun hs => absurd hs (by simp), h.waiting,
      h.point.notify (by simp) (Nat.le_refl _) rfl id (fun _ => rfl), ?_⟩
    rw [Due, FlushPoint.taken_notify]
    exact h.due

end Steps

theorem inv_init : Inv [] {} where
  count := rfl
  done_le := Nat.le_refl _
  synced := fun _ e h0 he => absurd he (Nat.not_le.mpr h0)
  waiting := by simp
  point := trivial
  due := Or.inl (Nat.le_refl _)

theorem inv_run {es : List FlushEvent} {s : FlushState} (h : FlushState.run {} es = some s) :
    Inv es s := by
  induction es using List.reverseRecOn generalizing s with
  | nil =>
    cases h
    exact inv_init
  | append_singleton es x ih =>
    simp only [FlushState.run, List.foldlM_append, List.foldlM_cons, List.foldlM_nil] at h
    cases hmid : FlushState.run {} es with
    | none =>
      rw [FlushState.run] at hmid
      simp [hmid] at h
    | some mid =>
      have hstep : mid.step x = some s := by
        rw [FlushState.run] at hmid
        simpa [hmid] using h
      exact (ih hmid).step hstep

/-- Before the shutdown a committer goes on only when an `fsync` that began after its request is
done, and a request that is not served has the flag set or is about to be published; the flusher
does not sleep through a set flag. -/
theorem groupCommit {es : List FlushEvent} {s : FlushState} (hrun : FlushState.run {} es = some s)
    (hstop : s.stop = false) :
    (∀ my s', s.step (.release my) = some s' → Synced es my) ∧
    (∀ e ≤ s.requestEpoch, s.doneEpoch < e →
      s.pending ∨ ∃ target, s.flusher.taken = some target ∧ e ≤ target) ∧
    ∀ woken, s.flusher = .asleep woken → s.pending → woken := by
  have h := inv_run hrun
  refine ⟨fun my s' hrel => ?_, fun e he hdone => ?_, fun woken hp => ?_⟩
  · simp only [FlushState.step] at hrel
    split_ifs at hrel with hcond
    obtain ⟨hmem, hle⟩ := hcond
    exact h.synced hstop my (h.waiting my hmem) (hle.resolve_left (by simp [hstop]))
  · obtain hd | hd | ⟨t, ht, hd⟩ := h.due
    · omega
    · exact Or.inl hd
    · exact Or.inr ⟨t, ht, Nat.le_trans he hd⟩
  · have hpoint := h.point
    rwa [hp] at hpoint

/-- Two committers and a plain append, the second committer inside of the window. -/
def merged : List FlushEvent :=
  [.write, .syncAppend, .check 0 0, .syncForce, .debounce false 10 10, .syncForce,
    .debounce true 20 20, .fsyncBegin, .fsyncEnd, .publish]

theorem groupCommit_merged : Synced merged 2 := by
  have hrun : ∃ s, FlushState.run {} merged = some s ∧ s.stop = false ∧
      s.step (.release 2) = some { s with waiting := s.waiting.erase 2 } := by
    refine ⟨_, rfl, rfl, rfl⟩
  obtain ⟨s, hs, hstop, hrel⟩ := hrun
  exact (groupCommit hs hstop).1 2 _ hrel

end ChonKV.GroupCommit
