import Yjkos.SchedSwitch

/-!
# Mutual exclusion and hand-off

The kernel together with what the threads know: who holds which mutex, which
thread is suspended inside a call of `__mutex_lock`, and which of these calls
have returned.  A waiter whose `waitingmutex` has been cleared was given the
mutex by the thread which picked it.
-/

namespace Yjkos
namespace Sched

open scoped List

/-- A return of `__mutex_lock`, and whether the caller held the mutex. -/
structure Return where
  thread : ℕ
  mutex : ℕ
  held : Bool
deriving Repr, DecidableEq

structure Locks where
  kernel : Kernel
  holders : ℕ → List ℕ
  lockCall : ℕ → Option ℕ
  returned : List Return

def Locks.acquire (s : Locks) (t m : ℕ) : Locks :=
  { s with holders := Function.update s.holders m (t :: s.holders m) }

def Locks.release (s : Locks) (t m : ℕ) : Locks :=
  { s with holders := Function.update s.holders m ((s.holders m).erase t) }

def Locks.returns (s : Locks) (t m : ℕ) : Locks :=
  { s with returned := ⟨t, m, t ∈ s.holders m⟩ :: s.returned }

/-- The thread is switched away from inside `__mutex_lock`. -/
def Locks.suspend (s : Locks) (t m : ℕ) : Locks :=
  { s with lockCall := Function.update s.lockCall t (some m) }

/-- A waiter which has been picked holds the mutex it waited for. -/
def Locks.handOver (s : Locks) (kernel : Kernel) : Locks :=
  match (s.kernel.thread kernel.running).waitingmutex with
  | some m => s.acquire kernel.running m
  | none => s

/-- The picked thread goes on behind its own `thread_switch`.  If that was
called from `__mutex_lock`, this call now returns. -/
def Locks.resume (s : Locks) (kernel : Kernel) : Except Fault Locks :=
  if kernel.running = s.kernel.running then .ok { s with kernel := kernel }
  else do
    let s := { s.handOver kernel with kernel := kernel }
    match s.lockCall kernel.running with
    | none => .ok s
    | some m =>
        cAssert (kernel.mutex m).locked "self->locked"
        let s := s.returns kernel.running m
        .ok { s with
          lockCall := Function.update s.lockCall kernel.running none }

def mutexLock (s : Locks) (m : ℕ) (loc : SourceLocation) :
    Except Fault Locks :=
  match mutexTryLock s.kernel m loc with
  | (true, kernel) =>
      .ok ((Locks.acquire { s with kernel := kernel } kernel.running
        m).returns kernel.running m)
  | (false, kernel) => do
      let kernel' ← schedWaitMutex kernel m loc
      if kernel'.spinning then .ok { s with kernel := kernel' }
      else (s.suspend kernel.running m).resume kernel'

inductive LockOp where
  | lock (m : ℕ) (loc : SourceLocation)
  | tryLock (m : ℕ) (loc : SourceLocation)
  | unlock (m : ℕ)
  | queue (t : ℕ) (priority : ℤ) (allocOk : Bool)
  | schedule (allocOk : Bool)

def lockStep (s : Locks) : LockOp → Except Fault Locks
  | .lock m loc => mutexLock s m loc
  | .tryLock m loc =>
      match mutexTryLock s.kernel m loc with
      | (true, kernel) =>
          .ok (Locks.acquire { s with kernel := kernel } kernel.running m)
      | (false, kernel) => .ok { s with kernel := kernel }
  | .unlock m =>
      .ok (Locks.release { s with kernel := mutexUnlock s.kernel m }
        s.kernel.running m)
  | .queue t priority allocOk =>
      .ok { s with kernel := queueNew s.kernel allocOk t priority }
  | .schedule allocOk => do
      let kernel ← schedSchedule s.kernel allocOk
      s.resume kernel

/-- A mutex is unlocked by a thread which holds it, a new thread is no
thread the scheduler knows, and nothing happens any more once the processor
spins. -/
def LockAdmits (s : Locks) (op : LockOp) : Prop :=
  s.kernel.spinning = false ∧
    match op with
    | .unlock m => s.kernel.running ∈ s.holders m
    | .queue t _ _ => t ∉ s.kernel.live
    | _ => True

structure LockStart (s : Locks) : Prop where
  kernel : Start s.kernel
  thread : ∀ t, (s.kernel.thread t).waitingmutex = none ∧
    (s.kernel.thread t).shutdown = false
  mutex : ∀ m, (s.kernel.mutex m).locked = false
  holders : ∀ m, s.holders m = []
  lockCall : ∀ t, s.lockCall t = none
  returned : s.returned = []

/-- The mutex is free, or one thread holds it. -/
def Locks.Held (s : Locks) (m : ℕ) : Prop :=
  ((s.kernel.mutex m).locked = false ∧ s.holders m = []) ∨
    ((s.kernel.mutex m).locked = true ∧ ∃ t, s.holders m = [t])

structure Sound (s : Locks) : Prop where
  waits : Waits s.kernel
  held : ∀ m, s.Held m
  calls : ∀ t m, s.lockCall t = some m →
    (s.kernel.thread t).waitingmutex = some m
  returned : ∀ r ∈ s.returned, r.held = true

section Locks

variable {s s' : Locks}

theorem held_acquire (kernel : Kernel) {t m : ℕ} {mutex : Mutex}
    (h : ∀ m, s.Held m) (hfree : (s.kernel.mutex m).locked = false)
    (hlocked : mutex.locked = true)
    (hmutex : kernel.mutex = Function.update s.kernel.mutex m mutex) :
    ∀ n, Locks.Held { s.acquire t m with kernel := kernel } n := by
  have hempty : s.holders m = [] := by
    rcases h m with ⟨-, hempty⟩ | ⟨hlocked, -⟩
    · exact hempty
    · simp [hfree] at hlocked
  intro n
  unfold Locks.Held
  simp only [Locks.acquire, hmutex]
  by_cases hn : n = m
  · subst hn
    simp [hempty, hlocked]
  · simp only [Function.update_of_ne hn]
    exact h n

theorem held_handOver {kernel : Kernel} {parked : Option ℕ}
    (h : ∀ m, s.Held m) (hswitch : Switch s.kernel kernel parked) :
    ∀ m, Locks.Held { s.handOver kernel with kernel := kernel } m := by
  unfold Locks.handOver
  rcases hswitch.mutex with ⟨m, loc, hwaiting, hfree, hmutex⟩ |
    ⟨hnone, hmutex⟩
  · rw [hwaiting]
    exact held_acquire _ h hfree rfl hmutex
  · rw [hnone]
    intro m
    unfold Locks.Held
    simp only [hmutex]
    exact h m

theorem mem_handOver {kernel : Kernel} {m : ℕ}
    (hwaiting : (s.kernel.thread kernel.running).waitingmutex = some m) :
    kernel.running ∈ (s.handOver kernel).holders m := by
  simp [Locks.handOver, hwaiting, Locks.acquire]

@[simp] theorem handOver_lockCall (s : Locks) (kernel : Kernel) :
    (s.handOver kernel).lockCall = s.lockCall := by
  unfold Locks.handOver
  split <;> rfl

@[simp] theorem handOver_returned (s : Locks) (kernel : Kernel) :
    (s.handOver kernel).returned = s.returned := by
  unfold Locks.handOver
  split <;> rfl

/-- A switch, with the old thread suspended for the mutex `parked`. -/
theorem resume_sound {kernel : Kernel} (parked : Option ℕ)
    (hwaits : Waits s.kernel) (hheld : ∀ m, s.Held m)
    (hreturned : ∀ r ∈ s.returned, r.held = true)
    (hcalls : ∀ t m, s.lockCall t = some m →
      if t = s.kernel.running then parked = some m
      else (s.kernel.thread t).waitingmutex = some m)
    (hswitch : Switch s.kernel kernel parked)
    (hstep : s.resume kernel = .ok s') : Sound s' := by
  have hwaits' := hswitch.waits hwaits
  have hheld' := held_handOver hheld hswitch
  have hothers : ∀ t m, s.lockCall t = some m → t ≠ kernel.running →
      (kernel.thread t).waitingmutex = some m := by
    intro t m hcall ht
    have hcall' := hcalls t m hcall
    rw [hswitch.waitingmutex, if_neg ht]
    split at hcall' <;> simp_all
  unfold Locks.resume at hstep
  rw [if_neg hswitch.running] at hstep
  simp only [handOver_lockCall] at hstep
  cases hcall : s.lockCall kernel.running with
  | none =>
      rw [hcall] at hstep
      cases hstep
      refine ⟨hwaits', hheld', ?_, ?_⟩
      · intro t m ht
        apply hothers t m ht
        rintro rfl
        simp [hcall] at ht
      · intro r hr
        rw [handOver_returned] at hr
        exact hreturned r hr
  | some m =>
      rw [hcall] at hstep
      obtain ⟨_, -, hstep⟩ := bind_eq_ok hstep
      cases hstep
      have hwaiting := hcalls kernel.running m hcall
      rw [if_neg hswitch.running] at hwaiting
      refine ⟨hwaits', hheld', ?_, ?_⟩
      · intro t n ht
        simp only [Locks.returns] at ht
        by_cases htn : t = kernel.running
        · simp [htn] at ht
        · rw [Function.update_of_ne htn] at ht
          exact hothers t n ht htn
      · intro r hr
        simp only [Locks.returns, handOver_returned, List.mem_cons] at hr
        rcases hr with rfl | hr
        · simpa using mem_handOver hwaiting
        · exact hreturned r hr

theorem Sound.calls_running (h : Sound s) {t m : ℕ}
    (hcall : s.lockCall t = some m) : t ≠ s.kernel.running := by
  rintro rfl
  have hwaiting := h.calls _ m hcall
  simp [h.waits.running_free] at hwaiting

theorem schedule_sound {allocOk : Bool} (h : Sound s)
    (hstep : lockStep s (.schedule allocOk) = .ok s') : Sound s' := by
  obtain ⟨kernel, hschedule, hstep⟩ := bind_eq_ok hstep
  rcases schedSchedule_cases h.waits hschedule with hstays | hswitch
  · unfold Locks.resume at hstep
    rw [if_pos hstays.running] at hstep
    cases hstep
    refine ⟨hstays.waits h.waits, ?_, ?_, h.returned⟩
    · intro m
      unfold Locks.Held
      simp only [hstays.mutex]
      exact h.held m
    · simp only [hstays.thread]
      exact h.calls
  · refine resume_sound _ h.waits h.held h.returned ?_ hswitch hstep
    intro t m hcall
    rw [if_neg (h.calls_running hcall)]
    exact h.calls t m hcall

theorem lock_sound {m : ℕ} {loc : SourceLocation} (h : Sound s)
    (hrun : s.kernel.spinning = false)
    (hstep : mutexLock s m loc = .ok s') : Sound s' := by
  unfold mutexLock mutexTryLock at hstep
  by_cases hlocked : (s.kernel.mutex m).locked = true
  · rw [if_pos hlocked] at hstep
    obtain ⟨kernel, hwait, hstep⟩ := bind_eq_ok hstep
    rcases schedWaitMutex_cases h.waits hwait with
      ⟨hspin, hwaits, hmutex, hthread⟩ | hswitch
    · rw [if_pos hspin] at hstep
      cases hstep
      refine ⟨hwaits, ?_, ?_, h.returned⟩
      · intro n
        unfold Locks.Held
        simp only [hmutex]
        exact h.held n
      · intro t n hcall
        rw [hthread]
        exact h.calls t n hcall
    · -- the call goes on when the thread is switched to again
      have hspin : kernel.spinning = false := hswitch.spinning.trans hrun
      simp only [hspin, Bool.false_eq_true, if_false] at hstep
      refine resume_sound (s := s.suspend s.kernel.running m)
        (some m) h.waits h.held h.returned ?_ hswitch hstep
      intro t n hcall
      change Function.update s.lockCall s.kernel.running (some m) t =
        some n at hcall
      change if t = s.kernel.running then some m = some n
        else (s.kernel.thread t).waitingmutex = some n
      by_cases ht : t = s.kernel.running
      · rw [if_pos ht]
        simpa [ht] using hcall
      · rw [if_neg ht]
        simp only [Function.update_of_ne ht] at hcall
        exact h.calls t n hcall
  · rw [if_neg hlocked] at hstep
    cases hstep
    have hfree : (s.kernel.mutex m).locked = false := by simpa using hlocked
    refine ⟨?_, ?_, h.calls, ?_⟩
    · exact ⟨h.waits.distinct, h.waits.known, h.waits.sorted,
        h.waits.shutdown, h.waits.waiting_iff⟩
    · exact held_acquire (s := s)
        (s.kernel.setMutex m ⟨loc, true⟩) h.held hfree rfl rfl
    · intro r hr
      simp only [Locks.returns, Locks.acquire, List.mem_cons] at hr
      rcases hr with rfl | hr
      · simp
      · exact h.returned r hr

theorem tryLock_sound {m : ℕ} {loc : SourceLocation} (h : Sound s)
    (hstep : lockStep s (.tryLock m loc) = .ok s') : Sound s' := by
  simp only [lockStep, mutexTryLock] at hstep
  by_cases hlocked : (s.kernel.mutex m).locked = true
  · rw [if_pos hlocked] at hstep
    cases hstep
    exact h
  · rw [if_neg hlocked] at hstep
    cases hstep
    have hfree : (s.kernel.mutex m).locked = false := by simpa using hlocked
    refine ⟨?_, ?_, h.calls, h.returned⟩
    · exact ⟨h.waits.distinct, h.waits.known, h.waits.sorted,
        h.waits.shutdown, h.waits.waiting_iff⟩
    · exact held_acquire (s := s)
        (s.kernel.setMutex m ⟨loc, true⟩) h.held hfree rfl rfl

theorem unlock_sound {m : ℕ} (h : Sound s)
    (hholds : s.kernel.running ∈ s.holders m)
    (hstep : lockStep s (.unlock m) = .ok s') : Sound s' := by
  cases hstep
  refine ⟨?_, ?_, h.calls, h.returned⟩
  · exact ⟨h.waits.distinct, h.waits.known, h.waits.sorted,
      h.waits.shutdown, h.waits.waiting_iff⟩
  · intro n
    unfold Locks.Held
    by_cases hn : n = m
    · subst hn
      rcases h.held n with ⟨-, hempty⟩ | ⟨-, t, hone⟩
      · simp [hempty] at hholds
      · obtain rfl : s.kernel.running = t := by simpa [hone] using hholds
        simp [mutexUnlock, Kernel.setMutex, Locks.release, hone]
    · simp only [mutexUnlock, Kernel.setMutex, Locks.release,
        Function.update_of_ne hn]
      exact h.held n

theorem waits_queueNew {s : Kernel} (allocOk : Bool) {t : ℕ} (priority : ℤ)
    (h : Waits s) (ht : t ∉ s.live) :
    Waits (queueNew s allocOk t priority) ∧
      (queueNew s allocOk t priority).mutex = s.mutex ∧
      ∀ u, ((queueNew s allocOk t priority).thread u).waitingmutex =
        (s.thread u).waitingmutex := by
  have hnot : t ∉ s.running :: s.scheduled := fun hmem => ht (h.known hmem)
  have hnone : (s.thread t).waitingmutex = none := by
    by_contra hsome
    have hmem := (h.waiting_iff t).mpr hsome
    exact hnot (List.mem_cons_of_mem _ (List.mem_append_left _ hmem))
  let s₀ := s.setThread t ⟨none, SourceLocation.zero, priority, false⟩
  have hwaiting : ∀ u, (s₀.thread u).waitingmutex =
      (s.thread u).waitingmutex := by
    intro u
    by_cases hu : u = t
    · simp [s₀, Kernel.setThread, hu, hnone]
    · simp [s₀, Kernel.setThread, hu]
  have h₀ : Waits s₀ := by
    refine ⟨h.distinct, h.known, h.sorted, ?_, ?_⟩
    · intro u
      by_cases hu : u = t
      · simp [s₀, Kernel.setThread, hu]
      · simp [s₀, Kernel.setThread, hu, h.shutdown]
    · intro u
      rw [hwaiting u]
      exact h.waiting_iff u
  unfold queueNew
  rcases schedQueue_cases allocOk h₀.sorted t with
    ⟨hfail, -⟩ | ⟨s', hqueue, -, hsame, hqueued, hsorted⟩
  · simp only [s₀] at hfail
    simp only [hfail]
    exact ⟨h₀, rfl, hwaiting⟩
  · have hscheduled := scheduled_of_queued hsame hqueued
    unfold Kernel.SameButQueues at hsame
    have hplaces : s'.running :: s'.scheduled ~
        t :: s.running :: s.scheduled := by
      rw [show s'.running = s.running by rw [hsame]; rfl]
      exact (hscheduled.cons s.running).trans (.swap _ _ _)
    have hlive : s'.live = s.live := by rw [hsame]; rfl
    have hthread : s'.thread = s₀.thread := by rw [hsame]
    simp only [s₀] at hqueue
    simp only [hqueue]
    refine ⟨⟨?_, ?_, hsorted, ?_, ?_⟩, by rw [hsame]; rfl, ?_⟩
    · exact hplaces.nodup_iff.mpr (List.nodup_cons.mpr ⟨hnot, h.distinct⟩)
    · rw [hlive]
      exact List.Subset.trans hplaces.subset (List.cons_subset_cons t h.known)
    · rw [hthread]
      exact h₀.shutdown
    · rw [show s'.waiting = s.waiting by rw [hsame]; rfl, hthread]
      exact h₀.waiting_iff
    · rw [hthread]
      exact hwaiting

theorem queue_sound {t : ℕ} {priority : ℤ} {allocOk : Bool} (h : Sound s)
    (ht : t ∉ s.kernel.live)
    (hstep : lockStep s (.queue t priority allocOk) = .ok s') :
    Sound s' := by
  cases hstep
  obtain ⟨hwaits, hmutex, hthread⟩ := waits_queueNew
    allocOk priority h.waits ht
  refine ⟨hwaits, ?_, ?_, h.returned⟩
  · intro m
    unfold Locks.Held
    simp only [hmutex]
    exact h.held m
  · intro u m hcall
    rw [hthread]
    exact h.calls u m hcall

theorem lockStep_sound {op : LockOp} (h : Sound s)
    (hadmits : LockAdmits s op) (hstep : lockStep s op = .ok s') :
    Sound s' := by
  cases op with
  | lock m loc => exact lock_sound h hadmits.1 hstep
  | tryLock m loc => exact tryLock_sound h hstep
  | unlock m => exact unlock_sound h hadmits.2 hstep
  | queue t priority allocOk => exact queue_sound h hadmits.2 hstep
  | schedule allocOk => exact schedule_sound h hstep

theorem LockStart.sound (h : LockStart s) : Sound s := by
  have hplaced := h.kernel.placed
  refine ⟨⟨?_, ?_, hplaced.sorted, fun t => (h.thread t).2, ?_⟩, ?_, ?_, ?_⟩
  · exact hplaced.accounts.nodup_iff.mpr hplaced.nodup
  · exact hplaced.accounts.subset
  · intro t
    simp [h.kernel.waiting, h.thread t]
  · intro m
    exact Or.inl ⟨h.mutex m, h.holders m⟩
  · simp [h.lockCall]
  · simp [h.returned]

/-! ## Progress -/

theorem pickFromWaitlist_ok {s : Kernel} (waiters : List ℕ)
    (h : ∀ t ∈ waiters, (s.thread t).waitingmutex ≠ none) :
    ∃ r, pickFromWaitlist waiters s = .ok r := by
  induction waiters with
  | nil => exact ⟨_, rfl⟩
  | cons t rest ih =>
      unfold pickFromWaitlist
      cases hwaiting : (s.thread t).waitingmutex with
      | none => exact absurd hwaiting (h t (by simp))
      | some m =>
          simp only [mutexTryLock]
          by_cases hlocked : (s.mutex m).locked = true
          · rw [if_pos hlocked]
            exact ih fun u hu => h u (List.mem_cons_of_mem t hu)
          · rw [if_neg hlocked]
            exact ⟨_, rfl⟩

theorem Waits.pickNextTask_ok {s : Kernel} (h : Waits s) :
    ∃ r s', pickNextTask s = .ok (r, s') ∧ pickOnce s = .ok (r, s') := by
  obtain ⟨⟨waiter, s₁⟩, hwait⟩ := pickFromWaitlist_ok
    (s := s) s.waiting (fun t ht => (h.waiting_iff t).mp ht)
  have honce : ∃ r s', pickOnce s = .ok (r, s') := by
    unfold pickOnce pickNextTaskFromMutexWaitlist
    rw [hwait]
    cases waiter with
    | some t => exact ⟨_, _, rfl⟩
    | none =>
        cases hqueue : pickNextQueue s₁ with
        | mk priority s₂ =>
            cases priority with
            | none => exact ⟨none, s₂, by simp [hqueue]⟩
            | some priority => exact ⟨_, _, by simp [hqueue]; rfl⟩
  obtain ⟨r, s', honce⟩ := honce
  exact ⟨r, s', by rw [pickNextTask_eq h.shutdown, honce], honce⟩

theorem schedSchedule_ok {s : Kernel} (h : Waits s) (allocOk : Bool) :
    ∃ s', schedSchedule s allocOk = .ok s' := by
  obtain ⟨r, s₁, hpick, honce⟩ := h.pickNextTask_ok
  unfold schedSchedule
  rw [hpick]
  cases r with
  | none => exact ⟨_, rfl⟩
  | some next =>
      have hpicked := h.picked honce
      have hne := hpicked.next_ne h
      rw [← hpicked.running] at hne
      exact ⟨_, by simp [cAssert, hne]; rfl⟩

theorem schedWaitMutex_ok {s : Kernel} {m : ℕ} (h : Waits s)
    (hlocked : (s.mutex m).locked = true) (loc : SourceLocation) :
    ∃ s', schedWaitMutex s m loc = .ok s' := by
  have h₀ := h.setLocksource loc
  obtain ⟨r, s₁, hpick, honce⟩ := h₀.pickNextTask_ok
  unfold schedWaitMutex
  simp only [hlocked, cAssert, if_true]
  cases r with
  | none => exact ⟨_, by simp [hpick]; rfl⟩
  | some next =>
      have hpicked := h₀.picked honce
      have hne := hpicked.next_ne h₀
      rw [← hpicked.running] at hne
      have hfree : (s₁.thread s₁.running).waitingmutex = none := by
        rw [hpicked.waitingmutex, if_neg hne.symm, hpicked.running]
        exact h₀.running_free
      exact ⟨_, by simp [hpick, hne, hfree]; rfl⟩

theorem resume_ok {s : Locks} {kernel : Kernel} {parked : Option ℕ}
    (hheld : ∀ m, s.Held m) (hswitch : Switch s.kernel kernel parked)
    (hcalls : ∀ m, s.lockCall kernel.running = some m →
      (s.kernel.thread kernel.running).waitingmutex = some m) :
    ∃ s', s.resume kernel = .ok s' := by
  unfold Locks.resume
  rw [if_neg hswitch.running]
  simp only [handOver_lockCall]
  cases hcall : s.lockCall kernel.running with
  | none => exact ⟨_, rfl⟩
  | some m =>
      have hlocked : (kernel.mutex m).locked = true := by
        rcases held_handOver hheld hswitch m with ⟨-, hempty⟩ | ⟨hlocked, -⟩
        · have hmem := mem_handOver (hcalls m hcall)
          simp only at hempty
          simp [hempty] at hmem
        · exact hlocked
      exact ⟨_, by simp [cAssert, hlocked]; rfl⟩

/-- No assertion of the scheduler and of `__mutex_lock` fails. -/
theorem lockStep_ok {s : Locks} (h : Sound s) (hrun : s.kernel.spinning = false)
    (op : LockOp) : ∃ s', lockStep s op = .ok s' := by
  cases op with
  | lock m loc =>
      simp only [lockStep, mutexLock, mutexTryLock]
      by_cases hlocked : (s.kernel.mutex m).locked = true
      · rw [if_pos hlocked]
        obtain ⟨kernel, hwait⟩ := schedWaitMutex_ok h.waits hlocked loc
        simp only [hwait]
        rcases schedWaitMutex_cases h.waits hwait with ⟨hspin, -⟩ | hswitch
        · exact ⟨_, by simp [hspin]; rfl⟩
        · have hgo : kernel.spinning = false := hswitch.spinning.trans hrun
          have hresume := resume_ok (s := s.suspend s.kernel.running m)
            h.held hswitch (by
              intro n hcall
              change Function.update s.lockCall s.kernel.running (some m)
                kernel.running = some n at hcall
              rw [Function.update_of_ne hswitch.running] at hcall
              exact h.calls _ n hcall)
          simpa [hgo] using hresume
      · rw [if_neg hlocked]
        exact ⟨_, rfl⟩
  | tryLock m loc =>
      simp only [lockStep]
      split <;> exact ⟨_, rfl⟩
  | unlock m => exact ⟨_, rfl⟩
  | queue t priority allocOk => exact ⟨_, rfl⟩
  | schedule allocOk =>
      obtain ⟨kernel, hschedule⟩ := schedSchedule_ok h.waits allocOk
      simp only [lockStep, hschedule]
      rcases schedSchedule_cases h.waits hschedule with hstays | hswitch
      · exact ⟨_, by simp [Locks.resume, hstays.running]; rfl⟩
      · exact resume_ok h.held hswitch fun m hcall => h.calls _ m hcall

/-! ## Every run -/

/-- Mutual exclusion, the wait list, and the returns of `__mutex_lock`, in
every reachable state.  No step from there meets a failing assertion. -/
theorem mutex_exclusion
    (hreach : TransitionRun.Reachable LockStart LockAdmits lockStep s) :
    (∀ m, (s.holders m).length ≤ 1 ∧
      ((s.kernel.mutex m).locked = true ↔ ∃ t, t ∈ s.holders m)) ∧
    (∀ t, t ∈ s.kernel.waiting ↔
      (s.kernel.thread t).waitingmutex ≠ none) ∧
    (∀ r ∈ s.returned, r.held = true) ∧
    (s.kernel.spinning = false → ∀ op, ∃ s', lockStep s op = .ok s') := by
  have hsound : Sound s := by
    apply hreach.invariant
    · exact fun s hstart => hstart.sound
    · exact fun s op s' h hadmits hstep => lockStep_sound h hadmits hstep
  refine ⟨?_, hsound.waits.waiting_iff, hsound.returned,
    fun hrun op => lockStep_ok hsound hrun op⟩
  intro m
  rcases hsound.held m with ⟨hfree, hempty⟩ | ⟨hlocked, t, hone⟩
  · simp [hfree, hempty]
  · simp [hlocked, hone]

end Locks

/-- The boot thread takes mutex 7, thread 1 waits for it, and is handed the
mutex when the boot thread has unlocked it. -/
theorem mutex_exclusion_handed_over :
    ∃ s, TransitionRun.Reachable LockStart LockAdmits lockStep s ∧
      s.returned = [⟨1, 7, true⟩, ⟨0, 7, true⟩] ∧ s.holders 7 = [1] ∧
      (∀ m, (s.holders m).length ≤ 1 ∧
        ((s.kernel.mutex m).locked = true ↔ ∃ t, t ∈ s.holders m)) ∧
      (∀ t, t ∈ s.kernel.waiting ↔
        (s.kernel.thread t).waitingmutex ≠ none) ∧
      (∀ r ∈ s.returned, r.held = true) ∧
      (s.kernel.spinning = false → ∀ op, ∃ s', lockStep s op = .ok s') := by
  have hreach : TransitionRun.Reachable LockStart LockAdmits lockStep
      ⟨bootKernel, fun _ => [], fun _ => none, []⟩ := .start
    ⟨start_bootKernel, fun _ => ⟨rfl, rfl⟩, fun _ => rfl, fun _ => rfl,
      fun _ => rfl, rfl⟩
  have hreach := hreach.next (a := .lock 7 SourceLocation.zero)
    ⟨rfl, by trivial⟩ rfl
  have hreach := hreach.next (a := .queue 1 0 true)
    ⟨rfl, by show 1 ∉ [0]; decide⟩ rfl
  have hreach := hreach.next (a := .schedule true) ⟨rfl, by trivial⟩ rfl
  -- the first queue is empty, so this one only resets the opportunities
  have hreach := hreach.next (a := .schedule true) ⟨rfl, by trivial⟩ rfl
  have hreach := hreach.next (a := .lock 7 SourceLocation.zero)
    ⟨rfl, by trivial⟩ rfl
  have hreach := hreach.next (a := .unlock 7)
    ⟨rfl, by show 0 ∈ [0]; decide⟩ rfl
  have hreach := hreach.next (a := .schedule true) ⟨rfl, by trivial⟩ rfl
  exact ⟨_, hreach, by decide +kernel, by decide +kernel,
    mutex_exclusion hreach⟩

end Sched
end Yjkos
