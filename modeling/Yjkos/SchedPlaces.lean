import Yjkos.SchedPick
import Yjkos.TransitionRun

/-!
# Every thread in one place

A live thread runs, or is a member of a priority queue, or waits for a
mutex.  The running thread and the scheduled threads together are a
permutation of the live threads, as long as the running thread finds a queue
whenever the scheduler switches away from it.
-/

namespace Yjkos
namespace Sched

open scoped List

/-! ## Taking threads out -/

section Taking

variable {s s' : Kernel}

/-- What `pick_next_task` leaves alone. -/
structure Kernel.Frame (s s' : Kernel) : Prop where
  running : s'.running = s.running
  spinning : s'.spinning = s.spinning
  priorities : s'.queues.map SchedQueue.priority =
    s.queues.map SchedQueue.priority
  threads : ∀ t, (s'.thread t).priority = (s.thread t).priority

theorem Kernel.Frame.trans {s'' : Kernel} (h : s.Frame s')
    (h' : s'.Frame s'') : s.Frame s'' :=
  ⟨h'.running.trans h.running, h'.spinning.trans h.spinning,
    h'.priorities.trans h.priorities,
    fun t => (h'.threads t).trans (h.threads t)⟩

theorem Kernel.Frame.sorted (h : s.Frame s') (hsorted : Sorted s.queues) :
    Sorted s'.queues := by
  unfold Sorted
  rw [h.priorities]
  exact hsorted

theorem Kernel.Frame.hasQueue_iff (h : s.Frame s') {priority : ℤ} :
    s'.HasQueue priority ↔ s.HasQueue priority := by
  unfold Kernel.HasQueue
  rw [h.priorities]

theorem frame_threadDelete (s : Kernel) (t : ℕ) :
    s.Frame (threadDelete s t) :=
  ⟨rfl, rfl, rfl, fun _ => rfl⟩

theorem frame_of_picks (h : Picks s s') :
    s.Frame s' ∧ s'.waiting = s.waiting ∧ s'.live = s.live := by
  have hsame := h.same
  unfold Kernel.SameButQueues at hsame
  refine ⟨⟨?_, ?_, h.priorities, ?_⟩, ?_, ?_⟩
  · rw [hsame]
  · rw [hsame]
  · intro t
    rw [hsame]
  · rw [hsame]
  · rw [hsame]

theorem frame_handOff (s : Kernel) (t m : ℕ) (mutex : Mutex) :
    s.Frame (handOff (s.setMutex m mutex) t m) := by
  have hpriority : ∀ u, ((handOff (s.setMutex m mutex) t m).thread
      u).priority = (s.thread u).priority := by
    intro u
    by_cases hu : u = t
    · subst hu
      simp only [handOff, Kernel.setThread, Function.update_self]
      split <;> rfl
    · simp only [handOff, Kernel.setThread, Function.update_of_ne hu]
      split <;> rfl
  refine ⟨?_, ?_, ?_, hpriority⟩ <;>
  · simp only [handOff, Kernel.setThread]
    split <;> rfl

theorem handOff_lists (s : Kernel) (t m : ℕ) (mutex : Mutex) :
    (handOff (s.setMutex m mutex) t m).waiting = s.waiting.erase t ∧
      (handOff (s.setMutex m mutex) t m).queues = s.queues ∧
      (handOff (s.setMutex m mutex) t m).live = s.live := by
  refine ⟨?_, ?_, ?_⟩ <;>
  · simp only [handOff, Kernel.setThread]
    split <;> rfl

theorem pickOnce_spec {r : Option ℕ} (h : pickOnce s = .ok (r, s')) :
    s.Frame s' ∧ s'.live = s.live ∧
      s.scheduled ~ r.toList ++ s'.scheduled := by
  rcases pickOnce_cases h with ⟨t, m, rfl, hmem, -, -, rfl⟩ |
    ⟨hpicks, hqueued⟩
  · obtain ⟨hwaiting, hqueues, hlive⟩ := handOff_lists s t m
      ⟨(s.thread t).desiredLocksource, true⟩
    refine ⟨frame_handOff s t m _, hlive, ?_⟩
    rw [Kernel.scheduled, Kernel.scheduled, hwaiting, hqueues]
    exact (List.perm_cons_erase hmem).append_right _
  · obtain ⟨hframe, hwaiting, hlive⟩ := frame_of_picks hpicks
    refine ⟨hframe, hlive, ?_⟩
    rw [scheduled_eq, scheduled_eq, hwaiting]
    calc
      s.waiting ++ s.queued ~ s.waiting ++ (r.toList ++ s'.queued) :=
        hqueued.append_left s.waiting
      _ ~ r.toList ++ (s.waiting ++ s'.queued) := by
        rw [← List.append_assoc, ← List.append_assoc]
        exact List.perm_append_comm.append_right s'.queued

/-- The threads of a list and the scheduled ones are the live ones. -/
def Kernel.Accounts (s : Kernel) (extra : List ℕ) : Prop :=
  extra ++ s.scheduled ~ s.live

theorem accounts_threadDelete {t : ℕ} {extra : List ℕ}
    (h : s.Accounts (t :: extra)) : (threadDelete s t).Accounts extra := by
  unfold Kernel.Accounts at h ⊢
  have hmem : t ∈ s.live := h.subset (by simp)
  have hcons : t :: (extra ++ s.scheduled) ~ t :: s.live.erase t :=
    h.trans (List.perm_cons_erase hmem)
  exact (List.perm_cons t).mp hcons

theorem accounts_pickOnce {r : Option ℕ} {extra : List ℕ}
    (h : pickOnce s = .ok (r, s')) (hacc : s.Accounts extra) :
    s'.Accounts (r.toList ++ extra) := by
  obtain ⟨-, hlive, hperm⟩ := pickOnce_spec h
  unfold Kernel.Accounts at hacc ⊢
  rw [hlive]
  calc
    r.toList ++ extra ++ s'.scheduled ~
        extra ++ r.toList ++ s'.scheduled :=
      List.perm_append_comm.append_right s'.scheduled
    _ = extra ++ (r.toList ++ s'.scheduled) := List.append_assoc _ _ _
    _ ~ extra ++ s.scheduled := hperm.symm.append_left extra
    _ ~ s.live := hacc

/-- Picking, over all turns of the loop: the threads which leave without
being picked have been deleted. -/
theorem pickLoop_spec {fuel : ℕ} {r : Option ℕ}
    (h : pickLoop fuel s = .ok (r, s')) :
    s.Frame s' ∧ s'.live <+ s.live ∧ ∀ extra, s.Accounts extra →
      s'.Accounts (r.toList ++ extra) := by
  induction fuel generalizing s with
  | zero => contradiction
  | succ fuel ih =>
      obtain ⟨⟨picked, s₁⟩, honce, h⟩ := bind_eq_ok h
      obtain ⟨hframe, hlive, -⟩ := pickOnce_spec honce
      cases picked with
      | none =>
          cases h
          exact ⟨hframe, hlive ▸ .refl _,
            fun extra hacc => accounts_pickOnce honce hacc⟩
      | some t =>
          simp only at h
          split at h
          · obtain ⟨hframe', hlive', hacc'⟩ := ih h
            refine ⟨hframe.trans ((frame_threadDelete s₁ t).trans hframe'),
              hlive'.trans (hlive ▸ List.erase_sublist), ?_⟩
            intro extra hacc
            apply hacc'
            exact accounts_threadDelete (accounts_pickOnce honce hacc)
          · cases h
            exact ⟨hframe, hlive ▸ .refl _,
              fun extra hacc => accounts_pickOnce honce hacc⟩

end Taking

/-! ## Runs -/

/-- What happens on the processor.  A thread calls `sched_wait_mutex`
through `__mutex_lock` when the mutex is taken. -/
inductive Op where
  | queue (t : ℕ) (priority : ℤ) (allocOk : Bool)
  | schedule (allocOk : Bool)
  | waitMutex (m : ℕ) (locksource : SourceLocation)
  | tryLock (m : ℕ) (loc : SourceLocation)
  | unlock (m : ℕ)
  | shutDown (t : ℕ)

def step (s : Kernel) : Op → Except Fault Kernel
  | .queue t priority allocOk => .ok (queueNew s allocOk t priority)
  | .schedule allocOk => schedSchedule s allocOk
  | .waitMutex m locksource => schedWaitMutex s m locksource
  | .tryLock m loc => .ok (mutexTryLock s m loc).2
  | .unlock m => .ok (mutexUnlock s m)
  | .shutDown t =>
      .ok (s.setThread t { s.thread t with shutdown := true })

/-- A new thread is no thread the scheduler knows, and nothing happens any
more once the processor spins. -/
def Admits (s : Kernel) (op : Op) : Prop :=
  s.spinning = false ∧ ∀ t priority allocOk, op = .queue t priority allocOk →
    t ∉ s.live

/-- The state which `sched_init_boot_thread` leaves. -/
structure Start (s : Kernel) : Prop where
  queues : s.queues = []
  currentQueue : s.currentQueue = none
  waiting : s.waiting = []
  live : s.live = [s.running]
  thread : s.thread s.running = ⟨none, SourceLocation.zero, 20, false⟩
  spinning : s.spinning = false

/-- When the scheduler switches away from the running thread, that thread
has a queue to go to or there is memory for one. -/
def Requeues (s : Kernel) : Op → Prop
  | .schedule allocOk =>
      (∃ next s', pickNextTask s = .ok (some next, s')) →
        allocOk = true ∨ s.HasQueue (s.thread s.running).priority
  | _ => True

/-- How often the thread stands in one of the places a thread can be in. -/
def Kernel.occurrences (s : Kernel) (t : ℕ) : ℕ :=
  (if s.running = t then 1 else 0) + s.waiting.count t +
    (s.queues.map (fun queue => queue.threads.count t)).sum

structure Placed (s : Kernel) : Prop where
  accounts : s.Accounts [s.running]
  nodup : s.live.Nodup
  sorted : Sorted s.queues

section Runs

variable {s s' : Kernel}

theorem occurrences_eq (s : Kernel) (t : ℕ) :
    s.occurrences t = ([s.running] ++ s.scheduled).count t := by
  unfold Kernel.occurrences Kernel.scheduled
  rw [List.count_append, List.count_append, List.count_flatMap,
    List.count_singleton, ← Nat.add_assoc]
  simp [Function.comp_def]

theorem Placed.occurrences_eq_one (h : Placed s) {t : ℕ} (ht : t ∈ s.live) :
    s.occurrences t = 1 := by
  rw [occurrences_eq, h.accounts.count_eq]
  exact List.count_eq_one_of_mem h.nodup ht

theorem scheduled_of_queued {t : ℕ} (hsame : s.SameButQueues s')
    (hqueued : s'.queued ~ t :: s.queued) :
    s'.scheduled ~ t :: s.scheduled := by
  have hwaiting : s'.waiting = s.waiting := by
    unfold Kernel.SameButQueues at hsame
    rw [hsame]
  rw [scheduled_eq, scheduled_eq, hwaiting]
  exact (hqueued.append_left s.waiting).trans List.perm_middle

/-- `sched_queue` moves the first of the extra threads into a queue. -/
theorem accounts_schedQueue {allocOk : Bool} {t : ℕ} (extra : List ℕ)
    (hsorted : Sorted s.queues)
    (hroom : allocOk = true ∨ s.HasQueue (s.thread t).priority) :
    ∃ s', schedQueue s allocOk t = (.ok (), s') ∧ s.SameButQueues s' ∧
      Sorted s'.queues ∧
      (s.Accounts (t :: extra) → s'.Accounts extra) := by
  rcases schedQueue_cases allocOk hsorted t with
    ⟨-, hfail, hno⟩ | ⟨s', hqueue, -, hsame, hqueued, hsorted'⟩
  · simp [hfail, hno] at hroom
  · refine ⟨s', hqueue, hsame, hsorted', ?_⟩
    intro hacc
    have hlive : s'.live = s.live := by
      unfold Kernel.SameButQueues at hsame
      rw [hsame]
    unfold Kernel.Accounts at hacc ⊢
    rw [hlive]
    calc
      extra ++ s'.scheduled ~ extra ++ (t :: s.scheduled) :=
        (scheduled_of_queued hsame hqueued).append_left extra
      _ ~ t :: (extra ++ s.scheduled) := List.perm_middle
      _ ~ s.live := hacc

theorem pickNextTask_placed {r : Option ℕ} (h : Placed s)
    (hpick : pickNextTask s = .ok (r, s')) :
    s.Frame s' ∧ s'.Accounts (r.toList ++ [s'.running]) ∧
      s'.live.Nodup ∧ Sorted s'.queues := by
  obtain ⟨hframe, hlive, hacc⟩ := pickLoop_spec hpick
  refine ⟨hframe, ?_, hlive.nodup h.nodup, hframe.sorted h.sorted⟩
  rw [hframe.running]
  exact hacc _ h.accounts

theorem queueNew_placed {allocOk : Bool} {t : ℕ} {priority : ℤ}
    (h : Placed s) (ht : t ∉ s.live) :
    Placed (queueNew s allocOk t priority) := by
  unfold queueNew
  rcases schedQueue_cases allocOk
      (s := s.setThread t ⟨none, SourceLocation.zero, priority, false⟩)
      h.sorted t with
    ⟨hfail, -⟩ | ⟨s', hqueue, -, hsame, hqueued, hsorted⟩
  · simp only [hfail]
    exact ⟨h.accounts, h.nodup, h.sorted⟩
  · simp only [hqueue]
    have hscheduled : s'.scheduled ~ t :: s.scheduled :=
      scheduled_of_queued
        (s := s.setThread t ⟨none, SourceLocation.zero, priority, false⟩)
        hsame hqueued
    unfold Kernel.SameButQueues at hsame
    have hrunning : s'.running = s.running := by rw [hsame]; rfl
    have hlive : s'.live = s.live := by rw [hsame]; rfl
    refine ⟨?_, ?_, hsorted⟩
    · show [s'.running] ++ s'.scheduled ~ t :: s'.live
      rw [hrunning, hlive]
      calc
        [s.running] ++ s'.scheduled ~ [s.running] ++ (t :: s.scheduled) :=
          hscheduled.append_left _
        _ ~ t :: ([s.running] ++ s.scheduled) := List.perm_middle
        _ ~ t :: s.live := h.accounts.cons t
    · exact List.nodup_cons.mpr ⟨hlive ▸ ht, hlive ▸ h.nodup⟩

theorem schedSchedule_placed {allocOk : Bool} (h : Placed s)
    (hroom : Requeues s (.schedule allocOk))
    (hstep : schedSchedule s allocOk = .ok s') : Placed s' := by
  obtain ⟨⟨r, s₁⟩, hpick, hstep⟩ := bind_eq_ok hstep
  obtain ⟨hframe, hacc, hnodup, hsorted⟩ := pickNextTask_placed h hpick
  cases r with
  | none =>
      cases hstep
      exact ⟨hacc, hnodup, hsorted⟩
  | some next =>
      have hroom₁ : allocOk = true ∨
          s₁.HasQueue (s₁.thread s₁.running).priority := by
        rw [hframe.hasQueue_iff, hframe.threads, hframe.running]
        exact hroom ⟨next, s₁, hpick⟩
      obtain ⟨s₂, hqueue, hsame, hsorted₂, hacc₂⟩ :=
        accounts_schedQueue [next] hsorted hroom₁
      simp only [hqueue] at hstep
      obtain ⟨_, -, hstep⟩ := bind_eq_ok hstep
      cases hstep
      have hswap : s₁.Accounts (s₁.running :: [next]) :=
        (List.Perm.append_right _ (.swap _ _ _)).trans hacc
      unfold Kernel.SameButQueues at hsame
      refine ⟨hacc₂ hswap, ?_, hsorted₂⟩
      show s₂.live.Nodup
      rw [hsame]
      exact hnodup

theorem schedWaitMutex_placed {m : ℕ} {locksource : SourceLocation}
    (h : Placed s) (hstep : schedWaitMutex s m locksource = .ok s') :
    Placed s' := by
  unfold schedWaitMutex at hstep
  obtain ⟨_, -, hstep⟩ := bind_eq_ok hstep
  obtain ⟨⟨r, s₁⟩, hpick, hstep⟩ := bind_eq_ok hstep
  have hset : Placed (s.setThread s.running
      { s.thread s.running with desiredLocksource := locksource }) :=
    ⟨h.accounts, h.nodup, h.sorted⟩
  obtain ⟨-, hacc, hnodup, hsorted⟩ := pickNextTask_placed hset hpick
  cases r with
  | none =>
      cases hstep
      exact ⟨hacc, hnodup, hsorted⟩
  | some next =>
      obtain ⟨_, -, hstep⟩ := bind_eq_ok hstep
      obtain ⟨_, -, hstep⟩ := bind_eq_ok hstep
      cases hstep
      exact ⟨hacc, hnodup, hsorted⟩

theorem step_placed {op : Op} (h : Placed s) (hadmits : Admits s op)
    (hroom : Requeues s op) (hstep : step s op = .ok s') : Placed s' := by
  cases op with
  | queue t priority allocOk =>
      cases hstep
      exact queueNew_placed h (hadmits.2 t priority allocOk rfl)
  | schedule allocOk => exact schedSchedule_placed h hroom hstep
  | waitMutex m locksource => exact schedWaitMutex_placed h hstep
  | tryLock m loc =>
      cases hstep
      unfold mutexTryLock
      split <;> exact ⟨h.accounts, h.nodup, h.sorted⟩
  | unlock m =>
      cases hstep
      exact ⟨h.accounts, h.nodup, h.sorted⟩
  | shutDown t =>
      cases hstep
      exact ⟨h.accounts, h.nodup, h.sorted⟩

theorem Start.placed (h : Start s) : Placed s := by
  refine ⟨?_, ?_, ?_⟩
  · simp [Kernel.Accounts, Kernel.scheduled, h.waiting, h.queues, h.live]
  · simp [h.live]
  · simp [Sorted, h.queues]

/-- In every run in which the running thread finds a queue when it is
switched away from, a live thread is in one place, once. -/
theorem thread_in_one_place
    (hreach : TransitionRun.Reachable Start
      (fun s op => Admits s op ∧ Requeues s op) step s) :
    ∀ t ∈ s.live, s.occurrences t = 1 := by
  have hplaced : Placed s := by
    apply hreach.invariant
    · exact fun s hstart => hstart.placed
    · intro s op s' h hadmits hstep
      exact step_placed h hadmits.1 hadmits.2 hstep
  exact fun t ht => hplaced.occurrences_eq_one ht

theorem schedSchedule_loses {allocOk : Bool} (h : Placed s)
    (hroom : ¬Requeues s (.schedule allocOk))
    (hstep : schedSchedule s allocOk = .ok s') :
    s.running ∈ s'.live ∧ s'.occurrences s.running = 0 := by
  simp only [Requeues, Classical.not_imp, not_or] at hroom
  obtain ⟨⟨next, s₁, hpick⟩, halloc, hno⟩ := hroom
  obtain ⟨hframe, hacc, hnodup, hsorted⟩ := pickNextTask_placed h hpick
  obtain ⟨⟨r, s₂⟩, hpick₂, hstep⟩ := bind_eq_ok hstep
  rw [hpick] at hpick₂
  cases hpick₂
  rcases schedQueue_cases allocOk hsorted s₁.running with
    ⟨hfail, -⟩ | ⟨s₂, -, hroom, -⟩
  · have hdistinct : (next :: s₁.running :: s₁.scheduled).Nodup :=
      hacc.nodup_iff.mpr hnodup
    have hlive : s₁.running ∈ s₁.live := hacc.subset (by simp)
    simp only [hfail] at hstep
    obtain ⟨_, -, hstep⟩ := bind_eq_ok hstep
    cases hstep
    rw [← hframe.running]
    refine ⟨hlive, ?_⟩
    rw [occurrences_eq, List.count_eq_zero]
    simp only [List.nodup_cons, List.mem_cons, not_or] at hdistinct
    simp only [List.singleton_append, List.mem_cons, not_or]
    exact ⟨fun heq => hdistinct.1.1 heq.symm, hdistinct.2.1⟩
  · rw [hframe.hasQueue_iff, hframe.threads, hframe.running] at hroom
    exact absurd hroom (by simp [halloc, hno])

end Runs

/-- After `sched_init_boot_thread`: the boot thread is thread 0. -/
def bootKernel : Kernel where
  queues := []
  currentQueue := none
  running := 0
  waiting := []
  thread _ := ⟨none, SourceLocation.zero, 20, false⟩
  mutex _ := ⟨SourceLocation.zero, false⟩
  live := [0]
  spinning := false

theorem start_bootKernel : Start bootKernel :=
  ⟨rfl, rfl, rfl, rfl, rfl, rfl⟩

/-- A new thread is switched to and the boot thread waits for a mutex after
it has been switched back to. -/
theorem thread_in_one_place_two_threads :
    ∃ s, TransitionRun.Reachable Start
      (fun s op => Admits s op ∧ Requeues s op) step s ∧
      s.running = 1 ∧ s.waiting = [0] ∧ s.live = [1, 0] ∧
      ∀ t ∈ s.live, s.occurrences t = 1 := by
  have hreach : TransitionRun.Reachable Start
      (fun s op => Admits s op ∧ Requeues s op) step bootKernel :=
    .start start_bootKernel
  have hreach := hreach.next (a := .queue 1 0 true)
    ⟨⟨rfl, by rintro t _ _ ⟨⟩; decide⟩, by trivial⟩ rfl
  have hreach := hreach.next (a := .schedule true)
    ⟨⟨rfl, by rintro t _ _ ⟨⟩⟩, by exact fun _ => Or.inl rfl⟩ rfl
  have hreach := hreach.next (a := .tryLock 7 SourceLocation.zero)
    ⟨⟨rfl, by rintro t _ _ ⟨⟩⟩, by trivial⟩ rfl
  -- the first queue is empty, so this one only resets the opportunities
  have hreach := hreach.next (a := .schedule true)
    ⟨⟨rfl, by rintro t _ _ ⟨⟩⟩, by exact fun _ => Or.inl rfl⟩ rfl
  have hreach := hreach.next (a := .schedule true)
    ⟨⟨rfl, by rintro t _ _ ⟨⟩⟩, by exact fun _ => Or.inl rfl⟩ rfl
  have hreach := hreach.next (a := .waitMutex 7 SourceLocation.zero)
    ⟨⟨rfl, by rintro t _ _ ⟨⟩⟩, by trivial⟩ rfl
  exact ⟨_, hreach, by decide +kernel, by decide +kernel, by decide +kernel,
    thread_in_one_place hreach⟩

/-- Without memory for a queue of its priority, the boot thread is switched
away from and lost. -/
theorem boot_thread_lost :
    ¬∀ s, TransitionRun.Reachable Start Admits step s →
      ∀ t ∈ s.live, s.occurrences t = 1 := by
  intro hall
  have hreach : TransitionRun.Reachable Start Admits step bootKernel :=
    .start start_bootKernel
  have hreach := hreach.next (a := .queue 1 0 true)
    ⟨rfl, by rintro t _ _ ⟨⟩; decide⟩ rfl
  have hreach := hreach.next (a := .schedule false)
    ⟨rfl, by rintro t _ _ ⟨⟩⟩ rfl
  have hone := hall _ hreach 0 (by decide +kernel)
  exact absurd hone (by decide +kernel)

end Sched
end Yjkos
