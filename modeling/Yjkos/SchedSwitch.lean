import Yjkos.SchedPlaces

/-!
# Switching threads

Without threads to shut down, `pick_next_task` makes one turn.  A call of
the scheduler then either keeps the running thread or switches to a thread
which was queued, or to a waiter whose mutex it has locked on the way.
-/

namespace Yjkos
namespace Sched

open scoped List

/-- No thread is in two places, and the wait list consists of the threads
which wait for a mutex. -/
structure Waits (s : Kernel) : Prop where
  distinct : (s.running :: s.scheduled).Nodup
  known : s.running :: s.scheduled ⊆ s.live
  sorted : Sorted s.queues
  shutdown : ∀ t, (s.thread t).shutdown = false
  waiting_iff : ∀ t, t ∈ s.waiting ↔ (s.thread t).waitingmutex ≠ none

/-- The threads stay where they are. -/
structure Stays (s s' : Kernel) : Prop where
  running : s'.running = s.running
  waiting : s'.waiting = s.waiting
  thread : s'.thread = s.thread
  mutex : s'.mutex = s.mutex
  live : s'.live = s.live
  scheduled : s'.scheduled ~ s.scheduled
  sorted : Sorted s'.queues

/-- The processor is given to another thread.  `parked` is the mutex for
which the old thread waits from now on. -/
structure Switch (s s' : Kernel) (parked : Option ℕ) : Prop where
  running : s'.running ≠ s.running
  waiting : s'.waiting =
    parked.toList.map (fun _ => s.running) ++ s.waiting.erase s'.running
  waitingmutex : ∀ t, (s'.thread t).waitingmutex =
    if t = s'.running then none
    else if t = s.running then parked else (s.thread t).waitingmutex
  shutdown : ∀ t, (s'.thread t).shutdown = (s.thread t).shutdown
  mutex : (∃ m loc, (s.thread s'.running).waitingmutex = some m ∧
      (s.mutex m).locked = false ∧
      s'.mutex = Function.update s.mutex m ⟨loc, true⟩) ∨
    ((s.thread s'.running).waitingmutex = none ∧ s'.mutex = s.mutex)
  live : s'.live = s.live
  spinning : s'.spinning = s.spinning
  places : List.Subperm (s'.running :: s'.scheduled)
    (s.running :: s.scheduled)
  sorted : Sorted s'.queues

section Picking

variable {s s' : Kernel} {r : Option ℕ}

theorem shutdown_pickOnce (h : pickOnce s = .ok (r, s')) (t : ℕ) :
    (s'.thread t).shutdown = (s.thread t).shutdown := by
  rcases pickOnce_cases h with ⟨u, m, -, -, -, -, rfl⟩ | ⟨hpicks, -⟩
  · by_cases ht : t = u
    · subst ht
      simp only [handOff, Kernel.setThread, Function.update_self]
      split <;> rfl
    · simp only [handOff, Kernel.setThread, Function.update_of_ne ht]
      split <;> rfl
  · have hsame := hpicks.same
    unfold Kernel.SameButQueues at hsame
    rw [hsame]

theorem pickNextTask_eq (hshutdown : ∀ t, (s.thread t).shutdown = false) :
    pickNextTask s = pickOnce s := by
  unfold pickNextTask pickLoop
  cases honce : pickOnce s with
  | error e => rfl
  | ok result =>
      obtain ⟨picked, s₁⟩ := result
      cases picked with
      | none => rfl
      | some t =>
          have hfalse : (s₁.thread t).shutdown = false := by
            rw [shutdown_pickOnce honce]
            exact hshutdown t
          show (if (s₁.thread t).shutdown = true then _ else _) = _
          rw [hfalse]
          rfl

theorem handOff_eq {t m : ℕ} {mutex : Mutex}
    (hshutdown : (s.thread t).shutdown = false) :
    handOff (s.setMutex m mutex) t m =
      { s with
        waiting := s.waiting.erase t
        mutex := Function.update s.mutex m mutex
        thread := Function.update s.thread t
          { s.thread t with waitingmutex := none } } := by
  unfold handOff
  simp only [Kernel.setMutex, hshutdown, Bool.false_eq_true, if_false,
    Kernel.setThread]

/-- What a turn of `pick_next_task` does to the running thread's
surroundings. -/
structure Picked (s s' : Kernel) (next : ℕ) : Prop where
  running : s'.running = s.running
  waiting : s'.waiting = s.waiting.erase next
  waitingmutex : ∀ t, (s'.thread t).waitingmutex =
    if t = next then none else (s.thread t).waitingmutex
  mutex : (∃ m loc, (s.thread next).waitingmutex = some m ∧
      (s.mutex m).locked = false ∧
      s'.mutex = Function.update s.mutex m ⟨loc, true⟩) ∨
    ((s.thread next).waitingmutex = none ∧ s'.mutex = s.mutex)
  live : s'.live = s.live
  spinning : s'.spinning = s.spinning
  scheduled : s.scheduled ~ next :: s'.scheduled

theorem Waits.picked (h : Waits s) {next : ℕ}
    (honce : pickOnce s = .ok (some next, s')) : Picked s s' next := by
  obtain ⟨hframe, hlive, hperm⟩ := pickOnce_spec honce
  rcases pickOnce_cases honce with
    ⟨t, m, ht, hmem, hwaiting, hlocked, rfl⟩ | ⟨hpicks, hqueued⟩
  · cases ht
    refine ⟨hframe.running, ?_, ?_, ?_, hlive, hframe.spinning, hperm⟩
    · rw [handOff_eq (h.shutdown next)]
    · intro u
      rw [handOff_eq (h.shutdown next)]
      by_cases hu : u = next
      · simp [hu]
      · simp [hu]
    · rw [handOff_eq (h.shutdown next)]
      exact Or.inl ⟨m, _, hwaiting, hlocked, rfl⟩
  · have hsame := hpicks.same
    unfold Kernel.SameButQueues at hsame
    -- a queued thread is not on the wait list
    have hnot : next ∉ s.waiting := by
      intro hmem
      have hnodup := (List.nodup_cons.mp h.distinct).2
      rw [scheduled_eq, List.nodup_append] at hnodup
      refine hnodup.2.2 next hmem next ?_ rfl
      exact hqueued.symm.subset (by simp)
    have hnone : (s.thread next).waitingmutex = none := by
      by_contra hsome
      exact hnot ((h.waiting_iff next).mpr hsome)
    refine ⟨hframe.running, ?_, ?_, ?_, hlive, hframe.spinning, hperm⟩
    · rw [List.erase_of_not_mem hnot, hsame]
    · intro u
      rw [hsame]
      by_cases hu : u = next
      · simp [hu, hnone]
      · simp [hu]
    · rw [hsame]
      exact Or.inr ⟨hnone, rfl⟩

theorem stays_of_none (h : Waits s) (honce : pickOnce s = .ok (none, s')) :
    Stays s s' := by
  obtain ⟨hframe, hlive, hperm⟩ := pickOnce_spec honce
  rcases pickOnce_cases honce with ⟨t, m, ht, -⟩ | ⟨hpicks, -⟩
  · contradiction
  · have hsame := hpicks.same
    unfold Kernel.SameButQueues at hsame
    refine ⟨hframe.running, ?_, ?_, ?_, hlive, hperm.symm,
      hframe.sorted h.sorted⟩
    · rw [hsame]
    · rw [hsame]
    · rw [hsame]

theorem Picked.next_ne (h : Waits s) {next : ℕ} (hpicked : Picked s s' next) :
    next ≠ s.running := by
  rintro rfl
  have hnot := (List.nodup_cons.mp h.distinct).1
  exact hnot (hpicked.scheduled.symm.subset (by simp))

end Picking

section Switching

variable {s s' s₁ : Kernel}

theorem Waits.running_free (h : Waits s) :
    (s.thread s.running).waitingmutex = none := by
  by_contra hsome
  have hmem := (h.waiting_iff s.running).mpr hsome
  refine (List.nodup_cons.mp h.distinct).1 ?_
  rw [scheduled_eq]
  exact List.mem_append_left _ hmem

/-- From the picked thread to the switch: the old thread is put away, which
touches neither the mutexes nor the picked thread. -/
theorem Picked.switch {next : ℕ} {parked : Option ℕ} (h : Waits s)
    (hpicked : Picked s s₁ next) (hrunning : s'.running = next)
    (hwaiting : s'.waiting =
      parked.toList.map (fun _ => s.running) ++ s₁.waiting)
    (hwaits : ∀ t, (s'.thread t).waitingmutex =
      if t = s.running then parked else (s₁.thread t).waitingmutex)
    (hshutdown : ∀ t, (s'.thread t).shutdown = (s.thread t).shutdown)
    (hmutex : s'.mutex = s₁.mutex) (hlive : s'.live = s₁.live)
    (hspinning : s'.spinning = s₁.spinning)
    (hplaces : List.Subperm s'.scheduled (s.running :: s₁.scheduled))
    (hsorted : Sorted s'.queues) : Switch s s' parked := by
  have hne := Picked.next_ne h hpicked
  subst hrunning
  refine ⟨hne, ?_, ?_, hshutdown, ?_, ?_, ?_, ?_, hsorted⟩
  · rw [hwaiting, hpicked.waiting]
  · intro t
    rw [hwaits t, hpicked.waitingmutex t]
    by_cases ht : t = s.running
    · subst ht
      simp [hne.symm]
    · simp [ht]
  · rw [hmutex]
    exact hpicked.mutex
  · rw [hlive, hpicked.live]
  · rw [hspinning, hpicked.spinning]
  · have hswap : s'.running :: s.running :: s₁.scheduled ~
        s.running :: s.scheduled :=
      (List.Perm.swap _ _ _).trans (hpicked.scheduled.symm.cons s.running)
    exact ((List.subperm_cons _).mpr hplaces).trans hswap.subperm

theorem schedSchedule_cases {allocOk : Bool} (h : Waits s)
    (hstep : schedSchedule s allocOk = .ok s') :
    Stays s s' ∨ Switch s s' none := by
  obtain ⟨⟨r, s₁⟩, hpick, hstep⟩ := bind_eq_ok hstep
  rw [pickNextTask_eq h.shutdown] at hpick
  cases r with
  | none =>
      cases hstep
      exact Or.inl (stays_of_none h hpick)
  | some next =>
      have hpicked := h.picked hpick
      have hframe := (pickOnce_spec hpick).1
      have hshutdown := shutdown_pickOnce hpick
      have hfree : ∀ t, (s₁.thread t).waitingmutex =
          if t = s.running then none else (s₁.thread t).waitingmutex := by
        intro t
        by_cases ht : t = s.running
        · rw [hpicked.waitingmutex]
          simp [ht, h.running_free]
        · simp [ht]
      rcases schedQueue_cases allocOk (hframe.sorted h.sorted)
          s₁.running with
        ⟨hfail, -⟩ | ⟨s₂, hqueue, -, hsame, hqueued, hsorted⟩
      · simp only [hfail] at hstep
        obtain ⟨_, -, hstep⟩ := bind_eq_ok hstep
        cases hstep
        right
        exact hpicked.switch h rfl rfl hfree hshutdown rfl rfl
          rfl (List.sublist_cons_self _ _).subperm (hframe.sorted h.sorted)
      · have hscheduled := scheduled_of_queued hsame hqueued
        simp only [hqueue] at hstep
        obtain ⟨_, -, hstep⟩ := bind_eq_ok hstep
        cases hstep
        right
        rw [hframe.running] at hscheduled
        unfold Kernel.SameButQueues at hsame
        apply hpicked.switch h rfl
        · show s₂.waiting = _
          rw [hsame]
          rfl
        · show ∀ t, (s₂.thread t).waitingmutex = _
          rw [hsame]
          exact hfree
        · show ∀ t, (s₂.thread t).shutdown = _
          rw [hsame]
          exact hshutdown
        · show s₂.mutex = _
          rw [hsame]
        · show s₂.live = _
          rw [hsame]
        · show s₂.spinning = _
          rw [hsame]
        · exact hscheduled.subperm
        · exact hsorted

theorem Waits.setLocksource (h : Waits s) (loc : SourceLocation) :
    Waits (s.setThread s.running
      { s.thread s.running with desiredLocksource := loc }) := by
  refine ⟨h.distinct, h.known, h.sorted, ?_, ?_⟩
  · intro t
    by_cases ht : t = s.running
    · simp [Kernel.setThread, ht, h.shutdown]
    · simp [Kernel.setThread, ht, h.shutdown]
  · intro t
    rw [show t ∈ (s.setThread s.running _).waiting ↔ t ∈ s.waiting from
      Iff.rfl, h.waiting_iff]
    by_cases ht : t = s.running
    · simp [Kernel.setThread, ht]
    · simp [Kernel.setThread, ht]

theorem Stays.waits (h : Waits s) (hstays : Stays s s') : Waits s' := by
  refine ⟨?_, ?_, hstays.sorted, ?_, ?_⟩
  · rw [hstays.running]
    exact ((hstays.scheduled.cons s.running).nodup_iff).mpr h.distinct
  · rw [hstays.running, hstays.live]
    exact List.Subset.trans (hstays.scheduled.cons s.running).subset h.known
  · rw [hstays.thread]
    exact h.shutdown
  · rw [hstays.waiting, hstays.thread]
    exact h.waiting_iff

theorem waitingmutex_setLocksource (s : Kernel) (loc : SourceLocation)
    (t : ℕ) :
    ((s.setThread s.running
      { s.thread s.running with desiredLocksource := loc }).thread
        t).waitingmutex = (s.thread t).waitingmutex := by
  by_cases ht : t = s.running
  · simp [Kernel.setThread, ht]
  · simp [Kernel.setThread, ht]

/-- `sched_wait_mutex` notes the place of the call first, which no thread
but the old one looks at. -/
theorem Switch.of_setLocksource {parked : Option ℕ} (loc : SourceLocation)
    (h : Switch (s.setThread s.running
      { s.thread s.running with desiredLocksource := loc }) s' parked) :
    Switch s s' parked := by
  refine ⟨h.running, h.waiting, ?_, ?_, ?_, h.live, h.spinning, h.places,
    h.sorted⟩
  · intro t
    rw [h.waitingmutex t, waitingmutex_setLocksource]
    rfl
  · intro t
    rw [h.shutdown t]
    by_cases ht : t = s.running
    · simp [Kernel.setThread, ht]
    · simp [Kernel.setThread, ht]
  · have hmutex := h.mutex
    rw [waitingmutex_setLocksource] at hmutex
    exact hmutex

theorem schedWaitMutex_cases {m : ℕ} {loc : SourceLocation} (h : Waits s)
    (hstep : schedWaitMutex s m loc = .ok s') :
    (s'.spinning = true ∧ Waits s' ∧ s'.mutex = s.mutex ∧
      ∀ t, (s'.thread t).waitingmutex = (s.thread t).waitingmutex) ∨
    Switch s s' (some m) := by
  unfold schedWaitMutex at hstep
  obtain ⟨_, -, hstep⟩ := bind_eq_ok hstep
  have h₀ := h.setLocksource loc
  obtain ⟨⟨r, s₁⟩, hpick, hstep⟩ := bind_eq_ok hstep
  rw [pickNextTask_eq h₀.shutdown] at hpick
  cases r with
  | none =>
      cases hstep
      have hstays := stays_of_none h₀ hpick
      have hwaits := hstays.waits h₀
      left
      refine ⟨rfl, ?_, hstays.mutex, ?_⟩
      · exact ⟨hwaits.distinct, hwaits.known, hwaits.sorted,
          hwaits.shutdown, hwaits.waiting_iff⟩
      · intro t
        rw [← waitingmutex_setLocksource s loc t, ← hstays.thread]
  | some next =>
      have hpicked := h₀.picked hpick
      obtain ⟨hframe, -, -⟩ := pickOnce_spec hpick
      obtain ⟨_, -, hstep⟩ := bind_eq_ok hstep
      obtain ⟨_, -, hstep⟩ := bind_eq_ok hstep
      cases hstep
      right
      apply Switch.of_setLocksource loc
      apply hpicked.switch h₀ rfl
      · show s₁.running :: s₁.waiting = _
        rw [hframe.running]
        rfl
      · intro t
        rw [← hframe.running]
        by_cases ht : t = s₁.running
        · simp [Kernel.setThread, ht]
        · simp [Kernel.setThread, ht]
      · intro t
        rw [← shutdown_pickOnce hpick t]
        by_cases ht : t = s₁.running
        · simp [Kernel.setThread, ht]
        · simp [Kernel.setThread, ht]
      · rfl
      · rfl
      · rfl
      · show List.Subperm (s₁.running :: s₁.scheduled) _
        rw [hframe.running]
      · exact hframe.sorted h₀.sorted

theorem Switch.waits {parked : Option ℕ} (h : Waits s)
    (hswitch : Switch s s' parked) : Waits s' := by
  have hnodup : s.waiting.Nodup := by
    have hnodup := (List.nodup_cons.mp h.distinct).2
    rw [scheduled_eq, List.nodup_append] at hnodup
    exact hnodup.1
  have hdistinct : (s'.running :: s'.scheduled).Nodup := by
    obtain ⟨l, hperm, hsub⟩ := hswitch.places
    exact hperm.nodup_iff.mp (hsub.nodup h.distinct)
  refine ⟨hdistinct, ?_, hswitch.sorted, ?_, ?_⟩
  · rw [hswitch.live]
    exact List.Subset.trans hswitch.places.subset h.known
  · intro t
    rw [hswitch.shutdown]
    exact h.shutdown t
  · intro t
    have hrunning : s.running ∉ s.waiting := by
      intro hmem
      exact (h.waiting_iff s.running).mp hmem h.running_free
    rw [hswitch.waitingmutex, hswitch.waiting, List.mem_append,
      hnodup.mem_erase_iff, h.waiting_iff]
    by_cases hnext : t = s'.running
    · subst hnext
      cases parked with
      | none => simp
      | some m => simp [hswitch.running]
    · by_cases hold : t = s.running
      · subst hold
        cases parked with
        | none => simp [hnext, h.running_free]
        | some m => simp [hnext]
      · cases parked with
        | none => simp [hnext, hold]
        | some m => simp [hnext, hold]

end Switching

end Sched
end Yjkos
