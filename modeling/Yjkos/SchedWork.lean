import Yjkos.MutexRun

/-!
# Finding a thread to run

`pick_next_task` goes through the queues from the current one on, without the
current one, and takes the front queue when nothing is found.  A turn of its
loop which takes an empty front queue ends the search, whatever the current
queue holds.
-/

namespace Yjkos
namespace Sched

open scoped List

/-- A thread which waits for a mutex that is free. -/
def Kernel.MayWake (s : Kernel) (t : ℕ) : Prop :=
  ∃ m, (s.thread t).waitingmutex = some m ∧ (s.mutex m).locked = false

/-- There is a thread which could run instead of the running one. -/
def Kernel.Runnable (s : Kernel) : Prop :=
  (∃ queue ∈ s.queues, ∃ t ∈ queue.threads, (s.thread t).shutdown = false) ∨
    ∃ t ∈ s.waiting, s.MayWake t ∧ (s.thread t).shutdown = false

/-- No waiter may wake, no queue but the current one has both opportunities
and threads, and the front queue has no threads. -/
structure Kernel.Misses (s : Kernel) : Prop where
  waiting : ∀ t ∈ s.waiting, ¬s.MayWake t
  eligible : ∀ queue ∈ s.queues, s.eligible queue = false
  front : ∀ queue ∈ s.queues.head?, queue.threads = []

/-- The states of the turns which follow when threads that are to be shut
down are taken out and deleted. -/
inductive Discards : Kernel → Kernel → Prop
  | refl (s : Kernel) : Discards s s
  | turn {s s₁ s' : Kernel} {t : ℕ} (hpick : pickOnce s = .ok (some t, s₁))
      (hshutdown : (s₁.thread t).shutdown = true)
      (hrest : Discards (threadDelete s₁ t) s') : Discards s s'

/-- A thread is found when there is one, and the processor is only caught when
there is none. -/
structure FindsWork (s : Kernel) : Prop where
  picks : s.Runnable → ∃ t s', pickNextTask s = .ok (some t, s')
  spins : s.spinning = false → ∀ m locksource s',
    schedWaitMutex s m locksource = .ok s' → s'.spinning = true → ¬s.Runnable

/-! ## Tidy states -/

/-- The extra threads and the scheduled ones are live, each of them once, and
every waiter knows its mutex. -/
structure Tidy (s : Kernel) (extra : List ℕ) : Prop where
  accounts : ∃ lost, s.Accounts (extra ++ lost)
  nodup : s.live.Nodup
  sorted : Sorted s.queues
  waits : ∀ t ∈ s.waiting, (s.thread t).waitingmutex ≠ none

section Tidying

variable {s s' : Kernel} {extra : List ℕ} {r : Option ℕ}

theorem Tidy.distinct (h : Tidy s extra) : (extra ++ s.scheduled).Nodup := by
  obtain ⟨lost, hacc⟩ := h.accounts
  have hnodup := hacc.nodup_iff.mpr h.nodup
  refine hnodup.sublist ?_
  exact (List.sublist_append_left extra lost).append_right _

theorem Tidy.threadDelete {t : ℕ} (h : Tidy s (t :: extra)) :
    Tidy (threadDelete s t) extra := by
  obtain ⟨lost, hacc⟩ := h.accounts
  refine ⟨⟨lost, accounts_threadDelete hacc⟩, ?_, h.sorted, h.waits⟩
  exact h.nodup.sublist List.erase_sublist

theorem Tidy.pickOnce (h : Tidy s extra)
    (honce : pickOnce s = .ok (r, s')) : Tidy s' (r.toList ++ extra) := by
  obtain ⟨hframe, hlive, -⟩ := pickOnce_spec honce
  obtain ⟨lost, hacc⟩ := h.accounts
  refine ⟨⟨lost, ?_⟩, hlive ▸ h.nodup, hframe.sorted h.sorted, ?_⟩
  · rw [List.append_assoc]
    exact accounts_pickOnce honce hacc
  · intro u hu
    rcases pickOnce_cases honce with ⟨t, m, -, -, -, -, rfl⟩ | ⟨hpicks, -⟩
    · rw [(handOff_lists s t m _).1] at hu
      have hwaiting : s.waiting.Nodup :=
        (List.nodup_append.mp (List.nodup_append.mp h.distinct).2.1).1
      obtain ⟨hne, hmem⟩ := hwaiting.mem_erase_iff.mp hu
      have hkept := h.waits u hmem
      simp only [handOff, Kernel.setThread, Function.update_of_ne hne]
      split <;> exact hkept
    · have hsame := hpicks.same
      unfold Kernel.SameButQueues at hsame
      rw [hsame] at hu ⊢
      exact h.waits u hu

theorem Tidy.pickLoop {fuel : ℕ} (h : Tidy s extra)
    (hloop : pickLoop fuel s = .ok (r, s')) :
    Tidy s' (r.toList ++ extra) := by
  induction fuel generalizing s with
  | zero => cases hloop
  | succ fuel ih =>
      obtain ⟨⟨picked, s₁⟩, honce, hloop⟩ := bind_eq_ok hloop
      have htidy := h.pickOnce honce
      cases picked with
      | none =>
          cases hloop
          exact htidy
      | some t =>
          simp only at hloop
          split at hloop
          · exact ih (Tidy.threadDelete htidy) hloop
          · cases hloop
            exact htidy

/-! ## Runs -/

theorem queueNew_tidy {allocOk : Bool} {t : ℕ} {priority : ℤ}
    (h : Tidy s [s.running]) (ht : t ∉ s.live) :
    Tidy (queueNew s allocOk t priority)
      [(queueNew s allocOk t priority).running] := by
  obtain ⟨lost, hacc⟩ := h.accounts
  let new := s.setThread t ⟨none, SourceLocation.zero, priority, false⟩
  have hother : ∀ u ∈ s.waiting, (new.thread u).waitingmutex ≠ none := by
    intro u hu
    have hne : u ≠ t := by
      rintro rfl
      refine ht (hacc.subset ?_)
      rw [scheduled_eq]
      exact List.mem_append_right _ (List.mem_append_left _ hu)
    show (Function.update s.thread t _ u).waitingmutex ≠ none
    rw [Function.update_of_ne hne]
    exact h.waits u hu
  unfold queueNew
  rcases schedQueue_cases allocOk (s := new) h.sorted t with
    ⟨hfail, -⟩ | ⟨s', hqueue, -, hsame, hqueued, hsorted⟩
  · simp only [new] at hfail
    simp only [hfail]
    exact ⟨⟨lost, hacc⟩, h.nodup, h.sorted, hother⟩
  · have hscheduled : s'.scheduled ~ t :: s.scheduled :=
      scheduled_of_queued (s := new) hsame hqueued
    simp only [new] at hqueue
    simp only [hqueue]
    unfold Kernel.SameButQueues at hsame
    have hrunning : s'.running = s.running := by rw [hsame]; rfl
    have hlive : s'.live = s.live := by rw [hsame]; rfl
    refine ⟨⟨lost, ?_⟩, ?_, hsorted, ?_⟩
    · show [s'.running] ++ lost ++ s'.scheduled ~ t :: s'.live
      rw [hrunning, hlive]
      calc
        [s.running] ++ lost ++ s'.scheduled ~
            [s.running] ++ lost ++ (t :: s.scheduled) :=
          hscheduled.append_left _
        _ ~ t :: ([s.running] ++ lost ++ s.scheduled) := List.perm_middle
        _ ~ t :: s.live := hacc.cons t
    · exact List.nodup_cons.mpr ⟨hlive ▸ ht, hlive ▸ h.nodup⟩
    · rw [hsame]
      exact hother

theorem schedSchedule_tidy {allocOk : Bool} (h : Tidy s [s.running])
    (hstep : schedSchedule s allocOk = .ok s') : Tidy s' [s'.running] := by
  obtain ⟨⟨r, s₁⟩, hpick, hstep⟩ := bind_eq_ok hstep
  have hrunning := (pickLoop_spec hpick).1.running
  have h₁ := h.pickLoop hpick
  rw [← hrunning] at h₁
  cases r with
  | none =>
      cases hstep
      exact h₁
  | some next =>
      obtain ⟨lost, hacc⟩ := h₁.accounts
      have hswap : s₁.Accounts (s₁.running :: (next :: lost)) :=
        (List.Perm.append_right _ (.swap _ _ _)).trans hacc
      rcases schedQueue_cases allocOk h₁.sorted s₁.running with
        ⟨hfail, -⟩ | ⟨s₂, hqueue, hroom, -⟩
      · simp only [hfail] at hstep
        obtain ⟨_, -, hstep⟩ := bind_eq_ok hstep
        cases hstep
        refine ⟨⟨s₁.running :: lost, ?_⟩, h₁.nodup, h₁.sorted, h₁.waits⟩
        exact hacc
      · obtain ⟨s₃, hqueue₃, hsame, hsorted, hacc₃⟩ :=
          accounts_schedQueue (next :: lost) h₁.sorted hroom
        rw [hqueue] at hqueue₃
        cases hqueue₃
        simp only [hqueue] at hstep
        obtain ⟨_, -, hstep⟩ := bind_eq_ok hstep
        cases hstep
        unfold Kernel.SameButQueues at hsame
        refine ⟨⟨lost, hacc₃ hswap⟩, ?_, hsorted, ?_⟩
        · show s₂.live.Nodup
          rw [hsame]
          exact h₁.nodup
        · show ∀ t ∈ s₂.waiting, (s₂.thread t).waitingmutex ≠ none
          rw [hsame]
          exact h₁.waits

theorem schedWaitMutex_tidy {m : ℕ} {locksource : SourceLocation}
    (h : Tidy s [s.running])
    (hstep : schedWaitMutex s m locksource = .ok s') :
    Tidy s' [s'.running] := by
  unfold schedWaitMutex at hstep
  obtain ⟨_, -, hstep⟩ := bind_eq_ok hstep
  obtain ⟨⟨r, s₁⟩, hpick, hstep⟩ := bind_eq_ok hstep
  have hset : Tidy (s.setThread s.running
      { s.thread s.running with desiredLocksource := locksource })
      [s.running] := by
    refine ⟨h.accounts, h.nodup, h.sorted, ?_⟩
    intro t ht
    have hkept := h.waits t ht
    by_cases hrunning : t = s.running
    · subst hrunning
      simpa only [Kernel.setThread, Function.update_self] using hkept
    · simpa only [Kernel.setThread, Function.update_of_ne hrunning]
        using hkept
  have hrunning : s₁.running = s.running := (pickLoop_spec hpick).1.running
  have h₁ := hset.pickLoop hpick
  rw [← hrunning] at h₁
  cases r with
  | none =>
      cases hstep
      exact ⟨h₁.accounts, h₁.nodup, h₁.sorted, h₁.waits⟩
  | some next =>
      obtain ⟨_, -, hstep⟩ := bind_eq_ok hstep
      obtain ⟨_, -, hstep⟩ := bind_eq_ok hstep
      cases hstep
      obtain ⟨lost, hacc⟩ := h₁.accounts
      refine ⟨⟨lost, ?_⟩, h₁.nodup, h₁.sorted, ?_⟩
      · refine List.Perm.trans (.cons next ?_) hacc
        exact List.perm_middle
      · intro t ht
        by_cases heq : t = s₁.running
        · subst heq
          simp [Kernel.setThread]
        · have hold : t ∈ s₁.waiting :=
            (List.mem_cons.mp ht).resolve_left heq
          simp only [Kernel.setThread, Function.update_of_ne heq]
          exact h₁.waits t hold

theorem step_tidy {op : Op} (h : Tidy s [s.running]) (hadmits : Admits s op)
    (hstep : step s op = .ok s') : Tidy s' [s'.running] := by
  cases op with
  | queue t priority allocOk =>
      cases hstep
      exact queueNew_tidy h (hadmits.2 t priority allocOk rfl)
  | schedule allocOk => exact schedSchedule_tidy h hstep
  | waitMutex m locksource => exact schedWaitMutex_tidy h hstep
  | tryLock m loc =>
      cases hstep
      unfold mutexTryLock
      split <;> exact ⟨h.accounts, h.nodup, h.sorted, h.waits⟩
  | unlock m =>
      cases hstep
      exact ⟨h.accounts, h.nodup, h.sorted, h.waits⟩
  | shutDown t =>
      cases hstep
      refine ⟨h.accounts, h.nodup, h.sorted, ?_⟩
      intro u hu
      have hkept := h.waits u hu
      by_cases heq : u = t
      · subst heq
        simpa only [Kernel.setThread, Function.update_self] using hkept
      · simpa only [Kernel.setThread, Function.update_of_ne heq] using hkept

theorem Start.tidy (h : Start s) : Tidy s [s.running] :=
  ⟨⟨[], h.placed.accounts⟩, h.placed.nodup, h.placed.sorted,
    by simp [h.waiting]⟩

end Tidying

/-! ## One turn -/

/-- The threads of the queue of a priority. -/
def threadsOf (queues : List SchedQueue) (priority : ℤ) : List ℕ :=
  ((queues.find? (·.priority = priority)).map SchedQueue.threads).getD []

section Threads

variable {queues queues' : List SchedQueue} {priority p : ℤ}

theorem threadsOf_cons (queue : SchedQueue) :
    threadsOf (queue :: queues) p =
      if queue.priority = p then queue.threads else threadsOf queues p := by
  unfold threadsOf
  rw [List.find?_cons]
  by_cases heq : queue.priority = p <;> simp [heq]

theorem threadsOf_of_mem (hsorted : Sorted queues) {queue : SchedQueue}
    (h : queue ∈ queues) : threadsOf queues queue.priority = queue.threads := by
  induction queues with
  | nil => cases h
  | cons first rest ih =>
      obtain ⟨hlater, hrest⟩ := sorted_cons.mp hsorted
      rw [threadsOf_cons]
      rcases List.mem_cons.mp h with rfl | hmem
      · exact if_pos rfl
      · have hlt := hlater _ (List.mem_map_of_mem hmem)
        rw [if_neg hlt.ne, ih hrest hmem]

theorem threadsOf_charge :
    threadsOf (updateQueue priority
      (fun queue => { queue with opportunities := queue.opportunities - 1 })
      queues) p = threadsOf queues p := by
  induction queues with
  | nil => rfl
  | cons queue rest ih =>
      unfold updateQueue
      split
      · rw [threadsOf_cons, threadsOf_cons]
      · rw [threadsOf_cons, threadsOf_cons, ih]

theorem threadsOf_mapIdx (f : ℕ → SchedQueue → SchedQueue)
    (hpriority : ∀ i queue, (f i queue).priority = queue.priority)
    (hthreads : ∀ i queue, (f i queue).threads = queue.threads) :
    threadsOf (queues.mapIdx f) p = threadsOf queues p := by
  induction queues generalizing f with
  | nil => rfl
  | cons queue rest ih =>
      rw [List.mapIdx_cons, threadsOf_cons, threadsOf_cons, hpriority,
        hthreads, ih (fun i => f (i + 1)) (fun i => hpriority (i + 1))
          (fun i => hthreads (i + 1))]

theorem threadsOf_resetQueues :
    threadsOf (resetQueues queues) p = threadsOf queues p :=
  threadsOf_mapIdx _ (fun _ _ => rfl) (fun _ _ => rfl)

end Threads

section Turn

variable {s s' : Kernel} {extra : List ℕ} {r : Option ℕ}

theorem fromCurrent_subset : s.fromCurrent ⊆ s.queues := by
  unfold Kernel.fromCurrent
  split
  · exact List.nil_subset _
  · exact (List.dropWhile_sublist _).subset

/-- An eligible queue is picked, or there is none and it is the front queue. -/
theorem pickNextQueue_cases {next : Option ℤ}
    (h : pickNextQueue s = (next, s')) :
    (∀ p, threadsOf s'.queues p = threadsOf s.queues p) ∧
      ((∃ queue ∈ s.queues, s.eligible queue = true ∧
          next = some queue.priority) ∨
        ((∀ queue ∈ s.queues, s.eligible queue = false) ∧
          next = s.queues.head?.map SchedQueue.priority)) := by
  unfold pickNextQueue at h
  split at h
  next queue hfound =>
    cases h
    refine ⟨fun p => threadsOf_charge, Or.inl ⟨queue, ?_, ?_, rfl⟩⟩
    · rcases Option.or_eq_some_iff.mp hfound with hfirst | ⟨-, hsecond⟩
      · exact fromCurrent_subset (List.mem_of_find?_eq_some hfirst)
      · exact List.mem_of_find?_eq_some hsecond
    · rcases Option.or_eq_some_iff.mp hfound with hfirst | ⟨-, hsecond⟩
      · exact List.find?_some hfirst
      · exact List.find?_some hsecond
  next hnone =>
    have heligible : ∀ queue ∈ s.queues, s.eligible queue = false := by
      intro queue hqueue
      have hsecond := (Option.or_eq_none_iff.mp hnone).2
      simpa using List.find?_eq_none.mp hsecond queue hqueue
    split at h
    next hnil =>
      cases h
      exact ⟨fun _ => rfl, Or.inr ⟨heligible, by rw [hnil]; rfl⟩⟩
    next queue rest hqueues =>
      cases h
      refine ⟨fun p => ?_, Or.inr ⟨heligible, by rw [hqueues]; rfl⟩⟩
      exact threadsOf_charge.trans threadsOf_resetQueues

theorem removeBack_fst (s : Kernel) (priority : ℤ) :
    (removeBack s priority).1 = (threadsOf s.queues priority).getLast? := by
  unfold removeBack threadsOf
  split
  next hfind => rw [hfind]; rfl
  next queue hfind => rw [hfind]; rfl

theorem pickFromWaitlist_none {waiters : List ℕ}
    (hwaits : ∀ t ∈ waiters, (s.thread t).waitingmutex ≠ none) :
    (∃ s', pickFromWaitlist waiters s = .ok (none, s')) ↔
      ∀ t ∈ waiters, ¬s.MayWake t := by
  induction waiters with
  | nil => exact ⟨fun _ t ht => absurd ht (by simp), fun _ => ⟨s, rfl⟩⟩
  | cons t rest ih =>
      have hrest := ih fun u hu => hwaits u (List.mem_cons_of_mem t hu)
      rw [List.forall_mem_cons, ← hrest]
      simp only [pickFromWaitlist]
      cases hwaiting : (s.thread t).waitingmutex with
      | none => exact absurd hwaiting (hwaits t List.mem_cons_self)
      | some m =>
          have hwake : s.MayWake t ↔ (s.mutex m).locked = false := by
            constructor
            · rintro ⟨m', hm', hfree⟩
              rw [hwaiting] at hm'
              cases hm'
              exact hfree
            · exact fun hfree => ⟨m, hwaiting, hfree⟩
          rw [hwake]
          simp only [mutexTryLock]
          by_cases hlocked : (s.mutex m).locked = true
          · rw [if_pos hlocked]
            simp [hlocked]
          · rw [if_neg hlocked]
            simp [hlocked]

/-- A turn which takes no thread. -/
theorem pickOnce_none_iff (h : Tidy s extra) :
    (∃ s', pickOnce s = .ok (none, s')) ↔ s.Misses := by
  have hwaitlist := pickFromWaitlist_none h.waits
  obtain ⟨⟨next, s₁⟩, hpick⟩ : ∃ picked, pickNextQueue s = picked := ⟨_, rfl⟩
  obtain ⟨hthreads, hcases⟩ := pickNextQueue_cases hpick
  constructor
  · rintro ⟨s', hturn⟩
    obtain ⟨⟨waiter, s₀⟩, hwait, honce⟩ := bind_eq_ok hturn
    cases waiter with
    | some t => cases honce
    | none =>
        have hnone := hwaitlist.mp ⟨s₀, hwait⟩
        rcases pickFromWaitlist_cases hwait with ⟨-, rfl⟩ | ⟨t, m, hsome, -⟩
        · simp only [hpick] at honce
          rcases hcases with ⟨queue, hqueue, heligible, rfl⟩ |
            ⟨heligible, rfl⟩
          · have hback := removeBack_fst s₁ queue.priority
            rw [Except.ok.inj honce, hthreads, threadsOf_of_mem h.sorted hqueue]
              at hback
            have hempty : queue.threads = [] :=
              List.getLast?_eq_none_iff.mp hback.symm
            unfold Kernel.eligible at heligible
            simp [hempty] at heligible
          · refine ⟨hnone, heligible, ?_⟩
            cases hqueues : s₀.queues with
            | nil => simp
            | cons queue rest =>
                rw [hqueues] at honce
                have hback := removeBack_fst s₁ queue.priority
                rw [Except.ok.inj honce, hthreads, threadsOf_of_mem h.sorted
                  (by rw [hqueues]; exact List.mem_cons_self)] at hback
                have hempty : queue.threads = [] :=
                  List.getLast?_eq_none_iff.mp hback.symm
                simpa using hempty
        · cases hsome
  · intro hmisses
    obtain ⟨s₀, hwait⟩ := hwaitlist.mpr hmisses.waiting
    rcases pickFromWaitlist_cases hwait with ⟨-, rfl⟩ | ⟨t, m, hsome, -⟩
    · unfold pickOnce pickNextTaskFromMutexWaitlist
      rw [hwait, ok_bind]
      simp only [hpick]
      rcases hcases with ⟨queue, hqueue, heligible, -⟩ | ⟨-, rfl⟩
      · rw [hmisses.eligible queue hqueue] at heligible
        cases heligible
      · cases hqueues : s₀.queues with
        | nil => exact ⟨s₁, rfl⟩
        | cons queue rest =>
            have hback := removeBack_fst s₁ queue.priority
            rw [hthreads, threadsOf_of_mem h.sorted
              (by rw [hqueues]; exact List.mem_cons_self),
              hmisses.front queue (by rw [hqueues]; rfl)] at hback
            refine ⟨(removeBack s₁ queue.priority).2, ?_⟩
            exact congrArg Except.ok (Prod.ext hback rfl)
    · cases hsome

/-! ## The loop -/

theorem pickOnce_ok (h : Tidy s extra) : ∃ r s', pickOnce s = .ok (r, s') := by
  obtain ⟨⟨waiter, s₁⟩, hwait⟩ := pickFromWaitlist_ok s.waiting h.waits
  unfold pickOnce pickNextTaskFromMutexWaitlist
  rw [hwait, ok_bind]
  cases waiter with
  | some t => exact ⟨_, _, rfl⟩
  | none =>
      dsimp only
      split
      · exact ⟨_, _, rfl⟩
      · exact ⟨_, _, rfl⟩

/-- The loop finds a thread unless it comes to a turn which takes none. -/
theorem pickLoop_cases {fuel : ℕ} (h : Tidy s extra)
    (hfuel : s.scheduled.length < fuel) :
    ((∃ t s', pickLoop fuel s = .ok (some t, s')) ∧
      ∀ s', Discards s s' → ¬s'.Misses) ∨
    ((∃ s', pickLoop fuel s = .ok (none, s')) ∧
      ∃ s', Discards s s' ∧ s'.Misses) := by
  induction fuel generalizing s with
  | zero => omega
  | succ fuel ih =>
      obtain ⟨picked, s₁, honce⟩ := pickOnce_ok h
      unfold pickLoop
      rw [honce, ok_bind]
      cases picked with
      | none =>
          have hmisses := (pickOnce_none_iff h).mp ⟨s₁, honce⟩
          exact Or.inr ⟨⟨s₁, rfl⟩, s, .refl s, hmisses⟩
      | some t =>
          have hturn : ¬s.Misses := by
            intro hmisses
            obtain ⟨s', hnone⟩ := (pickOnce_none_iff h).mpr hmisses
            rw [honce] at hnone
            cases hnone
          dsimp only
          by_cases hshutdown : (s₁.thread t).shutdown = true
          · rw [if_pos hshutdown]
            have hlength := (pickOnce_spec honce).2.2.length_eq
            simp only [Option.toList_some, List.singleton_append,
              List.length_cons] at hlength
            have hshorter : (threadDelete s₁ t).scheduled.length < fuel := by
              show s₁.scheduled.length < fuel
              omega
            rcases ih (Tidy.threadDelete (h.pickOnce honce)) hshorter with
              ⟨hfound, hnever⟩ | ⟨hnone, s', hdiscards, hmisses⟩
            · refine Or.inl ⟨hfound, ?_⟩
              intro s' hdiscards
              cases hdiscards with
              | refl => exact hturn
              | turn hpick _ hrest =>
                  rw [honce] at hpick
                  cases hpick
                  exact hnever s' hrest
            · exact Or.inr ⟨hnone, s', .turn honce hshutdown hdiscards,
                hmisses⟩
          · rw [if_neg hshutdown]
            refine Or.inl ⟨⟨t, s₁, rfl⟩, ?_⟩
            intro s' hdiscards
            cases hdiscards with
            | refl => exact hturn
            | turn hpick hshut _ =>
                rw [honce] at hpick
                cases hpick
                exact absurd hshut hshutdown

/-! ## The call of a thread which has to wait -/

/-- `desired_locksource` of a thread is written. -/
def Kernel.locate (s : Kernel) (t : ℕ) (loc : SourceLocation) : Kernel :=
  s.setThread t { s.thread t with desiredLocksource := loc }

variable {t : ℕ} {loc : SourceLocation}

theorem locate_thread_of_ne {u : ℕ} (h : u ≠ t) :
    (s.locate t loc).thread u = s.thread u := Function.update_of_ne h _ _

theorem locate_waitingmutex (u : ℕ) :
    ((s.locate t loc).thread u).waitingmutex = (s.thread u).waitingmutex := by
  by_cases h : u = t
  · subst h
    simp only [Kernel.locate, Kernel.setThread, Function.update_self]
  · rw [locate_thread_of_ne h]

theorem locate_shutdown (u : ℕ) :
    ((s.locate t loc).thread u).shutdown = (s.thread u).shutdown := by
  by_cases h : u = t
  · subst h
    simp only [Kernel.locate, Kernel.setThread, Function.update_self]
  · rw [locate_thread_of_ne h]

theorem Tidy.locate (h : Tidy s extra) : Tidy (s.locate t loc) extra := by
  refine ⟨h.accounts, h.nodup, h.sorted, ?_⟩
  intro u hu
  rw [locate_waitingmutex]
  exact h.waits u hu

theorem locate_misses : (s.locate t loc).Misses ↔ s.Misses := by
  have hwake : ∀ u, (s.locate t loc).MayWake u ↔ s.MayWake u := by
    intro u
    unfold Kernel.MayWake
    rw [locate_waitingmutex]
    rfl
  constructor
  · intro h
    exact ⟨fun u hu hmay => h.waiting u hu ((hwake u).mpr hmay), h.eligible,
      h.front⟩
  · intro h
    exact ⟨fun u hu hmay => h.waiting u hu ((hwake u).mp hmay), h.eligible,
      h.front⟩

theorem handOff_locate {u m : ℕ} (mutex : Mutex) (hne : u ≠ t) :
    handOff ((s.locate t loc).setMutex m mutex) u m =
      (handOff (s.setMutex m mutex) u m).locate t loc := by
  have hthread : (s.locate t loc).thread u = s.thread u :=
    locate_thread_of_ne hne
  unfold handOff
  simp only [Kernel.setMutex, hthread]
  by_cases hshutdown : (s.thread u).shutdown = true
  · simp only [hshutdown, if_true, mutexUnlock, Kernel.locate,
      Kernel.setThread, Kernel.setMutex, Function.update_of_ne hne,
      Function.update_of_ne hne.symm, Function.update_comm hne]
  · simp only [hshutdown, if_false, Kernel.locate, Kernel.setThread,
      Bool.false_eq_true, Function.update_of_ne hne,
      Function.update_of_ne hne.symm, Function.update_comm hne]

theorem pickFromWaitlist_locate {waiters : List ℕ} (h : t ∉ waiters) :
    pickFromWaitlist waiters (s.locate t loc) =
      (pickFromWaitlist waiters s).map
        (fun r => (r.1, r.2.locate t loc)) := by
  induction waiters with
  | nil => rfl
  | cons u rest ih =>
      rw [List.mem_cons, not_or] at h
      have hthread : (s.locate t loc).thread u = s.thread u :=
        locate_thread_of_ne (Ne.symm h.1)
      simp only [pickFromWaitlist, hthread]
      cases (s.thread u).waitingmutex with
      | none => rfl
      | some m =>
          simp only [mutexTryLock]
          by_cases hlocked : (s.mutex m).locked = true
          · have hlocked' : ((s.locate t loc).mutex m).locked = true := hlocked
            rw [if_pos hlocked, if_pos hlocked']
            exact ih h.2
          · have hlocked' : ¬((s.locate t loc).mutex m).locked = true := hlocked
            rw [if_neg hlocked, if_neg hlocked']
            exact congrArg (fun s' => Except.ok (some u, s'))
              (handOff_locate _ (Ne.symm h.1))

theorem pickNextQueue_locate :
    pickNextQueue (s.locate t loc) =
      ((pickNextQueue s).1, (pickNextQueue s).2.locate t loc) := by
  have hfound : (((s.locate t loc).fromCurrent.find?
      (s.locate t loc).eligible).or ((s.locate t loc).queues.find?
      (s.locate t loc).eligible)) =
      (s.fromCurrent.find? s.eligible).or (s.queues.find? s.eligible) := rfl
  unfold pickNextQueue
  rw [hfound]
  cases (s.fromCurrent.find? s.eligible).or (s.queues.find? s.eligible) with
  | some queue => rfl
  | none =>
      obtain ⟨queues, hqueues⟩ : ∃ queues, s.queues = queues := ⟨_, rfl⟩
      have hqueues' : (s.locate t loc).queues = queues := hqueues
      rw [hqueues, hqueues']
      cases queues <;> rfl

theorem removeBack_locate (priority : ℤ) :
    removeBack (s.locate t loc) priority =
      ((removeBack s priority).1, (removeBack s priority).2.locate t loc) := by
  have hfind : (s.locate t loc).queues.find? (·.priority = priority) =
      s.queues.find? (·.priority = priority) := rfl
  unfold removeBack
  rw [hfind]
  cases s.queues.find? (·.priority = priority) <;> rfl

theorem pickOnce_locate (h : t ∉ s.waiting) :
    pickOnce (s.locate t loc) =
      (pickOnce s).map (fun r => (r.1, r.2.locate t loc)) := by
  have hwait := @pickFromWaitlist_locate s _ loc _ h
  unfold pickOnce pickNextTaskFromMutexWaitlist
  have hwait' : pickFromWaitlist (s.locate t loc).waiting (s.locate t loc) =
      _ := hwait
  rw [hwait']
  cases pickFromWaitlist s.waiting s with
  | error e => rfl
  | ok r =>
      obtain ⟨waiter, s₁⟩ := r
      cases waiter with
      | some u => rfl
      | none =>
          rw [Except.map, ok_bind, ok_bind]
          dsimp only
          rw [pickNextQueue_locate]
          obtain ⟨next, s₂⟩ := pickNextQueue s₁
          cases next with
          | none => rfl
          | some priority =>
              show Except.ok (removeBack (s₂.locate t loc) priority) = _
              rw [removeBack_locate]
              rfl

theorem waiting_pickOnce (h : pickOnce s = .ok (r, s')) :
    s'.waiting ⊆ s.waiting := by
  rcases pickOnce_cases h with ⟨u, m, -, -, -, -, rfl⟩ | ⟨hpicks, -⟩
  · rw [(handOff_lists s u m _).1]
    exact List.erase_subset
  · rw [(frame_of_picks hpicks).2.1]
    exact List.Subset.refl _

theorem discards_locate {s₀ : Kernel} (h : Discards s₀ s')
    (heq : s₀ = s.locate t loc) (ht : t ∉ s.waiting) :
    ∃ s₂, s' = s₂.locate t loc ∧ Discards s s₂ := by
  induction h generalizing s with
  | refl s₀ => exact ⟨s, heq, .refl s⟩
  | turn hpick hshutdown _ ih =>
      subst heq
      rw [pickOnce_locate ht] at hpick
      cases honce : pickOnce s with
      | error e =>
          rw [honce] at hpick
          cases hpick
      | ok picked =>
          obtain ⟨next, s₁⟩ := picked
          rw [honce] at hpick
          obtain ⟨rfl, rfl⟩ := Prod.mk.inj (Except.ok.inj hpick)
          obtain ⟨s₂, rfl, hdiscards⟩ := ih (s := threadDelete s₁ _) rfl
            (fun hmem => ht (waiting_pickOnce honce hmem))
          rw [locate_shutdown] at hshutdown
          exact ⟨s₂, rfl, .turn honce hshutdown hdiscards⟩

theorem Tidy.pickNextTask_iff (h : Tidy s extra) :
    (∃ t s', pickNextTask s = .ok (some t, s')) ↔
      ∀ s', Discards s s' → ¬s'.Misses := by
  have hcases := pickLoop_cases h (Nat.lt_succ_self s.scheduled.length)
  rcases hcases with ⟨hfound, hnever⟩ | ⟨⟨s₁, hnone⟩, s', hdiscards, hmisses⟩
  · exact iff_of_true hfound hnever
  · refine iff_of_false ?_ (fun hnever => hnever s' hdiscards hmisses)
    rintro ⟨t, s₂, hpick⟩
    have hpick' : Sched.pickLoop (s.scheduled.length + 1) s = _ := hpick
    rw [hnone] at hpick'
    cases hpick'

/-- The processor is caught when no thread is found. -/
theorem schedWaitMutex_spins {m : ℕ} (hspinning : s.spinning = false)
    (hwait : schedWaitMutex s m loc = .ok s') (hcaught : s'.spinning = true) :
    ¬∃ t s₁, pickNextTask (s.locate s.running loc) = .ok (some t, s₁) := by
  rintro ⟨next, s₁, hpick⟩
  unfold schedWaitMutex at hwait
  obtain ⟨_, -, hwait⟩ := bind_eq_ok hwait
  obtain ⟨⟨picked, s₂⟩, hpick₂, hwait⟩ := bind_eq_ok hwait
  have hpick₂' : pickNextTask (s.locate s.running loc) = .ok (picked, s₂) :=
    hpick₂
  rw [hpick] at hpick₂'
  cases hpick₂'
  obtain ⟨_, -, hwait⟩ := bind_eq_ok hwait
  obtain ⟨_, -, hwait⟩ := bind_eq_ok hwait
  cases hwait
  have hkept : s₁.spinning = s.spinning := (pickLoop_spec hpick).1.spinning
  rw [show s₁.spinning = true from hcaught, hspinning] at hkept
  cases hkept

theorem Tidy.finds_iff (h : Tidy s [s.running]) :
    FindsWork s ↔ (s.Runnable → ∀ s', Discards s s' → ¬s'.Misses) := by
  constructor
  · intro hfinds hrunnable
    exact h.pickNextTask_iff.mp (hfinds.picks hrunnable)
  · intro hnever
    refine ⟨fun hrunnable => h.pickNextTask_iff.mpr (hnever hrunnable), ?_⟩
    intro hspinning m loc s' hwait hcaught hrunnable
    refine schedWaitMutex_spins hspinning hwait hcaught ?_
    refine h.locate.pickNextTask_iff.mpr ?_
    intro s₁ hdiscards hmisses
    have hidle : s.running ∉ s.waiting := by
      have hdistinct := h.distinct
      rw [List.singleton_append, List.nodup_cons, scheduled_eq] at hdistinct
      exact fun hmem => hdistinct.1 (List.mem_append_left _ hmem)
    obtain ⟨s₂, rfl, hdiscards₂⟩ := discards_locate hdiscards rfl hidle
    exact hnever hrunnable s₂ hdiscards₂ (locate_misses.mp hmisses)

end Turn

/-- A thread is found in a reachable state if and only if there is none, or
the search does not come to an empty front queue. -/
theorem findsWork_iff {s : Kernel}
    (hreach : TransitionRun.Reachable Start Admits step s) :
    FindsWork s ↔ (s.Runnable → ∀ s', Discards s s' → ¬s'.Misses) := by
  have htidy : Tidy s [s.running] := by
    apply hreach.invariant
    · exact fun s hstart => hstart.tidy
    · exact fun s op s' h hadmits hstep => step_tidy h hadmits hstep
  exact htidy.finds_iff

/-- The queue of the running thread is in front and empty, but the other one
still has opportunities: one of its threads is found. -/
theorem findsWork_two_queues :
    ∃ s, TransitionRun.Reachable Start Admits step s ∧ s.running = 2 ∧
      s.queues = [⟨0, 0, []⟩, ⟨20, 2, [0, 1]⟩] ∧ s.Runnable ∧
      FindsWork s := by
  have hreach : TransitionRun.Reachable Start Admits step bootKernel :=
    .start start_bootKernel
  have hreach := hreach.next (a := .queue 1 20 true)
    ⟨rfl, by rintro t _ _ ⟨⟩; decide⟩ rfl
  have hreach := hreach.next (a := .queue 2 0 true)
    ⟨rfl, by rintro t _ _ ⟨⟩; decide⟩ rfl
  have hreach := hreach.next (a := .schedule true)
    ⟨rfl, by rintro t _ _ ⟨⟩⟩ rfl
  refine ⟨_, hreach, rfl, rfl, Or.inl ⟨⟨20, 2, [0, 1]⟩, by decide, 0, ?_, rfl⟩,
    (findsWork_iff hreach).mpr ?_⟩
  · exact List.mem_cons_self
  · intro _ s' hdiscards hmisses
    cases hdiscards with
    | refl =>
        have hnone := hmisses.eligible ⟨20, 2, [0, 1]⟩
          (List.mem_cons_of_mem _ List.mem_cons_self)
        cases hnone
    | turn hpick hshutdown _ =>
        cases hpick
        cases hshutdown

/-- The boot thread is queued behind an empty queue, and the thread which runs
instead is caught when it waits for the mutex that the boot thread has
locked. -/
theorem boot_thread_missed :
    ¬∀ s, TransitionRun.Reachable Start Admits step s → FindsWork s := by
  intro hall
  have hreach : TransitionRun.Reachable Start Admits step bootKernel :=
    .start start_bootKernel
  have hreach := hreach.next (a := .tryLock 7 SourceLocation.zero)
    ⟨rfl, by rintro t _ _ ⟨⟩⟩ rfl
  have hreach := hreach.next (a := .queue 1 0 true)
    ⟨rfl, by rintro t _ _ ⟨⟩; decide⟩ rfl
  have hreach := hreach.next (a := .schedule true)
    ⟨rfl, by rintro t _ _ ⟨⟩⟩ rfl
  refine (hall _ hreach).spins rfl 7 SourceLocation.zero _ rfl (by decide) ?_
  refine Or.inl ⟨⟨20, 0, [0]⟩, by decide, 0, by decide, by decide⟩

end Sched
end Yjkos
