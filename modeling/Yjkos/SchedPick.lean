import Yjkos.Sched

/-!
# What the scheduler does to its lists

Each function takes threads out of one list or puts them into one.  The
statements are about the threads of all queues together, up to permutation.
-/

namespace Yjkos
namespace Sched

open scoped List

/-- The threads of all priority queues. -/
def Kernel.queued (s : Kernel) : List ℕ :=
  s.queues.flatMap SchedQueue.threads

theorem scheduled_eq (s : Kernel) : s.scheduled = s.waiting ++ s.queued :=
  rfl

/-! ## Queues -/

section Queues

variable {priority : ℤ} {f : SchedQueue → SchedQueue}
  {queues : List SchedQueue}

theorem priority_updateQueue (hf : ∀ q, (f q).priority = q.priority) :
    (updateQueue priority f queues).map SchedQueue.priority =
      queues.map SchedQueue.priority := by
  induction queues with
  | nil => rfl
  | cons queue rest ih =>
      unfold updateQueue
      split
      · simp [hf]
      · simp [ih]

theorem threads_updateQueue (hf : ∀ q, (f q).threads = q.threads) :
    (updateQueue priority f queues).flatMap SchedQueue.threads =
      queues.flatMap SchedQueue.threads := by
  induction queues with
  | nil => rfl
  | cons queue rest ih =>
      unfold updateQueue
      split
      · simp [hf]
      · simp [ih]

theorem threads_push {t : ℕ} (hmem : priority ∈ queues.map (·.priority)) :
    (updateQueue priority
      (fun queue => { queue with threads := t :: queue.threads })
      queues).flatMap SchedQueue.threads ~
        t :: queues.flatMap SchedQueue.threads := by
  induction queues with
  | nil => simp at hmem
  | cons queue rest ih =>
      unfold updateQueue
      split
      · simp
      next hne =>
        have hrest : priority ∈ rest.map (·.priority) := by
          rcases List.mem_cons.mp hmem with heq | hrest
          · exact absurd heq.symm hne
          · exact hrest
        calc
          queue.threads ++ _ ~ queue.threads ++
              (t :: rest.flatMap SchedQueue.threads) :=
            (ih hrest).append_left queue.threads
          _ ~ t :: (queue.threads ++ rest.flatMap SchedQueue.threads) :=
            List.perm_middle

theorem threads_dropLast {queue : SchedQueue} {t : ℕ}
    (hfind : queues.find? (·.priority = priority) = some queue)
    (hlast : queue.threads.getLast? = some t) :
    queues.flatMap SchedQueue.threads ~
      t :: (updateQueue priority
        (fun queue => { queue with threads := queue.threads.dropLast })
        queues).flatMap SchedQueue.threads := by
  induction queues with
  | nil => simp at hfind
  | cons first rest ih =>
      unfold updateQueue
      split
      next heq =>
        obtain rfl : first = queue := by simpa [heq] using hfind
        have hsplit : first.threads = first.threads.dropLast ++ [t] :=
          (List.dropLast_append_getLast? t hlast).symm
        calc
          first.threads ++ rest.flatMap SchedQueue.threads =
              first.threads.dropLast ++
              (t :: rest.flatMap SchedQueue.threads) := by
            nth_rewrite 1 [hsplit]
            simp
          _ ~ t :: (first.threads.dropLast ++
              rest.flatMap SchedQueue.threads) := List.perm_middle
      next hne =>
        have hrest := ih (by simpa [hne] using hfind)
        calc
          first.threads ++ _ ~ first.threads ++ (t :: _) :=
            hrest.append_left first.threads
          _ ~ t :: (first.threads ++ _) := List.perm_middle

theorem threads_dropLast_of_empty {queue : SchedQueue}
    (hfind : queues.find? (·.priority = priority) = some queue)
    (hlast : queue.threads.getLast? = none) :
    (updateQueue priority
      (fun queue => { queue with threads := queue.threads.dropLast })
      queues).flatMap SchedQueue.threads =
        queues.flatMap SchedQueue.threads := by
  induction queues with
  | nil => rfl
  | cons first rest ih =>
      unfold updateQueue
      split
      next heq =>
        obtain rfl : first = queue := by simpa [heq] using hfind
        have hempty : first.threads = [] := by simpa using hlast
        simp [hempty]
      next hne =>
        simp [ih (by simpa [hne] using hfind)]

theorem threads_insertAfter {after : ℤ} {new : SchedQueue}
    (hnew : new.threads = []) :
    (insertAfter after new queues).flatMap SchedQueue.threads =
      queues.flatMap SchedQueue.threads := by
  induction queues with
  | nil => rfl
  | cons queue rest ih =>
      unfold insertAfter
      split
      · simp [hnew]
      · simp [ih]

theorem threads_resetQueues :
    (resetQueues queues).flatMap SchedQueue.threads =
      queues.flatMap SchedQueue.threads := by
  have hmap : (resetQueues queues).map SchedQueue.threads =
      queues.map SchedQueue.threads := by
    apply List.ext_getElem <;> simp [resetQueues]
  rw [List.flatMap_def, List.flatMap_def, hmap]

theorem priority_resetQueues :
    (resetQueues queues).map SchedQueue.priority =
      queues.map SchedQueue.priority := by
  apply List.ext_getElem <;> simp [resetQueues]

/-- The queues stand in the order of their priorities. -/
def Sorted (queues : List SchedQueue) : Prop :=
  (queues.map SchedQueue.priority).Pairwise (· < ·)

theorem sorted_cons {queue : SchedQueue} :
    Sorted (queue :: queues) ↔
      (∀ p ∈ queues.map SchedQueue.priority, queue.priority < p) ∧
        Sorted queues :=
  List.pairwise_cons

theorem findSlot_of_mem (hsorted : Sorted queues)
    (hmem : priority ∈ queues.map SchedQueue.priority) :
    findSlot priority queues = .existing := by
  fun_induction findSlot priority queues with
  | case1 => simp at hmem
  | case2 queue heq => rfl
  | case3 queue hne =>
      have heq : priority = queue.priority := by simpa using hmem
      exact absurd heq.symm hne
  | case4 queue nextQueue rest heq => rfl
  | case5 queue nextQueue rest hne hbetween =>
      -- a queue further on would stand behind `nextQueue`
      have hnext := (sorted_cons.mp (sorted_cons.mp hsorted).2).1
      simp only [List.map_cons, List.mem_cons] at hmem
      rcases hmem with heq | heq | hrest
      · exact absurd heq.symm hne
      · omega
      · have := hnext priority hrest
        omega
  | case6 queue nextQueue rest hne hbetween ih =>
      apply ih (sorted_cons.mp hsorted).2
      rcases List.mem_cons.mp hmem with heq | hrest
      · exact absurd heq.symm hne
      · exact hrest

theorem mem_of_findSlot_existing
    (hslot : findSlot priority queues = .existing) :
    priority ∈ queues.map SchedQueue.priority := by
  fun_induction findSlot priority queues with
  | case1 => simp at hslot
  | case2 queue heq => simp [heq]
  | case3 queue hne => simp at hslot
  | case4 queue nextQueue rest heq => simp [heq]
  | case5 queue nextQueue rest hne hbetween => simp at hslot
  | case6 queue nextQueue rest hne hbetween ih =>
      exact List.mem_cons_of_mem _ (ih hslot)

theorem eq_nil_of_findSlot (hslot : findSlot priority queues = .front) :
    queues = [] := by
  fun_induction findSlot priority queues with
  | case1 => rfl
  | case2 queue heq => simp at hslot
  | case3 queue hne => simp at hslot
  | case4 queue nextQueue rest heq => simp at hslot
  | case5 queue nextQueue rest hne hbetween => simp at hslot
  | case6 queue nextQueue rest hne hbetween ih =>
      exact absurd (ih hslot) (by simp)

theorem mem_of_findSlot {after : ℤ}
    (hslot : findSlot priority queues = .after after) :
    after ∈ queues.map SchedQueue.priority := by
  fun_induction findSlot priority queues with
  | case1 => simp at hslot
  | case2 queue heq => simp at hslot
  | case3 queue hne =>
      obtain rfl : queue.priority = after := by simpa using hslot
      simp
  | case4 queue nextQueue rest heq => simp at hslot
  | case5 queue nextQueue rest hne hbetween =>
      obtain rfl : queue.priority = after := by simpa using hslot
      simp
  | case6 queue nextQueue rest hne hbetween ih =>
      exact List.mem_cons_of_mem _ (ih hslot)

theorem mem_insertAfter {after p : ℤ} {new : SchedQueue}
    (h : p ∈ (insertAfter after new queues).map SchedQueue.priority) :
    p = new.priority ∨ p ∈ queues.map SchedQueue.priority := by
  induction queues with
  | nil => simp [insertAfter] at h
  | cons queue rest ih =>
      unfold insertAfter at h
      split at h
      · simp only [List.map_cons, List.mem_cons] at h ⊢
        tauto
      · rw [List.map_cons, List.mem_cons] at h ⊢
        have := ih
        tauto

theorem insertAfter_findSlot {after : ℤ} (new : SchedQueue)
    (hsorted : Sorted queues) (hpriority : new.priority = priority)
    (hfront : ∀ queue ∈ queues.head?, queue.priority ≤ priority)
    (hslot : findSlot priority queues = .after after) :
    Sorted (insertAfter after new queues) ∧
      priority ∈ (insertAfter after new queues).map SchedQueue.priority := by
  fun_induction findSlot priority queues with
  | case1 => simp at hslot
  | case2 queue heq => simp at hslot
  | case3 queue hne =>
      obtain rfl : queue.priority = after := by simpa using hslot
      have hle := hfront queue (by simp)
      refine ⟨?_, by simp [insertAfter, hpriority]⟩
      simp only [insertAfter, if_true, Sorted, List.map_cons, List.map_nil,
        List.pairwise_cons, List.mem_cons, List.not_mem_nil, or_false,
        forall_eq, hpriority]
      exact ⟨by omega, by simp⟩
  | case4 queue nextQueue rest heq => simp at hslot
  | case5 queue nextQueue rest hne hbetween =>
      obtain rfl : queue.priority = after := by simpa using hslot
      refine ⟨?_, by simp [insertAfter, hpriority]⟩
      obtain ⟨hqueue, hrest⟩ := sorted_cons.mp hsorted
      have hnext := (sorted_cons.mp hrest).1
      simp only [insertAfter, if_true]
      refine sorted_cons.mpr ⟨?_, sorted_cons.mpr ⟨?_, hrest⟩⟩
      · intro p hp
        rcases List.mem_cons.mp hp with rfl | hp
        · omega
        · exact hqueue p hp
      · intro p hp
        rcases List.mem_cons.mp hp with rfl | hp
        · omega
        · have := hnext p hp
          omega
  | case6 queue nextQueue rest hne hbetween ih =>
      obtain ⟨hqueue, hrest⟩ := sorted_cons.mp hsorted
      have hle := hfront queue (by simp)
      have hlater := hqueue nextQueue.priority (by simp)
      obtain ⟨hsorted', hmem'⟩ := ih hrest (by
        intro q hq
        obtain rfl : nextQueue = q := by simpa using hq
        omega) hslot
      have hne' : queue.priority ≠ after := by
        have := hqueue after (mem_of_findSlot hslot)
        omega
      rw [insertAfter, if_neg hne']
      refine ⟨sorted_cons.mpr ⟨?_, hsorted'⟩, ?_⟩
      · intro p hp
        rcases mem_insertAfter hp with rfl | hp
        · omega
        · exact hqueue p hp
      · rw [List.map_cons]
        exact List.mem_cons_of_mem _ hmem'

end Queues

/-! ## Queueing a thread -/

/-- Only the queues differ. -/
def Kernel.SameButQueues (s s' : Kernel) : Prop :=
  s' = { s with queues := s'.queues, currentQueue := s'.currentQueue }

section Getting

variable {s s' : Kernel} {allocOk : Bool} {priority : ℤ}

/-- There is a queue of this priority. -/
def Kernel.HasQueue (s : Kernel) (priority : ℤ) : Prop :=
  priority ∈ s.queues.map SchedQueue.priority

theorem head_of_hasQueue (hsorted : Sorted s.queues)
    (h : s.HasQueue priority) :
    s.queues.head?.any (priority < ·.priority) = false := by
  unfold Kernel.HasQueue at h
  cases hqueues : s.queues with
  | nil => rfl
  | cons queue rest =>
      rw [hqueues] at hsorted h
      have hlater := (sorted_cons.mp hsorted).1
      simp only [List.head?_cons, Option.any_some, decide_eq_false_iff_not,
        not_lt]
      rcases List.mem_cons.mp h with rfl | hrest
      · exact le_rfl
      · exact (hlater priority hrest).le

theorem getQueue_of_hasQueue (hsorted : Sorted s.queues)
    (h : s.HasQueue priority) :
    getQueue s allocOk priority = (some priority, s) := by
  unfold getQueue
  simp only [head_of_hasQueue hsorted h, Bool.false_eq_true, if_false,
    findSlot_of_mem hsorted h]

/-- What `get_queue` returns and what it leaves. -/
structure Got (s s' : Kernel) (priority : ℤ) : Prop where
  same : s.SameButQueues s'
  queued : s'.queued = s.queued
  sorted : Sorted s'.queues
  hasQueue : s'.HasQueue priority
  current : s'.currentQueue = s.currentQueue

theorem got_front (hsorted : Sorted s.queues)
    (hfront : ∀ queue ∈ s.queues.head?, priority < queue.priority) :
    Got s { s with queues := ⟨priority, 0, []⟩ :: s.queues } priority := by
  refine ⟨rfl, by simp [Kernel.queued], ?_, by simp [Kernel.HasQueue], rfl⟩
  refine sorted_cons.mpr ⟨?_, hsorted⟩
  intro p hp
  cases hqueues : s.queues with
  | nil => simp [hqueues] at hp
  | cons queue rest =>
      have hlt := hfront queue (by simp [hqueues])
      rw [hqueues] at hp hsorted
      rcases List.mem_cons.mp hp with rfl | hrest
      · exact hlt
      · exact hlt.trans ((sorted_cons.mp hsorted).1 p hrest)

theorem got_after {after : ℤ} (hsorted : Sorted s.queues)
    (hfront : ∀ queue ∈ s.queues.head?, queue.priority ≤ priority)
    (hslot : findSlot priority s.queues = .after after) :
    Got s { s with queues := insertAfter after ⟨priority, 0, []⟩ s.queues }
      priority := by
  obtain ⟨hsorted', hmem⟩ := insertAfter_findSlot
    ⟨priority, 0, []⟩ hsorted rfl hfront hslot
  exact ⟨rfl, threads_insertAfter rfl, hsorted', hmem, rfl⟩

variable (allocOk priority) in
/-- Without memory `get_queue` finds the queues which exist and no other. -/
theorem getQueue_cases (hsorted : Sorted s.queues) :
    (getQueue s allocOk priority = (none, s) ∧ allocOk = false ∧
      ¬s.HasQueue priority) ∨
    ∃ s', getQueue s allocOk priority = (some priority, s') ∧
      (allocOk = true ∨ s.HasQueue priority) ∧ Got s s' priority := by
  by_cases hmem : s.HasQueue priority
  · refine Or.inr ⟨s, getQueue_of_hasQueue hsorted hmem, Or.inr hmem, ?_⟩
    exact ⟨rfl, rfl, hsorted, hmem, rfl⟩
  · unfold getQueue
    simp only
    split
    next hany =>
      have hfront : ∀ queue ∈ s.queues.head?, priority < queue.priority := by
        intro queue hqueue
        rw [Option.mem_def] at hqueue
        simpa [hqueue] using hany
      cases allocOk with
      | false => exact Or.inl ⟨rfl, rfl, hmem⟩
      | true =>
          exact Or.inr ⟨_, rfl, Or.inl rfl, got_front hsorted hfront⟩
    next hany =>
      have hfront : ∀ queue ∈ s.queues.head?, queue.priority ≤ priority := by
        intro queue hqueue
        rw [Option.mem_def] at hqueue
        simpa [hqueue] using hany
      split
      next hslot => exact absurd (mem_of_findSlot_existing hslot) hmem
      next hslot =>
        have hnil := eq_nil_of_findSlot hslot
        cases allocOk with
        | false => exact Or.inl ⟨rfl, rfl, hmem⟩
        | true =>
            refine Or.inr ⟨_, rfl, Or.inl rfl, got_front hsorted ?_⟩
            simp [hnil]
      next after hslot =>
        cases allocOk with
        | false => exact Or.inl ⟨rfl, rfl, hmem⟩
        | true =>
            exact Or.inr
              ⟨_, rfl, Or.inl rfl, got_after hsorted hfront hslot⟩

variable (allocOk) in
/-- `sched_queue` puts the thread into one queue, or changes nothing. -/
theorem schedQueue_cases (hsorted : Sorted s.queues) (t : ℕ) :
    (schedQueue s allocOk t = (.error .enomem, s) ∧ allocOk = false ∧
      ¬s.HasQueue (s.thread t).priority) ∨
    ∃ s', schedQueue s allocOk t = (.ok (), s') ∧
      (allocOk = true ∨ s.HasQueue (s.thread t).priority) ∧
      s.SameButQueues s' ∧ s'.queued ~ t :: s.queued ∧
      Sorted s'.queues := by
  rcases getQueue_cases allocOk (s.thread t).priority hsorted with
    ⟨hget, hno⟩ | ⟨s', hget, hroom, hgot⟩
  · exact Or.inl ⟨by simp [schedQueue, hget], hno⟩
  · refine Or.inr ⟨_, by rw [schedQueue, hget], hroom, ?_, ?_, ?_⟩
    · have hsame := hgot.same
      unfold Kernel.SameButQueues at hsame ⊢
      rw [hsame]
    · have hpush := threads_push (t := t) hgot.hasQueue
      rw [← hgot.queued]
      exact hpush
    · unfold Sorted
      rw [priority_updateQueue (by simp)]
      exact hgot.sorted

end Getting

/-! ## Picking a thread -/

section Picking

variable {s s' : Kernel}

/-- Picking changes the opportunities and the order in which the queues are
visited. -/
structure Picks (s s' : Kernel) : Prop where
  same : s.SameButQueues s'
  priorities : s'.queues.map SchedQueue.priority =
    s.queues.map SchedQueue.priority

theorem picks_select {priority : ℤ} (h : Picks s s') :
    Picks s (s'.select priority) := by
  constructor
  · have hsame := h.same
    unfold Kernel.SameButQueues at hsame ⊢
    rw [hsame]
    rfl
  · rw [← h.priorities]
    exact priority_updateQueue (by simp)

theorem queued_select (priority : ℤ) :
    (s.select priority).queued = s.queued :=
  threads_updateQueue (by simp)

theorem pickNextQueue_spec {next : Option ℤ}
    (h : pickNextQueue s = (next, s')) :
    Picks s s' ∧ s'.queued = s.queued := by
  unfold pickNextQueue at h
  split at h
  · cases h
    exact ⟨picks_select ⟨rfl, rfl⟩, queued_select _⟩
  · split at h
    · cases h
      exact ⟨⟨rfl, rfl⟩, rfl⟩
    · cases h
      refine ⟨picks_select ⟨rfl, priority_resetQueues⟩, ?_⟩
      rw [queued_select]
      exact threads_resetQueues

theorem removeBack_spec {priority : ℤ} {r : Option ℕ}
    (h : removeBack s priority = (r, s')) :
    Picks s s' ∧ s.queued ~ r.toList ++ s'.queued := by
  unfold removeBack at h
  split at h
  · cases h
    exact ⟨⟨rfl, rfl⟩, by simp⟩
  next queue hfind =>
    cases h
    refine ⟨⟨rfl, priority_updateQueue (by simp)⟩, ?_⟩
    cases hlast : queue.threads.getLast? with
    | none =>
        rw [Option.toList_none, List.nil_append]
        exact .of_eq (threads_dropLast_of_empty hfind hlast).symm
    | some t => exact threads_dropLast hfind hlast

theorem pickFromWaitlist_cases {waiters : List ℕ} {r : Option ℕ}
    (h : pickFromWaitlist waiters s = .ok (r, s')) :
    (r = none ∧ s' = s) ∨
    ∃ t m, r = some t ∧ t ∈ waiters ∧
      (s.thread t).waitingmutex = some m ∧ (s.mutex m).locked = false ∧
      s' = handOff (s.setMutex m ⟨(s.thread t).desiredLocksource, true⟩)
        t m := by
  induction waiters with
  | nil =>
      cases h
      exact Or.inl ⟨rfl, rfl⟩
  | cons t rest ih =>
      unfold pickFromWaitlist at h
      split at h
      · contradiction
      next m hwaiting =>
        unfold mutexTryLock at h
        by_cases hlocked : (s.mutex m).locked = true
        · rw [if_pos hlocked] at h
          rcases ih h with hnone | ⟨t', m', hr, hmem, hfacts⟩
          · exact Or.inl hnone
          · exact Or.inr ⟨t', m', hr, List.mem_cons_of_mem t hmem, hfacts⟩
        · rw [if_neg hlocked] at h
          cases h
          refine Or.inr ⟨t, m, rfl, by simp, hwaiting, ?_, rfl⟩
          simpa using hlocked

/-- One turn of the loop of `pick_next_task`. -/
theorem pickOnce_cases {r : Option ℕ} (h : pickOnce s = .ok (r, s')) :
    (∃ t m, r = some t ∧ t ∈ s.waiting ∧
      (s.thread t).waitingmutex = some m ∧ (s.mutex m).locked = false ∧
      s' = handOff (s.setMutex m ⟨(s.thread t).desiredLocksource, true⟩)
        t m) ∨
    (Picks s s' ∧ s.queued ~ r.toList ++ s'.queued) := by
  unfold pickOnce pickNextTaskFromMutexWaitlist at h
  obtain ⟨⟨waiter, s₁⟩, hwait, hnext⟩ := bind_eq_ok h
  rcases pickFromWaitlist_cases hwait with ⟨rfl, rfl⟩ |
    ⟨t, m, rfl, hmem, hfacts⟩
  · right
    simp only at hnext
    split at hnext
    next s₂ hqueue =>
      cases hnext
      obtain ⟨hpicks, hqueued⟩ := pickNextQueue_spec hqueue
      exact ⟨hpicks, by simp [hqueued]⟩
    next priority s₂ hqueue =>
      obtain ⟨hpicks, hqueued⟩ := pickNextQueue_spec hqueue
      obtain ⟨hpicks', hperm⟩ := removeBack_spec (Except.ok.inj hnext)
      refine ⟨⟨?_, ?_⟩, hqueued ▸ hperm⟩
      · have hsame := hpicks.same
        have hsame' := hpicks'.same
        unfold Kernel.SameButQueues at *
        rw [hsame', hsame]
      · rw [hpicks'.priorities, hpicks.priorities]
  · left
    cases hnext
    exact ⟨t, m, rfl, hmem, hfacts⟩

end Picking
end Sched
end Yjkos
