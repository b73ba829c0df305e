import Yjkos.SchedPick
import Yjkos.TransitionRun

/-!
# The queue table and its rounds

`get_queue` and `pick_next_queue` in any order, while threads come and go.  A
round lasts from one reset of the opportunities to the next one.  What a queue
has left of its opportunities and how often it has been returned add up to
what the reset gave it.
-/

namespace Yjkos
namespace Sched

/-! ## Opportunities -/

/-- The opportunities of the queue of a priority. -/
def opportunitiesOf (queues : List SchedQueue) (priority : ℤ) : ℕ :=
  ((queues.find? (·.priority = priority)).map SchedQueue.opportunities).getD 0

/-- The next queue is picked after a reset. -/
def Kernel.resets (s : Kernel) : Bool :=
  !s.queues.isEmpty &&
    ((s.fromCurrent.find? s.eligible).or (s.queues.find? s.eligible)).isNone

/-- The queues as they are when one of them is charged. -/
def Kernel.charged (s : Kernel) : List SchedQueue :=
  if s.resets then resetQueues s.queues else s.queues

section Opportunities

variable {queues : List SchedQueue} {priority p : ℤ}

theorem opportunitiesOf_cons (queue : SchedQueue) :
    opportunitiesOf (queue :: queues) p =
      if queue.priority = p then queue.opportunities
      else opportunitiesOf queues p := by
  unfold opportunitiesOf
  rw [List.find?_cons]
  by_cases heq : queue.priority = p
  · simp [heq]
  · simp [heq]

theorem opportunitiesOf_of_not_mem
    (h : p ∉ queues.map SchedQueue.priority) :
    opportunitiesOf queues p = 0 := by
  induction queues with
  | nil => rfl
  | cons queue rest ih =>
      rw [List.map_cons, List.mem_cons, not_or] at h
      rw [opportunitiesOf_cons, if_neg (Ne.symm h.1), ih h.2]

theorem opportunitiesOf_of_mem (hsorted : Sorted queues) {queue : SchedQueue}
    (h : queue ∈ queues) :
    opportunitiesOf queues queue.priority = queue.opportunities := by
  induction queues with
  | nil => cases h
  | cons first rest ih =>
      obtain ⟨hlater, hrest⟩ := sorted_cons.mp hsorted
      rw [opportunitiesOf_cons]
      rcases List.mem_cons.mp h with rfl | hmem
      · exact if_pos rfl
      · have hlt := hlater _ (List.mem_map_of_mem hmem)
        rw [if_neg hlt.ne, ih hrest hmem]

theorem opportunitiesOf_updateQueue (f : SchedQueue → SchedQueue)
    (g : ℕ → ℕ) (hpriority : ∀ q, (f q).priority = q.priority)
    (hg : ∀ q, (f q).opportunities = g q.opportunities)
    (hmem : priority ∈ queues.map SchedQueue.priority) :
    opportunitiesOf (updateQueue priority f queues) p =
      if p = priority then g (opportunitiesOf queues p)
      else opportunitiesOf queues p := by
  induction queues with
  | nil => cases hmem
  | cons queue rest ih =>
      unfold updateQueue
      split
      next heq =>
        rw [opportunitiesOf_cons, opportunitiesOf_cons, hpriority, hg, heq]
        by_cases hp : priority = p
        · rw [if_pos hp, if_pos hp.symm, if_pos hp]
        · rw [if_neg hp, if_neg (Ne.symm hp), if_neg hp]
      next hne =>
        have hrest : priority ∈ rest.map SchedQueue.priority := by
          rcases List.mem_cons.mp hmem with heq | hrest
          · exact absurd heq.symm hne
          · exact hrest
        rw [opportunitiesOf_cons, opportunitiesOf_cons, ih hrest]
        by_cases hp : queue.priority = p
        · rw [if_pos hp, if_pos hp, if_neg (fun heq => hne (hp.trans heq))]
        · rw [if_neg hp, if_neg hp]

theorem opportunitiesOf_insertAfter {after : ℤ}
    (hnew : priority ∉ queues.map SchedQueue.priority) :
    opportunitiesOf (insertAfter after ⟨priority, 0, []⟩ queues) p =
      opportunitiesOf queues p := by
  induction queues with
  | nil => rfl
  | cons queue rest ih =>
      rw [List.map_cons, List.mem_cons, not_or] at hnew
      unfold insertAfter
      split
      · rw [opportunitiesOf_cons, opportunitiesOf_cons, opportunitiesOf_cons]
        split
        · rfl
        · split
          next heq => rw [opportunitiesOf_of_not_mem (heq ▸ hnew.2)]
          next => rfl
      · rw [opportunitiesOf_cons, opportunitiesOf_cons, ih hnew.2]

theorem opportunitiesOf_map (f : SchedQueue → SchedQueue)
    (hpriority : ∀ q, (f q).priority = q.priority)
    (hopportunities : ∀ q, (f q).opportunities = q.opportunities) :
    opportunitiesOf (queues.map f) p = opportunitiesOf queues p := by
  induction queues with
  | nil => rfl
  | cons queue rest ih =>
      rw [List.map_cons, opportunitiesOf_cons, opportunitiesOf_cons,
        hpriority, hopportunities, ih]

end Opportunities

/-! ## The two functions -/

section Functions

variable {s s' : Kernel} {priority p : ℤ} {allocOk : Bool}

theorem opportunitiesOf_getQueue {next : Option ℤ} (hsorted : Sorted s.queues)
    (h : getQueue s allocOk priority = (next, s')) :
    opportunitiesOf s'.queues p = opportunitiesOf s.queues p := by
  by_cases hmem : s.HasQueue priority
  · rw [getQueue_of_hasQueue hsorted hmem] at h
    cases h
    rfl
  · have hfront : opportunitiesOf (⟨priority, 0, []⟩ :: s.queues) p =
        opportunitiesOf s.queues p := by
      rw [opportunitiesOf_cons]
      split
      next heq => rw [opportunitiesOf_of_not_mem (heq ▸ hmem)]
      next => rfl
    unfold getQueue allocQueue at h
    dsimp only at h
    split at h
    · split at h
      · cases h
        exact hfront
      · cases h
        rfl
    · split at h
      next hslot => exact absurd (mem_of_findSlot_existing hslot) hmem
      next =>
        split at h
        · cases h
          exact hfront
        · cases h
          rfl
      next =>
        split at h
        · cases h
          exact opportunitiesOf_insertAfter hmem
        · cases h
          rfl

theorem opportunitiesOf_select (hmem : s.HasQueue priority)
    (hne : opportunitiesOf s.queues priority ≠ 0) (p : ℤ) :
    opportunitiesOf s.queues p =
      opportunitiesOf (s.select priority).queues p +
        if p = priority then 1 else 0 := by
  have hselect := opportunitiesOf_updateQueue (p := p)
    (fun queue => { queue with opportunities := queue.opportunities - 1 })
    (fun n => n - 1) (fun _ => rfl) (fun _ => rfl) hmem
  unfold Kernel.select
  rw [hselect]
  by_cases hp : p = priority
  · subst hp
    simp only [if_true]
    omega
  · rw [if_neg hp, if_neg hp, Nat.add_zero]

/-- A queue which is returned had an opportunity, which it is charged. -/
theorem pickNextQueue_charges (hsorted : Sorted s.queues)
    (h : pickNextQueue s = (some priority, s')) :
    s.HasQueue priority ∧ ∀ p, opportunitiesOf s.charged p =
      opportunitiesOf s'.queues p + if p = priority then 1 else 0 := by
  unfold pickNextQueue at h
  split at h
  next queue hfound =>
    have hcharged : s.charged = s.queues := by
      unfold Kernel.charged Kernel.resets
      rw [hfound, Option.isNone_some, Bool.and_false]
      rfl
    have hqueue : queue ∈ s.queues ∧ s.eligible queue = true := by
      rcases Option.or_eq_some_iff.mp hfound with hfirst | ⟨-, hsecond⟩
      · refine ⟨?_, List.find?_some hfirst⟩
        have hmem := List.mem_of_find?_eq_some hfirst
        unfold Kernel.fromCurrent at hmem
        split at hmem
        · cases hmem
        · exact (List.dropWhile_sublist _).subset hmem
      · exact ⟨List.mem_of_find?_eq_some hsecond, List.find?_some hsecond⟩
    cases h
    have hmem := List.mem_map_of_mem (f := SchedQueue.priority) hqueue.1
    refine ⟨hmem, ?_⟩
    rw [hcharged]
    refine opportunitiesOf_select hmem ?_
    rw [opportunitiesOf_of_mem hsorted hqueue.1]
    have helig := hqueue.2
    unfold Kernel.eligible at helig
    simp only [Bool.and_eq_true, decide_eq_true_eq] at helig
    exact helig.1.2
  next hnone =>
    split at h
    next => cases h
    next queue rest hqueues =>
      cases h
      have hcharged : s.charged = resetQueues s.queues := by
        unfold Kernel.charged Kernel.resets
        rw [hnone, hqueues]
        rfl
      refine ⟨by simp [Kernel.HasQueue, hqueues], ?_⟩
      rw [hcharged]
      refine opportunitiesOf_select
        (s := { s with queues := resetQueues s.queues }) ?_ ?_
      · unfold Kernel.HasQueue
        rw [priority_resetQueues, hqueues]
        exact List.mem_cons_self
      · dsimp only
        rw [hqueues]
        unfold resetQueues
        rw [List.mapIdx_cons, opportunitiesOf_cons, if_pos rfl]
        exact Nat.succ_ne_zero 0

theorem mem_insertAfter_of_mem {after : ℤ} {new : SchedQueue}
    {queues : List SchedQueue} (h : p ∈ queues.map SchedQueue.priority) :
    p ∈ (insertAfter after new queues).map SchedQueue.priority := by
  induction queues with
  | nil => cases h
  | cons queue rest ih =>
      unfold insertAfter
      rcases List.mem_cons.mp h with rfl | hrest
      · split <;> exact List.mem_cons_self
      · split
        · exact List.mem_cons_of_mem _ (List.mem_cons_of_mem _ hrest)
        · exact List.mem_cons_of_mem _ (ih hrest)

theorem hasQueue_getQueue {next : Option ℤ}
    (h : getQueue s allocOk priority = (next, s')) (hp : s.HasQueue p) :
    s'.HasQueue p := by
  unfold getQueue allocQueue at h
  dsimp only at h
  have hfront : p ∈ (⟨priority, 0, []⟩ :: s.queues : List SchedQueue).map
      SchedQueue.priority := List.mem_cons_of_mem _ hp
  split at h
  · split at h <;> cases h
    · exact hfront
    · exact hp
  · split at h
    · cases h
      exact hp
    · split at h <;> cases h
      · exact hfront
      · exact hp
    · split at h <;> cases h
      · exact mem_insertAfter_of_mem hp
      · exact hp

end Functions

/-! ## Rounds -/

/-- The scheduler, and what happened in the current round. -/
structure Rounds where
  kernel : Kernel
  /-- What the last reset gave to the queue of a priority. -/
  granted : ℤ → ℕ
  /-- How often the queue of a priority was returned since then. -/
  returned : ℤ → ℕ
  /-- The priorities whose queues were made since then. -/
  created : List ℤ

inductive TableOp where
  | getQueue (priority : ℤ) (allocOk : Bool)
  | pickNextQueue
  /-- Threads are put into the queues and taken out of them. -/
  | threads (f : ℤ → List ℕ)

def Rounds.getQueue (r : Rounds) (priority : ℤ) (allocOk : Bool) : Rounds :=
  let s := (Sched.getQueue r.kernel allocOk priority).2
  let priorities := r.kernel.queues.map SchedQueue.priority
  { r with
    kernel := s
    created := (s.queues.map SchedQueue.priority).filter (· ∉ priorities) ++
      r.created }

/-- A new round begins when the opportunities are reset. -/
def Rounds.begin (r : Rounds) : Rounds :=
  if r.kernel.resets then
    { r with
      granted := opportunitiesOf (resetQueues r.kernel.queues)
      returned := fun _ => 0
      created := [] }
  else r

def Rounds.pickNextQueue (r : Rounds) : Rounds :=
  let r := r.begin
  match Sched.pickNextQueue r.kernel with
  | (none, s) => { r with kernel := s }
  | (some priority, s) =>
      { r with
        kernel := s
        returned := Function.update r.returned priority
          (r.returned priority + 1) }

def tableStep (r : Rounds) : TableOp → Except Fault Rounds
  | .getQueue priority allocOk => .ok (r.getQueue priority allocOk)
  | .pickNextQueue => .ok r.pickNextQueue
  | .threads f =>
      .ok { r with
        kernel := { r.kernel with
          queues := r.kernel.queues.map
            (fun queue => { queue with threads := f queue.priority }) } }

/-- There are no queues, and there was no reset. -/
structure TableStart (r : Rounds) : Prop where
  queues : r.kernel.queues = []
  currentQueue : r.kernel.currentQueue = none
  granted : ∀ p, r.granted p = 0
  returned : ∀ p, r.returned p = 0
  created : r.created = []

/-- The queues are in order, a queue is charged an opportunity which it has,
and no queue was returned more often than it may be. -/
structure Rounds.Kept (r : Rounds) : Prop where
  sorted : Sorted r.kernel.queues
  getQueue : ∀ priority allocOk next s',
    Sched.getQueue r.kernel allocOk priority = (next, s') →
      (next = some priority ∧ s'.HasQueue priority) ∨
        (next = none ∧ allocOk = false)
  charged : ∀ priority s',
    Sched.pickNextQueue r.kernel = (some priority, s') →
      opportunitiesOf s'.queues priority + 1 =
        opportunitiesOf r.kernel.charged priority
  returned : ∀ p, r.returned p ≤ r.granted p
  created : ∀ p ∈ r.created, r.returned p = 0

/-- The opportunities which are left and those which were used. -/
structure Rounds.Balanced (r : Rounds) : Prop where
  sorted : Sorted r.kernel.queues
  balance : ∀ p,
    opportunitiesOf r.kernel.queues p + r.returned p = r.granted p
  unknown : ∀ p, ¬r.kernel.HasQueue p → r.granted p = 0
  created : ∀ p ∈ r.created, r.granted p = 0

section Rounds

variable {r : Rounds}

theorem TableStart.balanced (h : TableStart r) : r.Balanced where
  sorted := by simp [Sorted, h.queues]
  balance := by simp [h.queues, h.returned, h.granted, opportunitiesOf]
  unknown := fun p _ => h.granted p
  created := by simp [h.created]

theorem Rounds.Balanced.getQueue (h : r.Balanced) (priority : ℤ)
    (allocOk : Bool) : (r.getQueue priority allocOk).Balanced := by
  obtain ⟨⟨next, s'⟩, hget⟩ : ∃ got,
      Sched.getQueue r.kernel allocOk priority = got := ⟨_, rfl⟩
  unfold Rounds.getQueue
  rw [hget]
  constructor
  · rcases getQueue_cases allocOk priority h.sorted with
      ⟨hnone, -⟩ | ⟨s₁, hsome, -, hgot⟩
    · rw [hget] at hnone
      cases hnone
      exact h.sorted
    · rw [hget] at hsome
      cases hsome
      exact hgot.sorted
  · intro p
    dsimp only
    rw [opportunitiesOf_getQueue h.sorted hget]
    exact h.balance p
  · exact fun p hp => h.unknown p fun hmem => hp (hasQueue_getQueue hget hmem)
  · intro p hp
    rcases List.mem_append.mp hp with hnew | hold
    · have hnot : p ∉ r.kernel.queues.map SchedQueue.priority := by
        simpa using (List.mem_filter.mp hnew).2
      exact h.unknown p hnot
    · exact h.created p hold

theorem begin_kernel (r : Rounds) : r.begin.kernel = r.kernel := by
  unfold Rounds.begin
  split <;> rfl

theorem Rounds.Balanced.begin (h : r.Balanced) :
    (∀ p, opportunitiesOf r.kernel.charged p + r.begin.returned p =
      r.begin.granted p) ∧
    (∀ p, ¬r.kernel.HasQueue p → r.begin.granted p = 0) ∧
    ∀ p ∈ r.begin.created, r.begin.granted p = 0 := by
  unfold Rounds.begin Kernel.charged
  split
  next =>
    refine ⟨fun p => rfl, fun p hp => ?_, fun p hp => absurd hp (by simp)⟩
    refine opportunitiesOf_of_not_mem ?_
    rw [priority_resetQueues]
    exact hp
  next => exact ⟨h.balance, h.unknown, h.created⟩

theorem Rounds.Balanced.pickNextQueue (h : r.Balanced) :
    r.pickNextQueue.Balanced := by
  obtain ⟨hbalance, hunknown, hcreated⟩ := h.begin
  obtain ⟨⟨next, s'⟩, hpick⟩ : ∃ picked,
      Sched.pickNextQueue r.kernel = picked := ⟨_, rfl⟩
  have hpriorities := (pickNextQueue_spec hpick).1.priorities
  have hsorted : Sorted s'.queues := by
    unfold Sorted
    rw [hpriorities]
    exact h.sorted
  have hunknown' : ∀ p, ¬s'.HasQueue p → r.begin.granted p = 0 := by
    intro p hp
    unfold Kernel.HasQueue at hp
    rw [hpriorities] at hp
    exact hunknown p hp
  unfold Rounds.pickNextQueue
  simp only [begin_kernel, hpick]
  cases next with
  | none =>
      refine ⟨hsorted, ?_, hunknown', hcreated⟩
      have hqueues : r.kernel.queues = [] ∧ s' = r.kernel := by
        unfold Sched.pickNextQueue at hpick
        split at hpick
        · cases hpick
        · split at hpick
          next hnil =>
            cases hpick
            exact ⟨hnil, rfl⟩
          next => cases hpick
      have hcharged : r.kernel.charged = r.kernel.queues := by
        unfold Kernel.charged Kernel.resets
        rw [hqueues.1]
        rfl
      rw [hcharged] at hbalance
      rw [hqueues.2]
      exact hbalance
  | some priority =>
      refine ⟨hsorted, fun p => ?_, hunknown', hcreated⟩
      have hcharge := (pickNextQueue_charges h.sorted hpick).2 p
      have hbefore := hbalance p
      rw [hcharge] at hbefore
      dsimp only
      by_cases hp : p = priority
      · subst hp
        rw [Function.update_self]
        rw [if_pos rfl] at hbefore
        omega
      · rw [Function.update_of_ne hp]
        rw [if_neg hp] at hbefore
        omega

theorem Rounds.Balanced.kept (h : r.Balanced) : r.Kept where
  sorted := h.sorted
  getQueue := by
    intro priority allocOk next s' hget
    rcases getQueue_cases allocOk priority h.sorted with
      ⟨hnone, hfail, -⟩ | ⟨s₁, hsome, -, hgot⟩
    · rw [hget] at hnone
      cases hnone
      exact Or.inr ⟨rfl, hfail⟩
    · rw [hget] at hsome
      cases hsome
      exact Or.inl ⟨rfl, hgot.hasQueue⟩
  charged := by
    intro priority s' hpick
    have hcharge := (pickNextQueue_charges h.sorted hpick).2 priority
    rw [if_pos rfl] at hcharge
    exact hcharge.symm
  returned := fun p => h.balance p ▸ Nat.le_add_left _ _
  created := by
    intro p hp
    have hbalance := h.balance p
    rw [h.created p hp] at hbalance
    omega

/-- In every run the queue table and the accounts of the round are in
order. -/
theorem queue_table_kept
    (hreach : TransitionRun.Reachable TableStart (fun _ _ => True) tableStep
      r) : r.Kept := by
  have hbalanced : r.Balanced := by
    apply hreach.invariant
    · exact fun r hstart => hstart.balanced
    · intro r op r' h _ hstep
      cases op with
      | getQueue priority allocOk =>
          cases hstep
          exact h.getQueue priority allocOk
      | pickNextQueue =>
          cases hstep
          exact h.pickNextQueue
      | threads f =>
          cases hstep
          refine ⟨?_, fun p => ?_, fun p hp => ?_, h.created⟩
          · unfold Sorted
            rw [List.map_map]
            exact h.sorted
          · have hbalance := h.balance p
            rw [← opportunitiesOf_map (fun queue : SchedQueue =>
              { queue with threads := f queue.priority }) (fun _ => rfl)
              (fun _ => rfl)] at hbalance
            exact hbalance
          · refine h.unknown p ?_
            unfold Kernel.HasQueue at hp
            rw [List.map_map] at hp
            exact hp
  exact hbalanced.kept

end Rounds

/-- No queues yet. -/
def emptyTable : Rounds := ⟨⟨[], none, 0, [],
  fun _ => ⟨none, SourceLocation.zero, 20, false⟩,
  fun _ => ⟨SourceLocation.zero, false⟩, [0], false⟩,
  fun _ => 0, fun _ => 0, []⟩

/-- The second queue may be returned twice in a round, and the one which is
made last not at all. -/
theorem queue_table_kept_three_queues :
    ∃ r, TransitionRun.Reachable TableStart (fun _ _ => True) tableStep r ∧
      r.kernel.queues.map SchedQueue.priority = [-1, 5, 20] ∧
      r.returned 20 = 1 ∧ r.granted 20 = 2 ∧ r.created = [5] ∧ r.Kept := by
  have hreach : TransitionRun.Reachable TableStart (fun _ _ => True) tableStep
      emptyTable := .start ⟨rfl, rfl, fun _ => rfl, fun _ => rfl, rfl⟩
  have hreach := hreach.next (a := .getQueue 20 true) trivial rfl
  have hreach := hreach.next (a := .getQueue (-1) true) trivial rfl
  have hreach := hreach.next (a := .threads fun _ => [1, 2]) trivial rfl
  have hreach := hreach.next (a := .pickNextQueue) trivial rfl
  have hreach := hreach.next (a := .getQueue 5 true) trivial rfl
  have hreach := hreach.next (a := .threads fun _ => [3]) trivial rfl
  have hreach := hreach.next (a := .pickNextQueue) trivial rfl
  exact ⟨_, hreach, by decide, by decide, by decide, by decide,
    queue_table_kept hreach⟩

end Sched
end Yjkos
