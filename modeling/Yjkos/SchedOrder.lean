import Yjkos.SchedRounds
import Yjkos.SchedWork

/-!
# The order of priorities

`reset_queues` hands the opportunities out from the front of the list on, and
`get_queue` keeps the lowest value, which is the highest priority, in front.
Here is what a reset gives to the queues, and how often they are picked in a
whole round in which they always have threads.
-/

namespace Yjkos
namespace Sched

/-- A queue of higher priority is given at least as many opportunities. -/
def GrantsHonoured (s : Kernel) : Prop :=
  ∀ queue ∈ resetQueues s.queues, ∀ lower ∈ resetQueues s.queues,
    queue.priority < lower.priority →
      lower.opportunities ≤ queue.opportunities

/-- Threads are put into the queues and taken out of them, and there is one in
every queue. -/
def Threaded (s s' : Kernel) : Prop :=
  ∃ f : ℤ → List ℕ, (∀ p, s.HasQueue p → f p ≠ []) ∧
    s' = { s with
      queues := s.queues.map
        (fun queue => { queue with threads := f queue.priority }) }

/-- The picks of a round, the last one first, from the reset in `s` on. -/
inductive Round (s : Kernel) : List ℤ → Kernel → Prop where
  | reset {p : ℤ} {s₁ s₂ : Kernel} (hpick : pickNextQueue s = (some p, s₁))
      (hthreads : Threaded s₁ s₂) : Round s [p] s₂
  | pick {picks : List ℤ} {p : ℤ} {s₁ s₂ s₃ : Kernel}
      (hround : Round s picks s₁) (hgoes : s₁.resets = false)
      (hpick : pickNextQueue s₁ = (some p, s₂))
      (hthreads : Threaded s₂ s₃) : Round s (p :: picks) s₃

/-- In a whole round, up to the next reset, a queue of higher priority is picked
at least as often. -/
def PicksHonoured (s : Kernel) : Prop :=
  ∀ picks s', Round s picks s' → s'.resets = true →
    ∀ p lower, s.HasQueue p → s.HasQueue lower → p < lower →
      picks.count lower ≤ picks.count p

/-- What the reset in `s` is to give and what the picks behind it are to be. -/
structure PrioritiesHonoured (s : Kernel) : Prop where
  grants : GrantsHonoured s
  picks : PicksHonoured s

/-! ## Resets -/

section Resets

variable {s s' : Kernel} {priority p : ℤ}

theorem resets_iff : s.resets = true ↔
    s.queues ≠ [] ∧ ∀ queue ∈ s.queues, s.eligible queue = false := by
  unfold Kernel.resets
  rw [Bool.and_eq_true, Option.isNone_iff_eq_none, Option.or_eq_none_iff,
    List.find?_eq_none, List.find?_eq_none]
  constructor
  · rintro ⟨hsome, -, hnone⟩
    refine ⟨by simpa using hsome, fun queue hqueue => ?_⟩
    simpa using hnone queue hqueue
  · rintro ⟨hsome, hnone⟩
    refine ⟨by simpa using hsome, ?_, ?_⟩
    · intro queue hqueue
      simp [hnone queue (fromCurrent_subset hqueue)]
    · exact fun queue hqueue => by simp [hnone queue hqueue]

theorem pickNextQueue_resets (h : s.resets = true) {queue : SchedQueue}
    {rest : List SchedQueue} (hqueues : s.queues = queue :: rest)
    (hpick : pickNextQueue s = (some p, s')) :
    p = queue.priority ∧ s'.currentQueue = some p := by
  have hnone := (resets_iff.1 h).2
  have hnext : (s.fromCurrent.find? s.eligible).or
      (s.queues.find? s.eligible) = none := by
    rw [Option.or_eq_none_iff, List.find?_eq_none, List.find?_eq_none]
    constructor
    · exact fun q hq => by simp [hnone q (fromCurrent_subset hq)]
    · exact fun q hq => by simp [hnone q hq]
  unfold pickNextQueue at hpick
  rw [hnext, hqueues] at hpick
  cases hpick
  exact ⟨rfl, rfl⟩

/-- Without a reset the queue which is picked is another one, with
opportunities. -/
theorem pickNextQueue_goes (hqueues : s.queues ≠ []) (h : s.resets = false) :
    ∃ queue s', queue ∈ s.queues ∧ s.currentQueue ≠ some queue.priority ∧
      queue.opportunities ≠ 0 ∧ s' = s.select queue.priority ∧
      pickNextQueue s = (some queue.priority, s') := by
  have hsome : ∃ queue, (s.fromCurrent.find? s.eligible).or
      (s.queues.find? s.eligible) = some queue := by
    cases hnext : (s.fromCurrent.find? s.eligible).or
        (s.queues.find? s.eligible) with
    | some queue => exact ⟨queue, rfl⟩
    | none =>
        unfold Kernel.resets at h
        rw [hnext] at h
        simp [hqueues] at h
  obtain ⟨queue, hfound⟩ := hsome
  have hqueue : queue ∈ s.queues ∧ s.eligible queue = true := by
    rcases Option.or_eq_some_iff.mp hfound with hfirst | ⟨-, hsecond⟩
    · exact ⟨fromCurrent_subset (List.mem_of_find?_eq_some hfirst),
        List.find?_some hfirst⟩
    · exact ⟨List.mem_of_find?_eq_some hsecond, List.find?_some hsecond⟩
  have helig := hqueue.2
  unfold Kernel.eligible at helig
  simp only [Bool.and_eq_true, decide_eq_true_eq] at helig
  refine ⟨queue, _, hqueue.1, helig.1.1, helig.1.2, rfl, ?_⟩
  unfold pickNextQueue
  rw [hfound]

end Resets

/-! ## Threads -/

section Threads

variable {s s' : Kernel} {p : ℤ}

theorem Threaded.priorities (h : Threaded s s') :
    s'.queues.map SchedQueue.priority = s.queues.map SchedQueue.priority := by
  obtain ⟨f, -, rfl⟩ := h
  rw [List.map_map]
  rfl

theorem Threaded.opportunities (h : Threaded s s') :
    opportunitiesOf s'.queues p = opportunitiesOf s.queues p := by
  obtain ⟨f, -, rfl⟩ := h
  exact opportunitiesOf_map _ (fun _ => rfl) (fun _ => rfl)

theorem Threaded.currentQueue (h : Threaded s s') :
    s'.currentQueue = s.currentQueue := by
  obtain ⟨f, -, rfl⟩ := h
  rfl

theorem Threaded.threads (h : Threaded s s') {queue : SchedQueue}
    (hqueue : queue ∈ s'.queues) : queue.threads ≠ [] := by
  obtain ⟨f, hf, rfl⟩ := h
  obtain ⟨before, hbefore, rfl⟩ := List.mem_map.1 hqueue
  exact hf _ (List.mem_map_of_mem hbefore)

/-- There is a thread for every queue. -/
theorem exists_threaded (s : Kernel) : ∃ s', Threaded s s' :=
  ⟨_, fun _ => [0], fun _ _ => List.cons_ne_nil _ _, rfl⟩

end Threads

/-! ## Rounds -/

section Rounds

variable {s s' : Kernel} {picks : List ℤ}

theorem Round.priorities (h : Round s picks s') :
    s'.queues.map SchedQueue.priority = s.queues.map SchedQueue.priority := by
  induction h with
  | reset hpick hthreads =>
      rw [hthreads.priorities, (pickNextQueue_spec hpick).1.priorities]
  | pick hround hgoes hpick hthreads ih =>
      rw [hthreads.priorities, (pickNextQueue_spec hpick).1.priorities, ih]

theorem Round.sorted (h : Round s picks s') (hsorted : Sorted s.queues) :
    Sorted s'.queues := by
  unfold Sorted
  rw [h.priorities]
  exact hsorted

theorem Round.threads (h : Round s picks s') {queue : SchedQueue}
    (hqueue : queue ∈ s'.queues) : queue.threads ≠ [] := by
  cases h with
  | reset hpick hthreads => exact hthreads.threads hqueue
  | pick hround hgoes hpick hthreads => exact hthreads.threads hqueue

/-- What is left and what was picked add up to what the reset gave. -/
theorem Round.balance (h : Round s picks s') (hsorted : Sorted s.queues)
    (hresets : s.resets = true) (p : ℤ) :
    opportunitiesOf s'.queues p + picks.count p =
      opportunitiesOf (resetQueues s.queues) p := by
  induction h with
  | @reset q s₁ s₂ hpick hthreads =>
      have hcharge := (pickNextQueue_charges hsorted hpick).2 p
      unfold Kernel.charged at hcharge
      rw [if_pos hresets] at hcharge
      rw [hthreads.opportunities, hcharge, List.count_singleton]
      by_cases hp : p = q
      · simp [hp]
      · simp [hp, Ne.symm hp]
  | @pick picks q s₁ s₂ s₃ hround hgoes hpick hthreads ih =>
      have hcharge := (pickNextQueue_charges (hround.sorted hsorted) hpick).2 p
      unfold Kernel.charged at hcharge
      rw [if_neg (by simp [hgoes])] at hcharge
      rw [hthreads.opportunities, ← ih, hcharge, List.count_cons]
      by_cases hp : p = q
      · simp [hp]
        omega
      · simp [hp, Ne.symm hp]

/-- A round can be played to its end. -/
theorem Round.exists_whole (h : Round s picks s') (hsorted : Sorted s.queues)
    (hqueues : s.queues ≠ []) : ∃ picks s', Round s picks s' ∧
      s'.resets = true := by
  obtain ⟨left, hleft⟩ : ∃ left, left = ((s.queues.map SchedQueue.priority).map
      (opportunitiesOf s'.queues)).sum := ⟨_, rfl⟩
  induction left using Nat.strong_induction_on generalizing picks s' with
  | _ left ih =>
      cases hresets : s'.resets with
      | true => exact ⟨picks, s', h, hresets⟩
      | false =>
          have hpriorities := h.priorities
          have hsome : s'.queues ≠ [] := by
            intro hnil
            rw [hnil] at hpriorities
            exact hqueues (List.map_eq_nil_iff.1 hpriorities.symm)
          obtain ⟨queue, s₂, hqueue, -, -, -, hpick⟩ :=
            pickNextQueue_goes hsome hresets
          obtain ⟨s₃, hthreads⟩ := exists_threaded s₂
          obtain ⟨hmem, hcharge⟩ :=
            pickNextQueue_charges (h.sorted hsorted) hpick
          unfold Kernel.charged at hcharge
          rw [if_neg (by simp [hresets])] at hcharge
          unfold Kernel.HasQueue at hmem
          rw [hpriorities] at hmem
          refine ih _ ?_ (h.pick hresets hpick hthreads) rfl
          rw [hleft]
          refine List.sum_lt_sum _ _ ?_ ⟨queue.priority, hmem, ?_⟩
          · intro p _
            rw [hthreads.opportunities, hcharge p]
            exact Nat.le_add_right _ _
          · rw [hthreads.opportunities, hcharge, if_pos rfl]
            exact Nat.lt_succ_self _

/-- At the end of a round there is nothing left but for the current queue. -/
theorem Round.spent (h : Round s picks s') (hsorted : Sorted s.queues)
    (hresets' : s'.resets = true) {p : ℤ} (hp : s'.currentQueue ≠ some p) :
    opportunitiesOf s'.queues p = 0 := by
  by_cases hmem : p ∈ s'.queues.map SchedQueue.priority
  · obtain ⟨queue, hqueue, rfl⟩ := List.mem_map.1 hmem
    have hnone := (resets_iff.1 hresets').2 queue hqueue
    have hthreads := h.threads hqueue
    rw [opportunitiesOf_of_mem (h.sorted hsorted) hqueue]
    unfold Kernel.eligible at hnone
    simpa [hp, hthreads] using hnone
  · exact opportunitiesOf_of_not_mem hmem

end Rounds

/-! ## The two directions -/

section Directions

variable {s s' : Kernel} {picks : List ℤ}

/-- What a reset gives to the first three queues. -/
theorem opportunitiesOf_resetQueues {a b : SchedQueue}
    {rest : List SchedQueue} (hsorted : Sorted (a :: b :: rest)) :
    opportunitiesOf (resetQueues (a :: b :: rest)) a.priority = 1 ∧
      opportunitiesOf (resetQueues (a :: b :: rest)) b.priority = 2 ∧
      ∀ c ∈ rest.head?,
        opportunitiesOf (resetQueues (a :: b :: rest)) c.priority = 3 := by
  obtain ⟨ha, hrest⟩ := sorted_cons.1 hsorted
  obtain ⟨hb, -⟩ := sorted_cons.1 hrest
  have hab : a.priority ≠ b.priority := (ha _ (by simp)).ne
  unfold resetQueues
  simp only [List.mapIdx_cons, opportunitiesOf_cons, if_true, if_neg hab]
  refine ⟨trivial, trivial, ?_⟩
  intro c hc
  cases rest with
  | nil => cases hc
  | cons first rest =>
      obtain rfl : first = c := by simpa using hc
      have hac : a.priority ≠ first.priority := (ha _ (by simp)).ne
      have hbc : b.priority ≠ first.priority := (hb _ (by simp)).ne
      simp only [List.mapIdx_cons, opportunitiesOf_cons, if_true, if_neg hac,
        if_neg hbc]

theorem not_grantsHonoured {a b : SchedQueue} {rest : List SchedQueue}
    (hqueues : s.queues = a :: b :: rest) (hsorted : Sorted s.queues) :
    ¬GrantsHonoured s := by
  intro h
  rw [hqueues] at hsorted
  have hlt : a.priority < b.priority := (sorted_cons.1 hsorted).1 _ (by simp)
  have hle := h { a with opportunities := 1 }
    (by rw [hqueues, resetQueues, List.mapIdx_cons]; exact List.mem_cons_self)
    { b with opportunities := 2 }
    (by
      rw [hqueues, resetQueues, List.mapIdx_cons, List.mapIdx_cons]
      exact List.mem_cons_of_mem _ List.mem_cons_self) hlt
  exact Nat.not_succ_le_self 1 hle

/-- Of three queues the second or the third is picked more often than the
first. -/
theorem not_picksHonoured {a b c : SchedQueue} {rest : List SchedQueue}
    (hqueues : s.queues = a :: b :: c :: rest) (hsorted : Sorted s.queues)
    (hresets : s.resets = true) : ¬PicksHonoured s := by
  intro h
  have hsome : s.queues ≠ [] := by
    rw [hqueues]
    exact List.cons_ne_nil _ _
  obtain ⟨s₁, hpick⟩ : ∃ s₁, pickNextQueue s = (some a.priority, s₁) := by
    obtain ⟨⟨next, s₁⟩, hpick⟩ : ∃ picked, pickNextQueue s = picked := ⟨_, rfl⟩
    rcases (pickNextQueue_cases hpick).2 with ⟨queue, hqueue, helig, -⟩ |
      ⟨-, hnext⟩
    · rw [(resets_iff.1 hresets).2 queue hqueue] at helig
      cases helig
    · rw [hqueues] at hnext
      exact ⟨s₁, by rw [hpick, hnext]; rfl⟩
  obtain ⟨s₂, hthreads⟩ := exists_threaded s₁
  obtain ⟨picks, s', hround, hend⟩ :=
    (Round.reset hpick hthreads).exists_whole hsorted hsome
  have hbalance := hround.balance hsorted hresets
  have hmem : s.HasQueue a.priority ∧ s.HasQueue b.priority ∧
      s.HasQueue c.priority := by
    unfold Kernel.HasQueue
    rw [hqueues]
    simp
  have hsorted' := hsorted
  rw [hqueues] at hbalance hsorted'
  obtain ⟨hgiveA, hgiveB, hgiveC⟩ := opportunitiesOf_resetQueues hsorted'
  have hlt := (sorted_cons.1 hsorted').1
  have hpicksB := h picks s' hround hend _ _ hmem.1 hmem.2.1 (hlt _ (by simp))
  have hpicksC := h picks s' hround hend _ _ hmem.1 hmem.2.2 (hlt _ (by simp))
  have hA := hbalance a.priority
  rw [hgiveA] at hA
  by_cases hcurrent : s'.currentQueue = some b.priority
  · have hbc : b.priority ≠ c.priority :=
      ((sorted_cons.1 (sorted_cons.1 hsorted').2).1 _ (by simp)).ne
    have hC := hbalance c.priority
    rw [hround.spent hsorted hend (by rw [hcurrent]; simpa using hbc),
      hgiveC c (by simp)] at hC
    omega
  · have hB := hbalance b.priority
    rw [hround.spent hsorted hend hcurrent, hgiveB] at hB
    omega

/-- Two queues are picked once each. -/
theorem Round.two {a b : SchedQueue} (h : Round s picks s')
    (hqueues : s.queues = [a, b]) (hsorted : Sorted s.queues)
    (hresets : s.resets = true) :
    picks = [a.priority] ∧ s'.currentQueue = some a.priority ∨
      picks = [b.priority, a.priority] ∧
        s'.currentQueue = some b.priority := by
  have hgive := hsorted
  rw [hqueues] at hgive
  have hgiveA := (opportunitiesOf_resetQueues hgive).1
  induction h with
  | reset hpick hthreads =>
      obtain ⟨rfl, hcurrent⟩ := pickNextQueue_resets hresets hqueues hpick
      exact Or.inl ⟨rfl, hthreads.currentQueue.trans hcurrent⟩
  | @pick picks q s₁ s₂ s₃ hround hgoes hpick hthreads ih =>
      have hpriorities := hround.priorities
      rw [hqueues] at hpriorities
      have hsome : s₁.queues ≠ [] := by
        intro hnil
        rw [hnil] at hpriorities
        cases hpriorities
      obtain ⟨queue, s₂', hqueue, hne, hleft, hselect, hpick'⟩ :=
        pickNextQueue_goes hsome hgoes
      rw [hpick] at hpick'
      obtain ⟨hq, rfl⟩ := Prod.mk.inj hpick'
      obtain rfl := Option.some.inj hq
      have hmem : queue.priority = a.priority ∨
          queue.priority = b.priority := by
        have hmem := List.mem_map_of_mem (f := SchedQueue.priority) hqueue
        rw [hpriorities] at hmem
        simpa using hmem
      rcases ih with ⟨rfl, hcurrent⟩ | ⟨rfl, hcurrent⟩
      · right
        have hb : queue.priority = b.priority := by
          refine hmem.resolve_left fun ha => hne ?_
          rw [hcurrent, ha]
        refine ⟨by rw [hb], ?_⟩
        rw [hthreads.currentQueue, hselect, ← hb]
        rfl
      · -- The first queue has no opportunity left, and the other is current.
        exfalso
        have ha : queue.priority = a.priority := by
          refine hmem.resolve_right fun hb => hne ?_
          rw [hcurrent, hb]
        have hbalance := hround.balance hsorted hresets a.priority
        rw [hqueues, hgiveA, ← ha,
          opportunitiesOf_of_mem (hround.sorted hsorted) hqueue,
          List.count_cons, List.count_cons] at hbalance
        simp [ha] at hbalance
        omega

theorem picksHonoured_of_le (hlength : s.queues.length ≤ 2)
    (hsorted : Sorted s.queues) (hresets : s.resets = true) :
    PicksHonoured s := by
  intro picks s' hround hend p lower hp hlower hlt
  unfold Kernel.HasQueue at hp hlower
  match hqueues : s.queues with
  | [] =>
      rw [hqueues] at hp
      cases hp
  | [a] =>
      rw [hqueues] at hp hlower
      obtain rfl := List.mem_singleton.1 hp
      obtain rfl := List.mem_singleton.1 hlower
      exact absurd hlt (lt_irrefl _)
  | [a, b] =>
      have hab := hsorted
      rw [hqueues] at hp hlower hab
      have hab : a.priority < b.priority :=
        (sorted_cons.1 hab).1 _ (by simp)
      have hp : p = a.priority ∨ p = b.priority := by simpa using hp
      have hlower : lower = a.priority ∨ lower = b.priority := by
        simpa using hlower
      obtain ⟨rfl, rfl⟩ : p = a.priority ∧ lower = b.priority := by
        rcases hp with rfl | rfl
        · exact ⟨rfl, hlower.resolve_left hlt.ne'⟩
        · rcases hlower with rfl | rfl
          · exact absurd (hlt.trans hab) (lt_irrefl _)
          · exact absurd hlt (lt_irrefl _)
      rcases hround.two hqueues hsorted hresets with ⟨rfl, -⟩ | ⟨rfl, -⟩
      · simp [hab.ne]
      · simp [hab.ne, hab.ne']
  | a :: b :: c :: rest =>
      rw [hqueues] at hlength
      simp at hlength

theorem grantsHonoured_of_le (hlength : s.queues.length ≤ 1) :
    GrantsHonoured s := by
  intro queue hqueue lower hlower hlt
  match hqueues : s.queues with
  | [] =>
      rw [hqueues] at hqueue
      cases hqueue
  | [a] =>
      rw [hqueues] at hqueue hlower
      obtain rfl := List.mem_singleton.1 hqueue
      obtain rfl := List.mem_singleton.1 hlower
      exact absurd hlt (lt_irrefl _)
  | a :: b :: rest =>
      rw [hqueues] at hlength
      simp at hlength

end Directions

/-- The order is kept where there is nothing to order, and the picks are in
order for two queues as well, of which the second is not picked twice in a
row. -/
theorem priorities_honoured_iff {s : Kernel} (hsorted : Sorted s.queues)
    (hresets : s.resets = true) :
    (PrioritiesHonoured s ↔ s.queues.length ≤ 1) ∧
      (PicksHonoured s ↔ s.queues.length ≤ 2) := by
  have hpicks : PicksHonoured s ↔ s.queues.length ≤ 2 := by
    refine ⟨fun h => ?_, fun h => picksHonoured_of_le h hsorted hresets⟩
    match hqueues : s.queues with
    | [] => simp
    | [a] => simp
    | [a, b] => simp
    | a :: b :: c :: rest =>
        exact absurd h (not_picksHonoured hqueues hsorted hresets)
  refine ⟨⟨fun h => ?_, fun h => ⟨grantsHonoured_of_le h,
    picksHonoured_of_le (h.trans (by decide)) hsorted hresets⟩⟩, hpicks⟩
  match hqueues : s.queues with
  | [] => simp
  | [a] => simp
  | a :: b :: rest =>
      exact absurd h.grants (not_grantsHonoured hqueues hsorted)

/-- Queues with a thread each, none of which has an opportunity. -/
def spentQueues (priorities : List ℤ) : Kernel :=
  { emptyTable.kernel with queues := priorities.map (⟨·, 0, [1]⟩) }

theorem priorities_honoured_two :
    (PrioritiesHonoured (spentQueues [0, 20]) ↔
      (spentQueues [0, 20]).queues.length ≤ 1) ∧
    (PicksHonoured (spentQueues [0, 20]) ↔
      (spentQueues [0, 20]).queues.length ≤ 2) :=
  priorities_honoured_iff (by unfold Sorted; decide) (by decide)

/-- The queue of priority 0 is given one opportunity in a round, and the one of
priority 20 two. -/
theorem lower_priority_granted_more :
    ¬PrioritiesHonoured (spentQueues [0, 20]) := by
  intro h
  have hle := h.grants ⟨0, 1, [1]⟩ (by decide) ⟨20, 2, [1]⟩ (by decide)
    (by decide)
  exact absurd hle (by decide)

end Sched
end Yjkos
