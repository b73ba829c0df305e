import Yjkos.Machine

/-!
# The scheduler and its mutexes

`kernel/tasks/sched.c` and `kernel/tasks/mutex.c`, from the return of
`sched_init_boot_thread` on: there is a running thread from then on.
Interrupts are off inside the modelled functions, and a list is modelled by
its data from front to back.  Queues have distinct priorities, so the
pointer to a queue is modelled by the priority of that queue.
-/

namespace Yjkos
namespace Sched

structure SourceLocation where
  filename : Option String
  function : Option String
  line : ℤ
deriving Repr, DecidableEq

/-- What `vmemset` and `mutex_unlock` leave. -/
def SourceLocation.zero : SourceLocation := ⟨none, none, 0⟩

structure Mutex where
  locksource : SourceLocation
  locked : Bool
deriving Repr, DecidableEq

structure Thread where
  waitingmutex : Option ℕ
  desiredLocksource : SourceLocation
  priority : ℤ
  shutdown : Bool
deriving Repr, DecidableEq

structure SchedQueue where
  priority : ℤ
  opportunities : ℕ
  threads : List ℕ
deriving Repr, DecidableEq

/-- The static variables of the scheduler, the threads and the mutexes.
`live` records the threads which were handed over to the scheduler and have
not been deleted, and `spinning` that the processor is caught in the endless
loop of `sched_wait_mutex`. -/
structure Kernel where
  queues : List SchedQueue
  currentQueue : Option ℤ
  running : ℕ
  waiting : List ℕ
  thread : ℕ → Thread
  mutex : ℕ → Mutex
  live : List ℕ
  spinning : Bool

def Kernel.setThread (s : Kernel) (t : ℕ) (thread : Thread) : Kernel :=
  { s with thread := Function.update s.thread t thread }

def Kernel.setMutex (s : Kernel) (m : ℕ) (mutex : Mutex) : Kernel :=
  { s with mutex := Function.update s.mutex m mutex }

/-! ## Mutexes -/

def mutexTryLock (s : Kernel) (m : ℕ) (loc : SourceLocation) :
    Bool × Kernel :=
  if (s.mutex m).locked then (false, s) else (true, s.setMutex m ⟨loc, true⟩)

def mutexUnlock (s : Kernel) (m : ℕ) : Kernel :=
  s.setMutex m ⟨SourceLocation.zero, false⟩

/-! ## Queues -/

/-- Applies `f` to the queue of a priority. -/
def updateQueue (priority : ℤ) (f : SchedQueue → SchedQueue) :
    List SchedQueue → List SchedQueue
  | [] => []
  | queue :: rest =>
      if queue.priority = priority then f queue :: rest
      else queue :: updateQueue priority f rest

/-- `list_insert_after`. -/
def insertAfter (after : ℤ) (new : SchedQueue) :
    List SchedQueue → List SchedQueue
  | [] => []
  | queue :: rest =>
      if queue.priority = after then queue :: new :: rest
      else queue :: insertAfter after new rest

/-- Where `get_queue` finds the queue of a priority, or puts a new one. -/
inductive QueueSlot where
  | existing
  | front
  | after (priority : ℤ)
deriving Repr, DecidableEq

/-- The loop of `get_queue`. -/
def findSlot (priority : ℤ) : List SchedQueue → QueueSlot
  | [] => .front
  | [queue] =>
      if queue.priority = priority then .existing else .after queue.priority
  | queue :: nextQueue :: rest =>
      if queue.priority = priority then .existing
      else if queue.priority < priority ∧ priority < nextQueue.priority then
        .after queue.priority
      else findSlot priority (nextQueue :: rest)

/-- The result is the priority of the new queue, or nothing when there is no
memory for it. -/
def allocQueue (s : Kernel) (allocOk : Bool) (after : Option ℤ)
    (priority : ℤ) : Option ℤ × Kernel :=
  let resultqueue := ⟨priority, 0, []⟩
  if allocOk then
    match after with
    | none => (some priority, { s with queues := resultqueue :: s.queues })
    | some after =>
        (some priority,
          { s with queues := insertAfter after resultqueue s.queues })
  else (none, s)

def getQueue (s : Kernel) (allocOk : Bool) (priority : ℤ) :
    Option ℤ × Kernel :=
  let shouldInsertFront := s.queues.head?.any (priority < ·.priority)
  if shouldInsertFront then allocQueue s allocOk none priority
  else
    match findSlot priority s.queues with
    | .existing => (some priority, s)
    | .front => allocQueue s allocOk none priority
    | .after after => allocQueue s allocOk (some after) priority

def resetQueues (queues : List SchedQueue) : List SchedQueue :=
  queues.mapIdx (fun i queue => { queue with opportunities := i + 1 })

/-- A queue other than the current one, with opportunities and threads. -/
def Kernel.eligible (s : Kernel) (queue : SchedQueue) : Bool :=
  s.currentQueue ≠ some queue.priority && queue.opportunities ≠ 0 &&
    !queue.threads.isEmpty

/-- The queues from the current one on. -/
def Kernel.fromCurrent (s : Kernel) : List SchedQueue :=
  match s.currentQueue with
  | none => []
  | some priority => s.queues.dropWhile (·.priority ≠ priority)

def Kernel.select (s : Kernel) (priority : ℤ) : Kernel :=
  { s with
    queues := updateQueue priority
      (fun queue => { queue with opportunities := queue.opportunities - 1 })
      s.queues
    currentQueue := some priority }

/-- The first queue is taken after a reset whether it has threads or not. -/
def pickNextQueue (s : Kernel) : Option ℤ × Kernel :=
  match (s.fromCurrent.find? s.eligible).or (s.queues.find? s.eligible) with
  | some queue => (some queue.priority, s.select queue.priority)
  | none =>
      match s.queues with
      | [] => (none, s)
      | queue :: _ =>
          (some queue.priority,
            Kernel.select { s with queues := resetQueues s.queues }
              queue.priority)

/-- `list_remove_back` on the threads of a queue. -/
def removeBack (s : Kernel) (priority : ℤ) : Option ℕ × Kernel :=
  match s.queues.find? (·.priority = priority) with
  | none => (none, s)
  | some queue =>
      (queue.threads.getLast?,
        { s with
          queues := updateQueue priority
            (fun queue => { queue with threads := queue.threads.dropLast })
            s.queues })

/-! ## Picking the next thread -/

/-- The waiter `t` has been given `m`. -/
def handOff (s : Kernel) (t m : ℕ) : Kernel :=
  let s := { s with waiting := s.waiting.erase t }
  let s := if (s.thread t).shutdown then mutexUnlock s m else s
  s.setThread t { s.thread t with waitingmutex := none }

/-- The loop over the wait list. -/
def pickFromWaitlist : List ℕ → Kernel → Except Fault (Option ℕ × Kernel)
  | [], s => .ok (none, s)
  | t :: rest, s =>
      match (s.thread t).waitingmutex with
      | none => .error (.assertion "thread->waitingmutex != nullptr")
      | some m =>
          match mutexTryLock s m (s.thread t).desiredLocksource with
          | (true, s) => .ok (some t, handOff s t m)
          | (false, s) => pickFromWaitlist rest s

def pickNextTaskFromMutexWaitlist (s : Kernel) :
    Except Fault (Option ℕ × Kernel) :=
  pickFromWaitlist s.waiting s

/-- One turn of the loop of `pick_next_task`, up to the test for a thread
which is to be shut down. -/
def pickOnce (s : Kernel) : Except Fault (Option ℕ × Kernel) := do
  match ← pickNextTaskFromMutexWaitlist s with
  | (some t, s) => .ok (some t, s)
  | (none, s) =>
      match pickNextQueue s with
      | (none, s) => .ok (none, s)
      | (some priority, s) => .ok (removeBack s priority)

def threadDelete (s : Kernel) (t : ℕ) : Kernel :=
  { s with live := s.live.erase t }

def pickLoop : ℕ → Kernel → Except Fault (Option ℕ × Kernel)
  | 0, _ => .error .outOfFuel
  | fuel + 1, s => do
      match ← pickOnce s with
      | (none, s) => .ok (none, s)
      | (some t, s) =>
          if (s.thread t).shutdown then pickLoop fuel (threadDelete s t)
          else .ok (some t, s)

/-- The threads which wait for the processor or for a mutex. -/
def Kernel.scheduled (s : Kernel) : List ℕ :=
  s.waiting ++ s.queues.flatMap SchedQueue.threads

/-- Every turn takes one of the scheduled threads out, so the fuel lasts. -/
def pickNextTask (s : Kernel) : Except Fault (Option ℕ × Kernel) :=
  pickLoop (s.scheduled.length + 1) s

/-! ## Entry points -/

def schedQueue (s : Kernel) (allocOk : Bool) (t : ℕ) :
    Except Errno Unit × Kernel :=
  match getQueue s allocOk (s.thread t).priority with
  | (none, s) => (.error .enomem, s)
  | (some priority, s) =>
      (.ok (),
        { s with
          queues := updateQueue priority
            (fun queue => { queue with threads := t :: queue.threads })
            s.queues })

def schedWaitMutex (s : Kernel) (m : ℕ) (locksource : SourceLocation) :
    Except Fault Kernel := do
  cAssert (s.mutex m).locked "mutex->locked"
  let s := s.setThread s.running
    { s.thread s.running with desiredLocksource := locksource }
  match ← pickNextTask s with
  | (none, s) => .ok { s with spinning := true }
  | (some nextthread, s) => do
      let oldthread := s.running
      cAssert ((s.thread oldthread).waitingmutex = none)
        "s_runningthread->waitingmutex == nullptr"
      let s := s.setThread oldthread
        { s.thread oldthread with waitingmutex := some m }
      let s := { s with waiting := oldthread :: s.waiting }
      cAssert (nextthread ≠ oldthread) "nextthread != oldthread"
      .ok { s with running := nextthread }

/-- A failed `sched_queue` is reported on the console only. -/
def schedSchedule (s : Kernel) (allocOk : Bool) : Except Fault Kernel := do
  match ← pickNextTask s with
  | (none, s) => .ok s
  | (some nextthread, s) => do
      let oldthread := s.running
      let (_, s) := schedQueue s allocOk oldthread
      cAssert (nextthread ≠ oldthread) "nextthread != oldthread"
      .ok { s with running := nextthread }

/-- `thread_create`, a priority for the thread, and `sched_queue`. -/
def queueNew (s : Kernel) (allocOk : Bool) (t : ℕ) (priority : ℤ) :
    Kernel :=
  let s := s.setThread t ⟨none, SourceLocation.zero, priority, false⟩
  match schedQueue s allocOk t with
  | (.error _, s) => s
  | (.ok (), s) => { s with live := t :: s.live }

end Sched
end Yjkos
