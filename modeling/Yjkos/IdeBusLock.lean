import Yjkos.TransitionRun

/-!
# The lock of an IDE bus

`atadisk_op_lock` and `atadisk_op_unlock` of `kernel/arch/i586/dev/idebus.c`,
in atomic steps of any number of threads.  A thread which waits has the
variable `expected` of its own call, and a compare-exchange which fails
stores into it what it has seen.
-/

namespace Yjkos
namespace IdeBus

/-- Where a thread stands in a lock and its unlock. -/
inductive Place where
  | outside
  | waiting (expected : Bool)
  | locked
deriving DecidableEq

structure LockState (Thread : Type) where
  busLockFlag : Bool
  place : Thread → Place

/-- Whether the exchange is made, and what is in the object and in `expected`
behind it. -/
def compareExchangeStrong (object expected desired : Bool) :
    Bool × Bool × Bool :=
  if object = expected then (true, desired, expected)
  else (false, object, object)

inductive LockStep (Thread : Type) where
  | lock (thread : Thread)
  | exchange (thread : Thread)
  | unlock (thread : Thread)

section Steps

variable {Thread : Type} [DecidableEq Thread]

def LockState.goTo (s : LockState Thread) (thread : Thread) (flag : Bool)
    (place : Place) : LockState Thread :=
  ⟨flag, Function.update s.place thread place⟩

/-- A step which the thread cannot make where it stands is an error. -/
def lockStep (s : LockState Thread) :
    LockStep Thread → Except Unit (LockState Thread)
  | .lock thread =>
      match s.place thread with
      | .outside => .ok (s.goTo thread s.busLockFlag (.waiting false))
      | _ => .error ()
  | .exchange thread =>
      match s.place thread with
      | .waiting expected =>
          let (success, flag, expected) :=
            compareExchangeStrong s.busLockFlag expected true
          .ok (s.goTo thread flag
            (if success then .locked else .waiting expected))
      | _ => .error ()
  | .unlock thread =>
      match s.place thread with
      | .locked => .ok (s.goTo thread false .outside)
      | _ => .error ()

/-- Nobody has the lock. -/
def unlocked : LockState Thread := ⟨false, fun _ => .outside⟩

/-- At most one thread is between its lock and its unlock. -/
def Excludes (s : LockState Thread) : Prop :=
  ∀ t u, s.place t = .locked → s.place u = .locked → t = u

def KeepsExclusion (s : LockState Thread) (a : LockStep Thread) : Prop :=
  ∀ s', lockStep s a = .ok s' → Excludes s'

/-- No thread whose last attempt has seen the flag set tries again while it is
set. -/
def ExpectsUnlocked (s : LockState Thread) : LockStep Thread → Prop
  | .exchange thread =>
      s.place thread = .waiting true → s.busLockFlag = false
  | _ => True

/-- The flag is set exactly when a thread has the lock. -/
structure LockInv (s : LockState Thread) : Prop where
  excludes : Excludes s
  flag : s.busLockFlag = true ↔ ∃ t, s.place t = .locked

variable {s : LockState Thread} {thread : Thread}

theorem goTo_place (flag : Bool) (place : Place) (other : Thread) :
    (s.goTo thread flag place).place other =
      if other = thread then place else s.place other :=
  Function.update_apply _ _ _ _

theorem LockInv.goTo_outside (h : LockInv s) (hout : s.place thread ≠ .locked)
    {place : Place} (hplace : place ≠ .locked) :
    LockInv (s.goTo thread s.busLockFlag place) := by
  have hiff : ∀ t, (s.goTo thread s.busLockFlag place).place t = .locked ↔
      s.place t = .locked := by
    intro t
    rw [goTo_place]
    split
    next heq =>
      rw [heq]
      exact iff_of_false hplace hout
    next => exact Iff.rfl
  constructor
  · intro t u ht hu
    exact h.excludes t u ((hiff t).1 ht) ((hiff u).1 hu)
  · exact h.flag.trans (exists_congr fun t => (hiff t).symm)

theorem LockInv.acquire (h : LockInv s) (hflag : s.busLockFlag = false) :
    LockInv (s.goTo thread true .locked) := by
  have hnone : ∀ t, s.place t ≠ .locked := by
    intro t ht
    have hset := h.flag.2 ⟨t, ht⟩
    rw [hflag] at hset
    cases hset
  have hself : ∀ t, (s.goTo thread true .locked).place t = .locked →
      t = thread := by
    intro t ht
    rw [goTo_place] at ht
    split at ht
    next heq => exact heq
    next => exact absurd ht (hnone t)
  constructor
  · intro t u ht hu
    rw [hself t ht, hself u hu]
  · exact iff_of_true rfl ⟨thread, by rw [goTo_place, if_pos rfl]⟩

theorem LockInv.release (h : LockInv s) (hlocked : s.place thread = .locked) :
    LockInv (s.goTo thread false .outside) := by
  have hnone : ∀ t, (s.goTo thread false .outside).place t ≠ .locked := by
    intro t ht
    rw [goTo_place] at ht
    split at ht
    next => cases ht
    next hne => exact hne (h.excludes t thread ht hlocked)
  constructor
  · exact fun t _ ht _ => absurd ht (hnone t)
  · exact iff_of_false Bool.false_ne_true (fun ⟨t, ht⟩ => hnone t ht)

theorem lockStep_inv (h : LockInv s) {a : LockStep Thread}
    {s' : LockState Thread} (hfresh : ExpectsUnlocked s a)
    (hstep : lockStep s a = .ok s') : LockInv s' := by
  cases a with
  | lock thread =>
      cases hplace : s.place thread with
      | outside =>
          rw [lockStep, hplace] at hstep
          cases hstep
          exact h.goTo_outside (by rw [hplace]; nofun) nofun
      | waiting expected =>
          rw [lockStep, hplace] at hstep
          cases hstep
      | locked =>
          rw [lockStep, hplace] at hstep
          cases hstep
  | exchange thread =>
      cases hplace : s.place thread with
      | outside =>
          rw [lockStep, hplace] at hstep
          cases hstep
      | waiting expected =>
          rw [lockStep, hplace] at hstep
          by_cases heq : s.busLockFlag = expected
          · have hflag : s.busLockFlag = false := by
              cases expected with
              | false => exact heq
              | true => exact hfresh hplace
            simp only [compareExchangeStrong, if_pos heq] at hstep
            cases hstep
            exact h.acquire hflag
          · simp only [compareExchangeStrong, if_neg heq] at hstep
            cases hstep
            exact h.goTo_outside (by rw [hplace]; nofun) nofun
      | locked =>
          rw [lockStep, hplace] at hstep
          cases hstep
  | unlock thread =>
      cases hplace : s.place thread with
      | outside =>
          rw [lockStep, hplace] at hstep
          cases hstep
      | waiting expected =>
          rw [lockStep, hplace] at hstep
          cases hstep
      | locked =>
          rw [lockStep, hplace] at hstep
          cases hstep
          exact h.release hplace

theorem expectsUnlocked_of_keeps (h : LockInv s) {a : LockStep Thread}
    (hkeeps : KeepsExclusion s a) : ExpectsUnlocked s a := by
  cases a with
  | lock thread => exact trivial
  | unlock thread => exact trivial
  | exchange thread =>
      intro hplace
      by_contra hset
      rw [Bool.not_eq_false] at hset
      obtain ⟨owner, howner⟩ := h.flag.1 hset
      have hstep : lockStep s (.exchange thread) =
          .ok (s.goTo thread true .locked) := by
        simp only [lockStep, hplace, compareExchangeStrong, hset, if_true]
      have hne : owner ≠ thread := by
        rintro rfl
        rw [hplace] at howner
        cases howner
      refine hne (hkeeps _ hstep owner thread ?_ ?_)
      · rw [goTo_place, if_neg hne]
        exact howner
      · rw [goTo_place, if_pos rfl]

/-- A run of lock and unlock excludes exactly when no waiter which has seen
the flag set tries again while it is set. -/
theorem lockRun_excludes_iff (steps : List (LockStep Thread)) :
    TransitionRun.Admitted KeepsExclusion lockStep unlocked steps ↔
      TransitionRun.Admitted ExpectsUnlocked lockStep unlocked steps := by
  have hstart : LockInv (unlocked : LockState Thread) :=
    ⟨nofun, iff_of_false Bool.false_ne_true nofun⟩
  have hiff : ∀ (s : LockState Thread) a, LockInv s →
      (KeepsExclusion s a ↔ ExpectsUnlocked s a) :=
    fun s a h => ⟨expectsUnlocked_of_keeps h,
      fun hfresh s' hstep => (lockStep_inv h hfresh hstep).excludes⟩
  have hstep : ∀ (s : LockState Thread) a s', LockInv s →
      ExpectsUnlocked s a → lockStep s a = .ok s' → LockInv s' :=
    fun _ _ _ h hfresh hstep => lockStep_inv h hfresh hstep
  exact TransitionRun.admitted_iff hiff hstep hstart steps

end Steps

/-- The second thread tries twice while the first one has the lock. -/
def twoAttempts : List (LockStep (Fin 2)) :=
  [.lock 0, .exchange 0, .lock 1, .exchange 1, .exchange 1]

theorem second_attempt_locks_too :
    ¬TransitionRun.Admitted KeepsExclusion lockStep
      (unlocked : LockState (Fin 2)) twoAttempts := by
  rintro ⟨-, hrest⟩
  obtain ⟨-, hrest⟩ := hrest _ rfl
  obtain ⟨-, hrest⟩ := hrest _ rfl
  obtain ⟨-, hrest⟩ := hrest _ rfl
  obtain ⟨hkeeps, -⟩ := hrest _ rfl
  have hexcludes := hkeeps _ rfl
  exact absurd (hexcludes 0 1 rfl rfl) (by decide)

end IdeBus
end Yjkos
