import Yjkos.Pic
import Yjkos.TransitionRun

/-!
# Runs of the interrupt controllers

The drivers unmask a line when they have registered a callback for it, and
each callback ends with one end of interrupt.  Interrupts are off while the
callbacks run, so an interrupt is one step.  The timer switches threads behind
its end of interrupt, when nothing is in service any more.
-/

namespace Yjkos
namespace Pic

/-! ## Steps -/

structure State where
  pics : Pics
  handlers : ℕ → ℕ
  served : List ℕ

inductive Op where
  | raise (irq : Fin 16)
  | withdraw (irq : Fin 16)
  | register (irq : Fin 16)
  | mask (irq : Fin 16)
  | unmask (irq : Fin 16)
  | interrupt (cascade : Bool)
deriving DecidableEq, Repr

def Pics.request (p : Pics) (irq : Fin 16) (on : Bool) : Pics :=
  let change := fun (lines : BitVec 8) (i : Fin 8) =>
    if on then set lines i else clear lines i
  let line : Fin 8 := ⟨irq.val % 8, Nat.mod_lt _ (by decide)⟩
  if irq.val < irqsPerPic then
    { p with master := { p.master with
        requested := change p.master.requested line } }
  else
    { p with slave := { p.slave with
        requested := change p.slave.requested line } }

def State.interrupt (s : State) (cascade : Bool) : State :=
  let (irq, p) := s.pics.acknowledge cascade
  { s with
    pics := defaultIrqHandler (s.handlers irq) irq p
    served := if s.handlers irq = 0 then s.served else irq :: s.served }

def step (s : State) : Op → Except Fault State
  | .raise irq => .ok { s with pics := s.pics.request irq true }
  | .withdraw irq => .ok { s with pics := s.pics.request irq false }
  | .register irq =>
      .ok { s with
        handlers := Function.update s.handlers irq (s.handlers irq + 1) }
  | .mask irq => .ok { s with pics := archi586PicMaskIrq irq s.pics }
  | .unmask irq => .ok { s with pics := archi586PicUnmaskIrq irq s.pics }
  | .interrupt cascade => .ok (s.interrupt cascade)

/-- A line is unmasked when it has a callback, and nothing is connected to
the line of the slave. -/
def Admits (s : State) : Op → Prop
  | .raise irq | .withdraw irq | .mask irq => irq ≠ 2
  | .unmask irq => irq ≠ 2 ∧ 0 < s.handlers irq
  | .register _ | .interrupt _ => True

structure Start (s : State) : Prop where
  init : ∃ requested, s.pics = archi586PicInit requested
  handlers : ∀ irq, s.handlers irq = 0

/-! ## Masks -/

def Pics.Open (p : Pics) (irq : Fin 16) : Prop :=
  archi586PicIsIrqMasked irq p = false

/-- A device asks for the line, and the controllers may answer. -/
def Pics.Pending (p : Pics) (irq : Fin 16) : Prop :=
  (p.slave.requested ++ p.master.requested).getLsbD irq = true ∧
    p.Open irq ∧ irq ≠ 2

instance (p : Pics) (irq : Fin 16) : Decidable (p.Open irq) :=
  inferInstanceAs (Decidable (_ = false))

instance (p : Pics) (irq : Fin 16) : Decidable (p.Pending irq) :=
  inferInstanceAs (Decidable (_ ∧ _ ∧ _))

section Masks

variable {p : Pics}

theorem getirqmask_setirqmask (p : Pics) (mask : BitVec 16) :
    getirqmask (setirqmask p mask) = mask := by
  apply BitVec.eq_of_getLsbD_eq
  intro i hi
  unfold getirqmask setirqmask
  rw [BitVec.getLsbD_append]
  by_cases hlow : i < 8
  · simp [hlow]
  · have hback : 8 + (i - 8) = i := by omega
    have hhigh : i - 8 < 8 := by omega
    simp [hlow, hhigh, hback]

theorem open_mask {irq other : Fin 16}
    (h : (archi586PicMaskIrq irq p).Open other) : p.Open other := by
  unfold Pics.Open archi586PicIsIrqMasked archi586PicMaskIrq at h
  rw [getirqmask_setirqmask, BitVec.getLsbD_or] at h
  exact (Bool.or_eq_false_iff.mp h).1

theorem open_mask_of_ne {irq other : Fin 16} (hne : other ≠ irq)
    (h : p.Open other) : (archi586PicMaskIrq irq p).Open other := by
  unfold Pics.Open archi586PicIsIrqMasked archi586PicMaskIrq at *
  have hval : (other : ℕ) ≠ irq := fun heq => hne (Fin.ext heq)
  rw [getirqmask_setirqmask, BitVec.getLsbD_or, h]
  simp [hval]

theorem open_unmask {irq other : Fin 16} :
    (archi586PicUnmaskIrq irq p).Open other ↔ other = irq ∨ p.Open other := by
  unfold Pics.Open archi586PicIsIrqMasked archi586PicUnmaskIrq
  rw [getirqmask_setirqmask, BitVec.getLsbD_and]
  have hlt := other.isLt
  by_cases heq : other = irq
  · subst heq
    simp
  · have hval : (other : ℕ) ≠ irq := fun h => heq (Fin.ext h)
    simp [hval, heq]

theorem open_low {i : Fin 8} {irq : Fin 16} (h : (irq : ℕ) = i) :
    p.Open irq ↔ p.master.masked.getLsbD i = false := by
  unfold Pics.Open archi586PicIsIrqMasked getirqmask
  rw [BitVec.getLsbD_append, h, if_pos i.isLt]

theorem open_high {i : Fin 8} {irq : Fin 16} (h : (irq : ℕ) = 8 + i) :
    p.Open irq ↔ p.slave.masked.getLsbD i = false := by
  unfold Pics.Open archi586PicIsIrqMasked getirqmask
  rw [BitVec.getLsbD_append, h, if_neg (by omega), Nat.add_sub_cancel_left]

theorem requested_low {i : Fin 8} {irq : Fin 16} (h : (irq : ℕ) = i) :
    (p.slave.requested ++ p.master.requested).getLsbD irq =
      p.master.requested.getLsbD i := by
  rw [BitVec.getLsbD_append, h, if_pos i.isLt]

theorem requested_high {i : Fin 8} {irq : Fin 16} (h : (irq : ℕ) = 8 + i) :
    (p.slave.requested ++ p.master.requested).getLsbD irq =
      p.slave.requested.getLsbD i := by
  rw [BitVec.getLsbD_append, h, if_neg (by omega), Nat.add_sub_cancel_left]

end Masks

/-! ## The answer of the controllers -/

/-- The requests which the master sees. -/
def Pics.masterLines (p : Pics) (cascade : Bool) : BitVec 8 :=
  (p.sampled cascade).requested &&& ~~~(p.sampled cascade).masked

def Pics.slaveLines (p : Pics) : BitVec 8 :=
  p.slave.requested &&& ~~~p.slave.masked

/-- What is in service behind the answer. -/
structure Pics.Serves (p p' : Pics) (master slave : BitVec 8) : Prop where
  master : p'.master.inService = master
  slave : p'.slave.inService = slave
  mask : getirqmask p' = getirqmask p

section Answer

variable {p : Pics}

theorem sampled_idle (h : p.Idle) (cascade : Bool) :
    (p.sampled cascade).inService = 0 :=
  h.master

theorem acknowledge_master {cascade : Bool} {i : Fin 8} (h : p.Idle)
    (hfirst : firstLine (p.masterLines cascade) = some i)
    (hne : i ≠ slavepinOnMaster) :
    (p.acknowledge cascade).1 = i ∧
      p.Serves (p.acknowledge cascade).2 (BitVec.twoPow 8 i) 0 := by
  unfold Pics.masterLines at hfirst
  unfold Pics.acknowledge
  rw [acknowledge_idle (sampled_idle h cascade)]
  simp only [hfirst, if_neg hne]
  exact ⟨trivial, rfl, h.slave, rfl⟩

theorem acknowledge_none {cascade : Bool} (h : p.Idle)
    (hfirst : firstLine (p.masterLines cascade) = none) :
    (p.acknowledge cascade).1 = 7 ∧
      p.Serves (p.acknowledge cascade).2 0 0 := by
  unfold Pics.masterLines at hfirst
  unfold Pics.acknowledge
  rw [acknowledge_idle (sampled_idle h cascade)]
  simp only [hfirst]
  exact ⟨trivial, h.master, h.slave, rfl⟩

theorem acknowledge_slave {cascade : Bool} {j : Fin 8} (h : p.Idle)
    (hfirst : firstLine (p.masterLines cascade) = some slavepinOnMaster)
    (hslave : firstLine p.slaveLines = some j) :
    (p.acknowledge cascade).1 = irqsPerPic + j ∧
      p.Serves (p.acknowledge cascade).2
        (BitVec.twoPow 8 slavepinOnMaster) (BitVec.twoPow 8 j) := by
  unfold Pics.masterLines at hfirst
  unfold Pics.slaveLines at hslave
  unfold Pics.acknowledge
  rw [acknowledge_idle (sampled_idle h cascade), acknowledge_idle h.slave]
  simp only [hfirst, hslave, if_true]
  exact ⟨trivial, rfl, rfl, rfl⟩

theorem acknowledge_slave_none {cascade : Bool} (h : p.Idle)
    (hfirst : firstLine (p.masterLines cascade) = some slavepinOnMaster)
    (hslave : firstLine p.slaveLines = none) :
    (p.acknowledge cascade).1 = 15 ∧
      p.Serves (p.acknowledge cascade).2
        (BitVec.twoPow 8 slavepinOnMaster) 0 := by
  unfold Pics.masterLines at hfirst
  unfold Pics.slaveLines at hslave
  unfold Pics.acknowledge
  rw [acknowledge_idle (sampled_idle h cascade), acknowledge_idle h.slave]
  simp only [hfirst, hslave, if_true]
  exact ⟨trivial, rfl, h.slave, rfl⟩

end Answer

/-! ## The invariant -/

/-- Between two interrupts nothing is in service, and every open line has a
callback. -/
structure State.Ready (s : State) : Prop where
  idle : s.pics.Idle
  cascade : s.pics.Open 2
  handled : ∀ irq : Fin 16, irq ≠ 2 → s.pics.Open irq → 0 < s.handlers irq

section Runs

variable {s s' : State} {op : Op}

theorem Start.ready (h : Start s) : s.Ready := by
  obtain ⟨requested, hinit⟩ := h.init
  have hmask : getirqmask s.pics = ~~~BitVec.twoPow 16 2 := by
    rw [hinit]
    exact getirqmask_setirqmask _ _
  refine ⟨?_, ?_, ?_⟩
  · rw [hinit]
    exact ⟨rfl, rfl⟩
  · unfold Pics.Open archi586PicIsIrqMasked
    rw [hmask]
    decide
  · intro irq hne hopen
    unfold Pics.Open archi586PicIsIrqMasked at hopen
    rw [hmask] at hopen
    have hclosed : ∀ irq : Fin 16, irq ≠ 2 →
        (~~~BitVec.twoPow 16 2).getLsbD irq = true := by
      decide
    rw [hclosed irq hne] at hopen
    contradiction

theorem masterLines_bit {p : Pics} {cascade : Bool} {i : Fin 8}
    (hne : i ≠ slavepinOnMaster) :
    (p.masterLines cascade).getLsbD i =
      (p.master.requested.getLsbD i && !p.master.masked.getLsbD i) := by
  have hval : (i : ℕ) ≠ slavepinOnMaster := fun h => hne (Fin.ext h)
  unfold Pics.masterLines Pics.sampled set clear
  cases cascade <;> simp [hval]

theorem masterLines_cascade {p : Pics} (hopen : p.Open 2) (cascade : Bool) :
    (p.masterLines cascade).getLsbD slavepinOnMaster = cascade := by
  have hmask := (open_low (i := slavepinOnMaster) (by decide)).mp hopen
  unfold Pics.masterLines Pics.sampled set clear
  cases cascade with
  | false => simp
  | true => simpa using hmask

theorem slaveLines_bit {p : Pics} {i : Fin 8} :
    p.slaveLines.getLsbD i =
      (p.slave.requested.getLsbD i && !p.slave.masked.getLsbD i) := by
  unfold Pics.slaveLines
  simp

theorem pending_master {p : Pics} {cascade : Bool} {i : Fin 8}
    (hfirst : firstLine (p.masterLines cascade) = some i)
    (hne : i ≠ slavepinOnMaster) : p.Pending ⟨i, by omega⟩ := by
  have hbit := (firstLine_eq_some.mp hfirst).1
  rw [masterLines_bit hne, Bool.and_eq_true] at hbit
  refine ⟨?_, ?_, ?_⟩
  · rw [requested_low rfl]
    exact hbit.1
  · rw [open_low rfl]
    simpa using hbit.2
  · intro heq
    have hval : (i : ℕ) = 2 := congrArg Fin.val heq
    exact hne (Fin.ext hval)

theorem pending_slave {p : Pics} {j : Fin 8}
    (hfirst : firstLine p.slaveLines = some j) :
    p.Pending ⟨8 + j, by omega⟩ := by
  have hbit := (firstLine_eq_some.mp hfirst).1
  rw [slaveLines_bit, Bool.and_eq_true] at hbit
  refine ⟨?_, ?_, ?_⟩
  · rw [requested_high rfl]
    exact hbit.1
  · rw [open_high rfl]
    simpa using hbit.2
  · intro heq
    have hval : 8 + (j : ℕ) = 2 := congrArg Fin.val heq
    omega

/-- Every interrupt leaves the controllers as idle as it found them, with the
masks as they were. -/
theorem interrupt_idle (h : s.Ready) (cascade : Bool) :
    (s.interrupt cascade).pics.Idle ∧
      getirqmask (s.interrupt cascade).pics = getirqmask s.pics := by
  unfold State.interrupt
  cases hfirst : firstLine (s.pics.masterLines cascade) with
  | none =>
      obtain ⟨hirq, hserves⟩ := acknowledge_none h.idle hfirst
      have hidle : (s.pics.acknowledge cascade).2.Idle :=
        ⟨hserves.master, hserves.slave⟩
      dsimp only
      rw [hirq, handler_spurious_master hidle]
      exact ⟨hidle, hserves.mask⟩
  | some i =>
      by_cases hne : i = slavepinOnMaster
      · subst hne
        cases hslave : firstLine s.pics.slaveLines with
        | none =>
            obtain ⟨hirq, hserves⟩ :=
              acknowledge_slave_none h.idle hfirst hslave
            dsimp only
            rw [hirq, handler_spurious_slave hserves.master hserves.slave]
            exact ⟨⟨rfl, hserves.slave⟩, hserves.mask⟩
        | some j =>
            obtain ⟨hirq, hserves⟩ := acknowledge_slave h.idle hfirst hslave
            obtain ⟨-, hopen, hline⟩ := pending_slave hslave
            have hcount : 0 < s.handlers (irqsPerPic + j) :=
              h.handled _ hline hopen
            dsimp only
            rw [hirq, handler_slave hcount hserves.master hserves.slave]
            exact ⟨⟨rfl, rfl⟩, hserves.mask⟩
      · obtain ⟨hirq, hserves⟩ := acknowledge_master h.idle hfirst hne
        obtain ⟨-, hopen, hline⟩ := pending_master hfirst hne
        have hcount : 0 < s.handlers i := h.handled _ hline hopen
        dsimp only
        rw [hirq, handler_master hcount hserves.master hserves.slave]
        exact ⟨⟨rfl, hserves.slave⟩, hserves.mask⟩

theorem request_inService (p : Pics) (irq : Fin 16) (on : Bool) :
    (p.request irq on).master.inService = p.master.inService ∧
      (p.request irq on).slave.inService = p.slave.inService ∧
      getirqmask (p.request irq on) = getirqmask p := by
  unfold Pics.request
  dsimp only
  by_cases hlow : (irq : ℕ) < irqsPerPic
  · rw [if_pos hlow]
    exact ⟨rfl, rfl, rfl⟩
  · rw [if_neg hlow]
    exact ⟨rfl, rfl, rfl⟩

theorem State.Ready.congr (h : s.Ready) (hidle : s'.pics.Idle)
    (hmask : getirqmask s'.pics = getirqmask s.pics)
    (hhandlers : ∀ irq, s.handlers irq ≤ s'.handlers irq) : s'.Ready := by
  refine ⟨hidle, ?_, ?_⟩
  · unfold Pics.Open archi586PicIsIrqMasked
    rw [hmask]
    exact h.cascade
  · intro irq hne hopen
    unfold Pics.Open archi586PicIsIrqMasked at hopen
    rw [hmask] at hopen
    exact lt_of_lt_of_le (h.handled irq hne hopen) (hhandlers irq)

theorem step_ready (h : s.Ready) (hadmits : Admits s op)
    (hstep : step s op = .ok s') : s'.Ready := by
  cases op with
  | raise irq =>
      cases hstep
      obtain ⟨hmaster, hslave, hmask⟩ := request_inService s.pics irq true
      exact h.congr ⟨hmaster.trans h.idle.master, hslave.trans h.idle.slave⟩
        hmask fun _ => le_rfl
  | withdraw irq =>
      cases hstep
      obtain ⟨hmaster, hslave, hmask⟩ := request_inService s.pics irq false
      exact h.congr ⟨hmaster.trans h.idle.master, hslave.trans h.idle.slave⟩
        hmask fun _ => le_rfl
  | register irq =>
      cases hstep
      refine h.congr h.idle rfl fun other => ?_
      dsimp only
      by_cases heq : other = irq
      · rw [heq, Function.update_self]
        exact Nat.le_succ _
      · rw [Function.update_of_ne heq]
  | mask irq =>
      cases hstep
      exact ⟨⟨h.idle.master, h.idle.slave⟩,
        open_mask_of_ne (Ne.symm hadmits) h.cascade,
        fun other hne hopen => h.handled other hne (open_mask hopen)⟩
  | unmask irq =>
      cases hstep
      refine ⟨⟨h.idle.master, h.idle.slave⟩,
        open_unmask.mpr (Or.inr h.cascade), fun other hne hopen => ?_⟩
      rcases open_unmask.mp hopen with rfl | hopen
      · exact hadmits.2
      · exact h.handled other hne hopen
  | interrupt cascade =>
      cases hstep
      obtain ⟨hidle, hmask⟩ := interrupt_idle h cascade
      refine h.congr hidle hmask fun irq => ?_
      exact le_rfl

/-! ## Priorities -/

def rank (irq : Fin 16) : ℕ :=
  if irq.val < 2 then irq else if irqsPerPic ≤ irq then irq - 6 else irq + 7

theorem slave_asks {p : Pics} {irq : Fin 16} (h : p.Pending irq)
    (hirq : 8 ≤ (irq : ℕ)) : p.slaveLines.getLsbD (irq - 8) = true := by
  obtain ⟨hrequested, hopen, -⟩ := h
  have hlt := irq.isLt
  have hval : (irq : ℕ) = 8 + (⟨irq - 8, by omega⟩ : Fin 8) := by
    simp only
    omega
  rw [requested_high hval] at hrequested
  rw [open_high hval] at hopen
  have hbit : p.slaveLines.getLsbD (⟨irq - 8, by omega⟩ : Fin 8) = _ :=
    slaveLines_bit
  rw [hrequested, hopen] at hbit
  exact hbit

theorem master_asks {p : Pics} {irq : Fin 16} (h : p.Pending irq)
    (hirq : (irq : ℕ) < 8) (cascade : Bool) :
    (p.masterLines cascade).getLsbD irq = true := by
  obtain ⟨hrequested, hopen, hne⟩ := h
  have hval : (irq : ℕ) = (⟨irq, hirq⟩ : Fin 8) := rfl
  have hline : (⟨irq, hirq⟩ : Fin 8) ≠ slavepinOnMaster := by
    intro heq
    have hval : (irq : ℕ) = 2 := congrArg Fin.val heq
    exact hne (Fin.ext hval)
  rw [requested_low hval] at hrequested
  rw [open_low hval] at hopen
  have hbit : (p.masterLines cascade).getLsbD (⟨irq, hirq⟩ : Fin 8) = _ :=
    masterLines_bit hline
  rw [hrequested, hopen] at hbit
  exact hbit

def Pics.slaveAsks (p : Pics) : Bool := (firstLine p.slaveLines).isSome

theorem slaveAsks_of_pending {p : Pics} {irq : Fin 16} (h : p.Pending irq)
    (hirq : 8 ≤ (irq : ℕ)) :
    ∃ j, firstLine p.slaveLines = some j ∧ (j : ℕ) ≤ irq - 8 := by
  have hlt := irq.isLt
  have hbit := slave_asks h hirq
  cases hfirst : firstLine p.slaveLines with
  | none =>
      have hnone := firstLine_eq_none.mp hfirst ⟨irq - 8, by omega⟩
      rw [hbit] at hnone
      contradiction
  | some j =>
      refine ⟨j, rfl, ?_⟩
      by_contra hgt
      have hbefore := (firstLine_eq_some.mp hfirst).2 ⟨irq - 8, by omega⟩
        (Fin.lt_def.mpr (by simp only; omega))
      rw [hbit] at hbefore
      contradiction

theorem first_master_le {p : Pics} {cascade : Bool} {i : Fin 8}
    (hfirst : firstLine (p.masterLines cascade) = some i) {k : ℕ} (hk : k < 8)
    (hbit : (p.masterLines cascade).getLsbD k = true) : (i : ℕ) ≤ k := by
  by_contra hgt
  have hbefore := (firstLine_eq_some.mp hfirst).2 ⟨k, hk⟩
    (Fin.lt_def.mpr (by simp only; omega))
  rw [hbit] at hbefore
  contradiction

/-- An interrupt serves the pending line which comes first. -/
theorem interrupt_serves (h : s.Ready) {irq : Fin 16}
    (hpending : s.pics.Pending irq) :
    ∃ first, s.pics.Pending first ∧
      (∀ other, s.pics.Pending other → rank first ≤ rank other) ∧
      (s.interrupt s.pics.slaveAsks).served = first.val :: s.served := by
  have hserved : ∀ first : Fin 16, s.pics.Pending first →
      (s.pics.acknowledge s.pics.slaveAsks).1 = first →
      (s.interrupt s.pics.slaveAsks).served = first.val :: s.served := by
    intro first hfirst hirq
    have hcount := h.handled first hfirst.2.2 hfirst.2.1
    unfold State.interrupt
    dsimp only
    rw [hirq, if_neg hcount.ne']
  have hcascade := masterLines_cascade h.cascade s.pics.slaveAsks
  cases hfirst : firstLine (s.pics.masterLines s.pics.slaveAsks) with
  | none =>
      -- then no line is pending
      exfalso
      by_cases hirq : (irq : ℕ) < 8
      · have hnone := firstLine_eq_none.mp hfirst ⟨irq, hirq⟩
        rw [master_asks hpending hirq] at hnone
        contradiction
      · obtain ⟨j, hslave, -⟩ :=
          slaveAsks_of_pending hpending (not_lt.mp hirq)
        have hasks : s.pics.slaveAsks = true := by
          unfold Pics.slaveAsks
          rw [hslave]
          rfl
        have hnone := firstLine_eq_none.mp hfirst slavepinOnMaster
        rw [hcascade, hasks] at hnone
        contradiction
  | some i =>
      by_cases hne : i = slavepinOnMaster
      · subst hne
        have hasks : s.pics.slaveAsks = true := by
          rw [← hcascade]
          exact (firstLine_eq_some.mp hfirst).1
        obtain ⟨j, hslave⟩ := Option.isSome_iff_exists.mp hasks
        have hjlt := j.isLt
        refine ⟨⟨8 + j, by omega⟩, pending_slave hslave, ?_, ?_⟩
        · intro other hother
          have hlt := other.isLt
          have hne2 : (other : ℕ) ≠ 2 := fun hval =>
            hother.2.2 (Fin.ext hval)
          unfold rank irqsPerPic
          by_cases hlow : (other : ℕ) < 8
          · have hle := first_master_le hfirst hlow
              (master_asks hother hlow _)
            have htwo : (slavepinOnMaster : ℕ) = 2 := rfl
            split_ifs <;> simp only at * <;> omega
          · obtain ⟨j', hslave', hle⟩ :=
              slaveAsks_of_pending hother (not_lt.mp hlow)
            rw [hslave, Option.some.injEq] at hslave'
            subst hslave'
            split_ifs <;> simp only at * <;> omega
        · apply hserved _ (pending_slave hslave)
          exact (acknowledge_slave h.idle hfirst hslave).1
      · refine ⟨⟨i, by omega⟩, pending_master hfirst hne, ?_, ?_⟩
        · intro other hother
          have hlt := other.isLt
          have hilt := i.isLt
          have hne2 : (other : ℕ) ≠ 2 := fun hval =>
            hother.2.2 (Fin.ext hval)
          have hine : (i : ℕ) ≠ 2 := fun hval => hne (Fin.ext hval)
          unfold rank irqsPerPic
          by_cases hlow : (other : ℕ) < 8
          · have hle := first_master_le hfirst hlow
              (master_asks hother hlow _)
            split_ifs <;> simp only at * <;> omega
          · obtain ⟨j, hslave, -⟩ :=
              slaveAsks_of_pending hother (not_lt.mp hlow)
            have hasks : s.pics.slaveAsks = true := by
              unfold Pics.slaveAsks
              rw [hslave]
              rfl
            have hle := first_master_le hfirst (show 2 < 8 by decide)
              (hcascade.trans hasks)
            split_ifs <;> simp only at * <;> omega
        · apply hserved _ (pending_master hfirst hne)
          exact (acknowledge_master h.idle hfirst hne).1

/-- Between two interrupts no line is in service, in every run in which lines
are unmasked when they have a callback.  So the first pending line is always
the one which is served next. -/
theorem next_interrupt_serves
    (hreach : TransitionRun.Reachable Start Admits step s) :
    s.pics.Idle ∧ ∀ irq, s.pics.Pending irq →
      ∃ first s', s.pics.Pending first ∧
        (∀ other, s.pics.Pending other → rank first ≤ rank other) ∧
        step s (.interrupt s.pics.slaveAsks) = .ok s' ∧
        s'.served = first.val :: s.served := by
  have hready : s.Ready := by
    apply hreach.invariant
    · exact fun _ hstart => hstart.ready
    · intro s op s' h hadmits hstep
      exact step_ready h hadmits hstep
  refine ⟨hready.idle, fun irq hpending => ?_⟩
  obtain ⟨first, hfirst, hrank, hserved⟩ :=
    interrupt_serves hready hpending
  exact ⟨first, _, hfirst, hrank, rfl, hserved⟩

end Runs

def bootState : State where
  pics := archi586PicInit ⟨⟨0, 0, 0⟩, ⟨0, 0, 0⟩⟩
  handlers := fun _ => 0
  served := []

/-- The timer asks again behind its first interrupt. -/
theorem second_tick_served : ∃ s s' : State, s.served = [0] ∧
    step s (.interrupt s.pics.slaveAsks) = .ok s' ∧ s'.served = [0, 0] := by
  have hreach : TransitionRun.Reachable Start Admits step bootState :=
    .start ⟨⟨_, rfl⟩, fun _ => rfl⟩
  have hne : (0 : Fin 16) ≠ 2 := by decide
  have hreach := hreach.next (a := .register 0) (by exact trivial) rfl
  have hreach := hreach.next (a := .unmask 0)
    (by exact ⟨hne, by decide⟩) rfl
  have hreach := hreach.next (a := .raise 0) (by exact hne) rfl
  have hreach := hreach.next (a := .interrupt false) (by exact trivial) rfl
  have hreach := hreach.next (a := .raise 0) (by exact hne) rfl
  obtain ⟨-, hserves⟩ := next_interrupt_serves hreach
  obtain ⟨first, s', -, hrank, hstep, hserved⟩ := hserves 0 (by decide +kernel)
  have hzero : first = 0 := by
    have honly : ∀ line : Fin 16, rank line ≤ rank 0 → line = 0 := by decide
    exact honly first (hrank 0 (by decide +kernel))
  refine ⟨_, s', ?_, hstep, ?_⟩
  · rfl
  · rw [hserved, hzero]
    rfl

end Pic
end Yjkos
