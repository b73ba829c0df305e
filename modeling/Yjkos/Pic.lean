import Yjkos.Machine

/-!
# The interrupt controllers

`kernel/arch/i586/pic.c`, with the pair of 8259 controllers on the other side
of its ports.  A controller keeps a line in service, and every line behind it
waiting, until it is told the end of the interrupt.  The callbacks of the
drivers tell it, so `default_irq_handler` does so only for an interrupt which
no line has asked for.
-/

namespace Yjkos
namespace Pic

/-! ## The controllers -/

structure Chip where
  requested : BitVec 8
  inService : BitVec 8
  masked : BitVec 8
deriving DecidableEq, Repr

def firstLine (lines : BitVec 8) : Option (Fin 8) :=
  Fin.find? fun i => lines.getLsbD i

def clear (lines : BitVec 8) (i : Fin 8) : BitVec 8 :=
  lines &&& ~~~BitVec.twoPow 8 i

def set (lines : BitVec 8) (i : Fin 8) : BitVec 8 :=
  lines ||| BitVec.twoPow 8 i

namespace Chip

/-- The line for which the controller interrupts the processor. -/
def next (c : Chip) : Option (Fin 8) :=
  match firstLine (c.requested &&& ~~~c.masked), firstLine c.inService with
  | none, _ => none
  | some i, none => some i
  | some i, some j => if i < j then some i else none

def acknowledge (c : Chip) : Option (Fin 8) × Chip :=
  match c.next with
  | none => (none, c)
  | some i =>
      (some i, { c with
        requested := clear c.requested i
        inService := set c.inService i })

/-- The command which names no line. -/
def endOfInterrupt (c : Chip) : Chip :=
  match firstLine c.inService with
  | none => c
  | some i => { c with inService := clear c.inService i }

end Chip

structure Pics where
  master : Chip
  slave : Chip
deriving DecidableEq, Repr

/-- The line of the master which the slave is connected to. -/
def slavepinOnMaster : Fin 8 := 2

def irqsPerPic : ℕ := 8

/-- The master, with the line of the slave as it finds it. -/
def Pics.sampled (p : Pics) (cascade : Bool) : Chip :=
  { p.master with
    requested := if cascade then set p.master.requested slavepinOnMaster
      else clear p.master.requested slavepinOnMaster }

/-- The processor asks for the vector; `cascade` says whether the slave had
asked when the master was read.  Without a request a controller answers with
its last line. -/
def Pics.acknowledge (p : Pics) (cascade : Bool) : ℕ × Pics :=
  match (p.sampled cascade).acknowledge with
  | (none, master) => (7, { p with master := master })
  | (some i, master) =>
      if i = slavepinOnMaster then
        match p.slave.acknowledge with
        | (none, slave) => (15, ⟨master, slave⟩)
        | (some j, slave) => (irqsPerPic + j, ⟨master, slave⟩)
      else (i, { p with master := master })

/-! ## The kernel -/

def readisr (p : Pics) : BitVec 16 := p.slave.inService ++ p.master.inService

def getirqmask (p : Pics) : BitVec 16 := p.slave.masked ++ p.master.masked

def setirqmask (p : Pics) (mask : BitVec 16) : Pics :=
  { master := { p.master with masked := mask.setWidth 8 }
    slave := { p.slave with masked := (mask >>> 8).setWidth 8 } }

def archi586PicSendEoi (irq : ℕ) (p : Pics) : Pics :=
  let p := if irqsPerPic ≤ irq then
      { p with slave := p.slave.endOfInterrupt }
    else p
  { p with master := p.master.endOfInterrupt }

def archi586PicIsIrqMasked (irq : ℕ) (p : Pics) : Bool :=
  (getirqmask p).getLsbD irq

def archi586PicMaskIrq (irq : ℕ) (p : Pics) : Pics :=
  setirqmask p (getirqmask p ||| BitVec.twoPow 16 irq)

def archi586PicUnmaskIrq (irq : ℕ) (p : Pics) : Pics :=
  setirqmask p (getirqmask p &&& ~~~BitVec.twoPow 16 irq)

/-- The result is true for an interrupt which is real. -/
def checkspuriousirq (irq : ℕ) (p : Pics) : Bool × Pics :=
  let isReal := (readisr p).getLsbD irq
  if irq = 7 then (isReal, p)
  else if irq = 15 then
    (isReal, if isReal then p else archi586PicSendEoi slavepinOnMaster p)
  else (true, p)

/-- Each of the callbacks sends one end of interrupt. -/
def callbacks (count irq : ℕ) (p : Pics) : Pics :=
  (archi586PicSendEoi irq)^[count] p

/-- What is called `is_suprious_irq` in the source is the result for a real
interrupt. -/
def defaultIrqHandler (handlers irq : ℕ) (p : Pics) : Pics :=
  let (isSupriousIrq, p) := checkspuriousirq irq p
  if handlers = 0 then p
  else
    let p := callbacks handlers irq p
    if !isSupriousIrq then archi586PicSendEoi irq p else p

def archi586PicInit (requested : Pics) : Pics :=
  setirqmask
    { master := ⟨requested.master.requested, 0, 0⟩
      slave := ⟨requested.slave.requested, 0, 0⟩ }
    (~~~BitVec.twoPow 16 2)

/-! ## One interrupt -/

section Lines

variable {c : Chip} {i : Fin 8}

theorem firstLine_zero : firstLine 0 = none := by
  simp [firstLine]

theorem firstLine_twoPow (i : Fin 8) :
    firstLine (BitVec.twoPow 8 i) = some i := by
  revert i
  decide

theorem clear_twoPow (i : Fin 8) : clear (BitVec.twoPow 8 i) i = 0 := by
  revert i
  decide

theorem firstLine_eq_some {lines : BitVec 8} :
    firstLine lines = some i ↔ lines.getLsbD i = true ∧
      ∀ j < i, lines.getLsbD j = false :=
  Fin.find?_eq_some_iff

theorem firstLine_eq_none {lines : BitVec 8} :
    firstLine lines = none ↔ ∀ j : Fin 8, lines.getLsbD j = false :=
  Fin.find?_eq_none_iff

theorem endOfInterrupt_idle (h : c.inService = 0) : c.endOfInterrupt = c := by
  unfold Chip.endOfInterrupt
  rw [h, firstLine_zero]

theorem endOfInterrupt_one (h : c.inService = BitVec.twoPow 8 i) :
    c.endOfInterrupt = { c with inService := 0 } := by
  unfold Chip.endOfInterrupt
  rw [h, firstLine_twoPow]
  simp only [clear_twoPow]

theorem acknowledge_idle (h : c.inService = 0) :
    c.acknowledge =
      match firstLine (c.requested &&& ~~~c.masked) with
      | none => (none, c)
      | some i =>
          (some i, { c with
            requested := clear c.requested i
            inService := BitVec.twoPow 8 i }) := by
  unfold Chip.acknowledge Chip.next
  rw [h, firstLine_zero]
  cases firstLine (c.requested &&& ~~~c.masked) with
  | none => rfl
  | some i => simp [set]

end Lines

structure Pics.Idle (p : Pics) : Prop where
  master : p.master.inService = 0
  slave : p.slave.inService = 0

section Handler

variable {p : Pics} {irq count : ℕ}

theorem sendEoi_idle (h : p.Idle) (irq : ℕ) :
    archi586PicSendEoi irq p = p := by
  unfold archi586PicSendEoi
  rw [endOfInterrupt_idle h.slave]
  dsimp only
  split
  · rw [endOfInterrupt_idle h.master]
  · rw [endOfInterrupt_idle h.master]

/-- One end of interrupt is enough, and more do no harm. -/
theorem callbacks_eq {q : Pics} (hfirst : archi586PicSendEoi irq p = q)
    (hidle : q.Idle) (hcount : 0 < count) : callbacks count irq p = q := by
  obtain ⟨count, rfl⟩ := Nat.exists_eq_succ_of_ne_zero hcount.ne'
  unfold callbacks
  rw [Function.iterate_succ_apply, hfirst]
  exact Function.iterate_fixed (sendEoi_idle hidle irq) count

theorem handler_real {q : Pics} (hreal : checkspuriousirq irq p = (true, p))
    (hfirst : archi586PicSendEoi irq p = q) (hidle : q.Idle)
    (hcount : 0 < count) : defaultIrqHandler count irq p = q := by
  unfold defaultIrqHandler
  rw [hreal]
  simp [hcount.ne', callbacks_eq hfirst hidle hcount]

theorem handler_spurious {q : Pics}
    (hspurious : checkspuriousirq irq p = (false, q)) (hidle : q.Idle) :
    defaultIrqHandler count irq p = q := by
  unfold defaultIrqHandler
  rw [hspurious]
  rcases Nat.eq_zero_or_pos count with rfl | hcount
  · rfl
  · have hcallbacks := callbacks_eq (sendEoi_idle hidle irq) hidle hcount
    simp [hcount.ne', hcallbacks, sendEoi_idle hidle irq]

theorem readisr_low (p : Pics) (i : Fin 8) :
    (readisr p).getLsbD i = p.master.inService.getLsbD i := by
  unfold readisr
  rw [BitVec.getLsbD_append, if_pos i.isLt]

theorem readisr_high (p : Pics) (i : Fin 8) :
    (readisr p).getLsbD (8 + i) = p.slave.inService.getLsbD i := by
  unfold readisr
  rw [BitVec.getLsbD_append, if_neg (by omega), Nat.add_sub_cancel_left]

theorem handler_spurious_master (h : p.Idle) :
    defaultIrqHandler count 7 p = p := by
  apply handler_spurious _ h
  have hbit := readisr_low p 7
  rw [h.master] at hbit
  unfold checkspuriousirq
  rw [if_pos rfl]
  simpa using hbit

theorem handler_spurious_slave
    (hmaster : p.master.inService = BitVec.twoPow 8 slavepinOnMaster)
    (hslave : p.slave.inService = 0) :
    defaultIrqHandler count 15 p =
      { p with master := { p.master with inService := 0 } } := by
  have hbit := readisr_high p 7
  rw [hslave] at hbit
  have hfalse : (readisr p).getLsbD 15 = false := by simpa using hbit
  refine handler_spurious ?_ ?_
  · unfold checkspuriousirq
    simp only [hfalse]
    unfold archi586PicSendEoi
    simp [endOfInterrupt_one hmaster, slavepinOnMaster, irqsPerPic]
  · exact ⟨rfl, hslave⟩

theorem handler_master {i : Fin 8} (hcount : 0 < count)
    (hmaster : p.master.inService = BitVec.twoPow 8 i)
    (hslave : p.slave.inService = 0) :
    defaultIrqHandler count i p =
      { p with master := { p.master with inService := 0 } } := by
  have hlt := i.isLt
  refine handler_real ?_ ?_ ?_ hcount
  · unfold checkspuriousirq
    by_cases hseven : (i : ℕ) = 7
    · have hbit := readisr_low p i
      rw [hmaster] at hbit
      rw [if_pos hseven, hbit]
      simp
    · rw [if_neg hseven, if_neg (by omega)]
  · unfold archi586PicSendEoi
    rw [if_neg (by unfold irqsPerPic; omega)]
    dsimp only
    rw [endOfInterrupt_one hmaster]
  · exact ⟨rfl, hslave⟩

theorem handler_slave {i : Fin 8} (hcount : 0 < count)
    (hmaster : p.master.inService = BitVec.twoPow 8 slavepinOnMaster)
    (hslave : p.slave.inService = BitVec.twoPow 8 i) :
    defaultIrqHandler count (irqsPerPic + i) p =
      { master := { p.master with inService := 0 }
        slave := { p.slave with inService := 0 } } := by
  have hlt := i.isLt
  refine handler_real ?_ ?_ ?_ hcount
  · unfold checkspuriousirq irqsPerPic
    rw [if_neg (by omega)]
    by_cases hfifteen : 8 + (i : ℕ) = 15
    · have hbit := readisr_high p i
      rw [hslave] at hbit
      have htrue : (readisr p).getLsbD (8 + i) = true := by
        rw [hbit]
        simp
      rw [if_pos hfifteen, htrue]
      rfl
    · rw [if_neg hfifteen]
  · unfold archi586PicSendEoi
    rw [if_pos (Nat.le_add_right _ _), endOfInterrupt_one hslave]
    dsimp only
    rw [endOfInterrupt_one hmaster]
  · exact ⟨rfl, rfl⟩

end Handler

end Pic
end Yjkos
