import Mathlib.Data.List.GetD
import Yjkos.StackMachine

/-!
# Interrupt entries

The stubs of `asm/interruptentry.S`.  An exception or an interrupt comes
between any two instructions; its stub saves the registers, calls
`trapmanager_trap` with a pointer to what it has saved, and goes back with what
stands there then.  Only FS and GS are saved and not restored.
-/

namespace Yjkos
namespace IsrEntry

open StackMachine

/-- The processor with its segment registers. -/
structure Core extends Cpu where
  cs : BitVec 16
  ds : BitVec 16
  es : BitVec 16
  fs : BitVec 16
  gs : BitVec 16

namespace Core

/-- The stack and the registers outside the segments change. -/
def withCpu (c : Core) (cpu : Cpu) : Core := { c with toCpu := cpu }

def push (c : Core) (value : Word) : Core := c.withCpu (c.toCpu.push value)

def pop (c : Core) : Word × Core := (c.toCpu.pop.1, c.withCpu c.toCpu.pop.2)

end Core

inductive Seg where
  | ds
  | es
  | fs
  | gs
deriving DecidableEq, Repr

inductive Instr where
  | cli
  | pushImm (value : Word)
  | push (src : Reg)
  | pop (dst : Reg)
  | pusha
  | popa
  | mov (src dst : Reg)
  | movFromSeg (src : Seg) (dst : Reg)
  | movToSeg (src : Reg) (dst : Seg)
  | addEsp (value : Word)
  | andEsp (mask : Word)
  | call
  | iret
deriving DecidableEq, Repr

def Core.getSeg (c : Core) : Seg → Word
  | .ds => c.ds.setWidth 32
  | .es => c.es.setWidth 32
  | .fs => c.fs.setWidth 32
  | .gs => c.gs.setWidth 32

def Core.setSeg (c : Core) (value : Word) : Seg → Core
  | .ds => { c with ds := value.setWidth 16 }
  | .es => { c with es := value.setWidth 16 }
  | .fs => { c with fs := value.setWidth 16 }
  | .gs => { c with gs := value.setWidth 16 }

/-- The interrupt flag. -/
def interruptFlag : Word := 0x200

/-- `pusha` pushes the stack pointer which it has started with. -/
def Core.pusha (c : Core) : Core :=
  c.withCpu (pushAll c.toCpu
    [c.eax, c.ecx, c.edx, c.ebx, c.esp, c.ebp, c.esi, c.edi])

/-- `popa` skips the stack pointer. -/
def Core.popa (c : Core) : Core :=
  { c with
    edi := c.memory c.esp
    esi := c.memory (c.esp + 4)
    ebp := c.memory (c.esp + 8)
    ebx := c.memory (c.esp + 16)
    edx := c.memory (c.esp + 20)
    ecx := c.memory (c.esp + 24)
    eax := c.memory (c.esp + 28)
    esp := c.esp + 32 }

def Core.iret (c : Core) : Core :=
  { c with
    eip := c.memory c.esp
    cs := (c.memory (c.esp + 4)).setWidth 16
    eflags := c.memory (c.esp + 8)
    esp := c.esp + 12 }

section Step

-- The C function which is called: from its entry to its return.
variable (trap : Core → Core)

/-- The return address of the call has no use in the model and is 0. -/
def step (c : Core) : Instr → Core
  | .cli => { c with eflags := c.eflags &&& ~~~interruptFlag }
  | .pushImm value => c.push value
  | .push src => c.push (c.toCpu.get src)
  | .pop dst => c.pop.2.withCpu (c.pop.2.toCpu.set c.pop.1 dst)
  | .pusha => c.pusha
  | .popa => c.popa
  | .mov src dst => c.withCpu (c.toCpu.set (c.toCpu.get src) dst)
  | .movFromSeg src dst => c.withCpu (c.toCpu.set (c.getSeg src) dst)
  | .movToSeg src dst => c.setSeg (c.toCpu.get src) dst
  | .addEsp value => { c with esp := c.esp + value }
  | .andEsp mask => { c with esp := c.esp &&& mask }
  | .call => trap (c.push 0)
  | .iret => c.iret

def exec (c : Core) (code : List Instr) : Core := code.foldl (step trap) c

theorem exec_append (c : Core) (code more : List Instr) :
    exec trap c (code ++ more) = exec trap (exec trap c code) more :=
  List.foldl_append

end Step

/-! ## The macros -/

def isrExcHeader : List Instr := [.cli]

def pushFakeCode : List Instr := [.pushImm 0]

def saveRegs : List Instr :=
  [.pusha, .movFromSeg .ds .eax, .push .eax, .movFromSeg .es .eax,
    .push .eax, .movFromSeg .fs .eax, .push .eax, .movFromSeg .gs .eax,
    .push .eax]

def restoreRegs : List Instr :=
  [.addEsp 8, .pop .eax, .movToSeg .eax .es, .pop .eax, .movToSeg .eax .ds,
    .popa]

def isrFooter : List Instr := [.addEsp 4, .iret]

def callHandler (n : Word) : List Instr :=
  [.mov .esp .ebx, .andEsp (~~~0x0f), .push .ebx, .pushImm n, .call,
    .mov .ebx .esp]

def isrExcentry (n : Word) : List Instr :=
  isrExcHeader ++ saveRegs ++ callHandler n ++ restoreRegs ++ isrFooter

def isrExcentryNocode (n : Word) : List Instr :=
  isrExcHeader ++ pushFakeCode ++ saveRegs ++ callHandler n ++ restoreRegs ++
    isrFooter

def isrIntentry (n : Word) : List Instr :=
  pushFakeCode ++ saveRegs ++ callHandler n ++ restoreRegs ++ isrFooter

/-- What stands at the entry of an exception. -/
inductive ExcStub where
  | isrExcentry
  | isrExcentryNocode
  | jmp
deriving DecidableEq, Repr

/-- The entries of the exceptions, in the order of their vectors; the one of
exception 7 jumps to itself. -/
def excStubs : List ExcStub :=
  [.isrExcentryNocode, .isrExcentryNocode, .isrExcentryNocode,
    .isrExcentryNocode, .isrExcentryNocode, .isrExcentryNocode,
    .isrExcentryNocode, .jmp, .isrExcentry, .isrExcentryNocode,
    .isrExcentry, .isrExcentry, .isrExcentry, .isrExcentry, .isrExcentry,
    .isrExcentryNocode, .isrExcentryNocode, .isrExcentry,
    .isrExcentryNocode, .isrExcentryNocode, .isrExcentryNocode,
    .isrExcentry, .isrExcentryNocode, .isrExcentryNocode,
    .isrExcentryNocode, .isrExcentryNocode, .isrExcentryNocode,
    .isrExcentryNocode, .isrExcentryNocode, .isrExcentry, .isrExcentry,
    .isrExcentryNocode]

/-- The stub for a vector; an endless loop has no code here. -/
def entry (n : ℕ) : Option (List Instr) :=
  match excStubs[n]? with
  | some .jmp => none
  | some .isrExcentry => some (isrExcentry (BitVec.ofNat 32 n))
  | some .isrExcentryNocode => some (isrExcentryNocode (BitVec.ofNat 32 n))
  | none => if n < 256 then some (isrIntentry (BitVec.ofNat 32 n)) else none

/-- The exceptions for which the processor pushes an error code. -/
def pushesCode (n : ℕ) : Bool :=
  n ∈ [8, 10, 11, 12, 13, 14, 17, 21, 29, 30]

/-- What the processor does before the first instruction of the stub; an
interrupt gate turns interrupts off. -/
def deliver (n : ℕ) (errorCode : Word) (c : Core) : Core :=
  let words :=
    if pushesCode n then [c.eflags, c.cs.setWidth 32, c.eip, errorCode]
    else [c.eflags, c.cs.setWidth 32, c.eip]
  let eflags :=
    if n < 32 then c.eflags else c.eflags &&& ~~~interruptFlag
  { c.withCpu (pushAll c.toCpu words) with eflags := eflags }

/-! ## What is saved -/

/-- The words of the frame, in the order in which they are pushed. -/
def frameWords (c : Core) (code : Word) : List Word :=
  [c.eflags, c.cs.setWidth 32, c.eip, code, c.eax, c.ecx, c.edx, c.ebx,
    c.esp - 16, c.ebp, c.esi, c.edi, c.ds.setWidth 32, c.es.setWidth 32,
    c.fs.setWidth 32, c.gs.setWidth 32]

/-- The processor behind `save_regs`. -/
def saved (c : Core) (code : Word) : Core :=
  c.withCpu { pushAll c.toCpu (frameWords c code) with
    eax := c.gs.setWidth 32
    eflags := c.eflags &&& ~~~interruptFlag }

section Stub

variable {trap : Core → Core}

theorem exec_saveRegs (c : Core) :
    exec trap c saveRegs =
      c.withCpu { pushAll c.toCpu
        [c.eax, c.ecx, c.edx, c.ebx, c.esp, c.ebp, c.esi, c.edi,
          c.ds.setWidth 32, c.es.setWidth 32, c.fs.setWidth 32,
          c.gs.setWidth 32] with
        eax := c.gs.setWidth 32 } := by
  simp only [exec, saveRegs, List.foldl, step, Core.push, Core.pusha,
    Core.withCpu, Core.getSeg, Cpu.set, Cpu.get, Cpu.push, Cpu.store, pushAll]

/-- The word at the place of the error code. -/
def codeWord (n : ℕ) (errorCode : Word) : Word :=
  if pushesCode n then errorCode else 0

/-- What stands in a stub in front of the call of the handler. -/
def entryHead (n : ℕ) : List Instr :=
  if n < 32 then
    if pushesCode n then isrExcHeader ++ saveRegs
    else isrExcHeader ++ pushFakeCode ++ saveRegs
  else pushFakeCode ++ saveRegs

/-- A stub expects an error code exactly when the processor pushes one. -/
theorem excStubs_pushesCode {n : ℕ} {stub : ExcStub}
    (hstub : excStubs[n]? = some stub) (hjmp : stub ≠ .jmp) :
    stub = .isrExcentry ↔ pushesCode n = true := by
  have hall : ∀ n < excStubs.length, ∀ stub ∈ excStubs[n]?, stub ≠ .jmp →
      (stub = .isrExcentry ↔ pushesCode n = true) := by
    decide
  obtain ⟨hlt, -⟩ := List.getElem?_eq_some_iff.1 hstub
  exact hall n hlt stub hstub hjmp

theorem pushesCode_of_ge {n : ℕ} (h : 32 ≤ n) : pushesCode n = false := by
  unfold pushesCode
  simp only [List.mem_cons, List.not_mem_nil, or_false,
    decide_eq_false_iff_not]
  omega

theorem entry_eq {n : ℕ} {code : List Instr} (hentry : entry n = some code) :
    code = entryHead n ++ (callHandler (BitVec.ofNat 32 n) ++
        (restoreRegs ++ isrFooter)) := by
  have hlength : excStubs.length = 32 := rfl
  unfold entry at hentry
  unfold entryHead
  cases hstub : excStubs[n]? with
  | none =>
      have hge := List.getElem?_eq_none_iff.1 hstub
      rw [hstub] at hentry
      rw [if_neg (by omega)]
      dsimp only at hentry
      split at hentry
      · cases hentry
        rfl
      · cases hentry
  | some stub =>
      obtain ⟨hlt, -⟩ := List.getElem?_eq_some_iff.1 hstub
      have hcode := excStubs_pushesCode hstub
      rw [hstub] at hentry
      rw [if_pos (by omega)]
      cases stub with
      | jmp => cases hentry
      | isrExcentry =>
          cases hentry
          rw [if_pos ((hcode (by decide)).1 rfl)]
          rfl
      | isrExcentryNocode =>
          cases hentry
          rw [if_neg fun h => absurd ((hcode (by decide)).2 h) (by decide)]
          rfl

/-- All stubs come to the same frame, and interrupts are off. -/
theorem exec_entryHead (n : ℕ) (errorCode : Word) (c : Core) :
    exec trap (deliver n errorCode c) (entryHead n) =
      saved c (codeWord n errorCode) := by
  have hesp : c.esp - 4 - 4 - 4 - 4 = c.esp - 16 := by bv_omega
  unfold entryHead deliver saved codeWord frameWords
  by_cases hexc : n < 32
  · rw [if_pos hexc, if_pos hexc]
    by_cases hcode : pushesCode n = true
    · rw [if_pos hcode, if_pos hcode, if_pos hcode, exec_append,
        exec_saveRegs]
      simp only [exec, isrExcHeader, List.foldl, step, Core.withCpu, pushAll,
        Cpu.push, Cpu.store, hesp]
    · rw [if_neg hcode, if_neg hcode, if_neg hcode, exec_append,
        exec_saveRegs]
      simp only [exec, isrExcHeader, pushFakeCode, List.cons_append,
        List.nil_append, List.foldl, step, Core.push, Core.withCpu, pushAll,
        Cpu.push, Cpu.store, hesp]
  · have hcode := pushesCode_of_ge (Nat.le_of_not_lt hexc)
    rw [if_neg hexc, if_neg hexc, hcode, exec_append, exec_saveRegs]
    simp only [exec, pushFakeCode, List.foldl, step, Core.push, Core.withCpu,
      pushAll, Cpu.push, Cpu.store, hesp, Bool.false_eq_true, if_false]

/-! ## The handler -/

/-- The state in which the handler is entered. -/
def called (c : Core) (n : Word) : Core :=
  c.withCpu { pushAll { c.toCpu with esp := c.esp &&& ~~~0x0f } [c.esp, n, 0]
    with ebx := c.esp }

theorem exec_callHandler {c : Core} {n : Word}
    (hebx : (trap (called c n)).ebx = (called c n).ebx) :
    exec trap c (callHandler n) =
      (trap (called c n)).withCpu
        { (trap (called c n)).toCpu with esp := c.esp } := by
  have hcalled : exec trap c (callHandler n) =
      (trap (called c n)).withCpu { (trap (called c n)).toCpu with
        esp := (trap (called c n)).ebx } := by
    simp only [exec, callHandler, List.foldl, step, called, Core.push,
      Core.withCpu, Cpu.get, Cpu.set, Cpu.push, Cpu.store, pushAll]
  rw [hcalled, hebx]
  rfl

/-- Aligning a stack moves it down by less than 16 bytes. -/
theorem and_not_fifteen (x : Word) :
    ∃ k < 16, x &&& ~~~0x0f = x - BitVec.ofNat 32 k := by
  have hmod : (x &&& 0x0f).toNat = x.toNat % 16 := by
    rw [BitVec.toNat_and]
    exact Nat.and_two_pow_sub_one_eq_mod x.toNat 4
  have hdisjoint : (x &&& ~~~0x0f) &&& (x &&& 0x0f) = 0#32 := by
    ext i hi
    simp only [BitVec.getElem_and, BitVec.getElem_not, BitVec.getElem_zero]
    cases x[i] <;> cases (0x0f : Word)[i] <;> rfl
  have hor : (x &&& ~~~0x0f) ||| (x &&& 0x0f) = x := by
    ext i hi
    simp only [BitVec.getElem_and, BitVec.getElem_not, BitVec.getElem_or]
    cases x[i] <;> cases (0x0f : Word)[i] <;> rfl
  have hsplit : (x &&& ~~~0x0f) + (x &&& 0x0f) = x := by
    rw [BitVec.add_eq_or_of_and_eq_zero _ _ hdisjoint, hor]
  refine ⟨(x &&& 0x0f).toNat, by omega, ?_⟩
  rw [BitVec.ofNat_toNat, BitVec.setWidth_eq]
  exact BitVec.eq_sub_iff_add_eq.2 hsplit

/-- The arguments do not reach into the frame. -/
theorem called_memory (c : Core) (n : Word) {i : ℕ} (hi : i < 16) :
    (called c n).memory (c.esp + BitVec.ofNat 32 (4 * i)) =
      c.memory (c.esp + BitVec.ofNat 32 (4 * i)) := by
  obtain ⟨k, hk, halign⟩ := and_not_fifteen c.esp
  show (pushAll { c.toCpu with esp := c.esp &&& ~~~0x0f }
    [c.esp, n, 0]).memory _ = c.toCpu.memory _
  apply pushAll_frame { c.toCpu with esp := c.esp &&& ~~~0x0f }
  intro j hj
  have hthree : j < 3 := hj
  dsimp only
  rw [halign]
  unfold below
  bv_omega

/-! ## The way back -/

/-- What the stub takes from the frame. -/
def restored (c : Core) : Core :=
  { c with
    es := (c.memory (c.esp + 8)).setWidth 16
    ds := (c.memory (c.esp + 12)).setWidth 16
    edi := c.memory (c.esp + 16)
    esi := c.memory (c.esp + 20)
    ebp := c.memory (c.esp + 24)
    ebx := c.memory (c.esp + 32)
    edx := c.memory (c.esp + 36)
    ecx := c.memory (c.esp + 40)
    eax := c.memory (c.esp + 44)
    eip := c.memory (c.esp + 52)
    cs := (c.memory (c.esp + 56)).setWidth 16
    eflags := c.memory (c.esp + 60)
    esp := c.esp + 64 }

theorem exec_restore (c : Core) :
    exec trap c (restoreRegs ++ isrFooter) = restored c := by
  simp only [exec, restoreRegs, isrFooter, List.cons_append, List.nil_append,
    List.foldl, step, Core.pop, Core.popa, Core.iret, Core.withCpu,
    Core.setSeg, Cpu.get, Cpu.set, Cpu.pop, restored, BitVec.ofNat_eq_ofNat,
    BitVec.add_assoc, BitVec.reduceAdd]

theorem saved_memory (c : Core) (code : Word) :
    (saved c code).memory =
      (pushAll c.toCpu (frameWords c code)).memory := rfl

theorem saved_esp (c : Core) (code : Word) :
    (saved c code).esp = c.esp - 64 :=
  pushAll_esp c.toCpu (frameWords c code)

/-- The words of the frame, from its lowest one. -/
theorem saved_word (c : Core) (code : Word) {i : ℕ} (hi : i < 16) :
    (saved c code).memory (c.esp - 64 + BitVec.ofNat 32 (4 * i)) =
      (frameWords c code).getD (15 - i) 0 := by
  have hlen : (frameWords c code).length = 16 := rfl
  have hlt : 15 - i < (frameWords c code).length := by omega
  have hroom : (frameWords c code).length < 1073741824 := by omega
  have haddress : c.esp - 64 + BitVec.ofNat 32 (4 * i) =
      below c.esp (15 - i) := by
    unfold below
    bv_omega
  rw [saved_memory, haddress, List.getD_eq_getElem _ _ hlt]
  generalize frameWords c code = words at *
  exact pushAll_getElem c.toCpu words hroom hlt

/-- The state in which the handler is entered for a vector. -/
def handlerEntry (n : ℕ) (errorCode : Word) (c : Core) : Core :=
  called (saved c (codeWord n errorCode)) (BitVec.ofNat 32 n)

/-- The handler returns to the stub, which finds its own stack by EBX; a C
function keeps this register. -/
theorem exec_entry {n : ℕ} {code : List Instr} (hentry : entry n = some code)
    {errorCode : Word} {c : Core}
    (hebx : (trap (handlerEntry n errorCode c)).ebx =
      (handlerEntry n errorCode c).ebx) :
    exec trap (deliver n errorCode c) code =
      restored ((trap (handlerEntry n errorCode c)).withCpu
        { (trap (handlerEntry n errorCode c)).toCpu with
          esp := c.esp - 64 }) := by
  rw [entry_eq hentry, exec_append, exec_append,
    exec_entryHead n errorCode c, exec_callHandler hebx, exec_restore,
    saved_esp]
  rfl

theorem setWidth_setWidth_sixteen (x : BitVec 16) :
    (x.setWidth 32).setWidth 16 = x := by
  simp

theorem handlerEntry_word (n : ℕ) (errorCode : Word) (c : Core) {i : ℕ}
    (hi : i < 16) :
    (handlerEntry n errorCode c).memory
        (c.esp - 64 + BitVec.ofNat 32 (4 * i)) =
      (frameWords c (codeWord n errorCode)).getD (15 - i) 0 := by
  have hcalled := called_memory (saved c (codeWord n errorCode))
    (BitVec.ofNat 32 n) hi
  rw [saved_esp, saved_word c (codeWord n errorCode) hi] at hcalled
  exact hcalled

theorem handlerEntry_ebx (n : ℕ) (errorCode : Word) (c : Core) :
    (handlerEntry n errorCode c).ebx = c.esp - 64 :=
  saved_esp c (codeWord n errorCode)

/-- A frame with its words in place brings everything back but FS and GS. -/
theorem restored_frame {c d : Core} {code : Word}
    (hword : ∀ i < 16, d.memory (c.esp - 64 + BitVec.ofNat 32 (4 * i)) =
      (frameWords c code).getD (15 - i) 0) :
    restored (d.withCpu { d.toCpu with esp := c.esp - 64 }) =
      { c with fs := d.fs, gs := d.gs, memory := d.memory } := by
  have hes : d.memory (c.esp - 64 + 8) = c.es.setWidth 32 :=
    hword 2 (by decide)
  have hds : d.memory (c.esp - 64 + 12) = c.ds.setWidth 32 :=
    hword 3 (by decide)
  have hedi : d.memory (c.esp - 64 + 16) = c.edi := hword 4 (by decide)
  have hesi : d.memory (c.esp - 64 + 20) = c.esi := hword 5 (by decide)
  have hebp : d.memory (c.esp - 64 + 24) = c.ebp := hword 6 (by decide)
  have hebx : d.memory (c.esp - 64 + 32) = c.ebx := hword 8 (by decide)
  have hedx : d.memory (c.esp - 64 + 36) = c.edx := hword 9 (by decide)
  have hecx : d.memory (c.esp - 64 + 40) = c.ecx := hword 10 (by decide)
  have heax : d.memory (c.esp - 64 + 44) = c.eax := hword 11 (by decide)
  have heip : d.memory (c.esp - 64 + 52) = c.eip := hword 13 (by decide)
  have hcs : d.memory (c.esp - 64 + 56) = c.cs.setWidth 32 :=
    hword 14 (by decide)
  have heflags : d.memory (c.esp - 64 + 60) = c.eflags :=
    hword 15 (by decide)
  have htop : c.esp - 64 + 64 = c.esp := by bv_omega
  simp only [restored, Core.withCpu, hes, hds, hedi, hesi, hebp, hebx, hedx,
    hecx, heax, heip, hcs, heflags, htop, setWidth_setWidth_sixteen]

/-- The handler is a C function, so that it keeps EBX, and leaves the words of
the frame as they are. -/
structure Returns (trap : Core → Core) (e : Core) : Prop where
  ebx : (trap e).ebx = e.ebx
  frame : ∀ i < 16, (trap e).memory (e.ebx + BitVec.ofNat 32 (4 * i)) =
    e.memory (e.ebx + BitVec.ofNat 32 (4 * i))

/-- An interrupt cannot be seen by the code it comes into, whatever the vector:
when the handler returns and leaves the frame as it is, everything but FS and
GS is what it was, with interrupts on or off as before. -/
theorem interrupt_transparent {n : ℕ} {code : List Instr}
    (hentry : entry n = some code) {errorCode : Word} {c : Core}
    (hreturns : Returns trap (handlerEntry n errorCode c)) :
    exec trap (deliver n errorCode c) code =
      { c with
        fs := (trap (handlerEntry n errorCode c)).fs
        gs := (trap (handlerEntry n errorCode c)).gs
        memory := (trap (handlerEntry n errorCode c)).memory } := by
  have hword : ∀ i < 16, (trap (handlerEntry n errorCode c)).memory
      (c.esp - 64 + BitVec.ofNat 32 (4 * i)) =
        (frameWords c (codeWord n errorCode)).getD (15 - i) 0 := by
    intro i hi
    have hframe := hreturns.frame i hi
    rw [handlerEntry_ebx] at hframe
    exact hframe.trans (handlerEntry_word n errorCode c hi)
  rw [exec_entry hentry hreturns.ebx]
  exact restored_frame hword

end Stub

/-- A handler which only counts, in a word of its own. -/
def countingHandler (e : Core) : Core :=
  { e with
    eax := 0
    esp := e.esp + 4
    memory := Function.update e.memory 0x8000 (e.memory 0x8000 + 1) }

def runningCore : Core where
  eax := 1
  ecx := 2
  edx := 3
  ebx := 4
  esp := 0x1000
  ebp := 5
  esi := 6
  edi := 7
  eflags := 0x202
  eip := 0x42
  memory := fun _ => 0
  cs := 8
  ds := 16
  es := 16
  fs := 16
  gs := 16

theorem interrupt_transparent_running :
    (exec countingHandler (deliver 32 0 runningCore) (isrIntentry 32)).eax =
      1 := by
  have hreturns : Returns countingHandler (handlerEntry 32 0 runningCore) := by
    refine ⟨rfl, fun i hi => ?_⟩
    rw [handlerEntry_ebx]
    apply Function.update_of_ne
    show (0x1000 : Word) - 64 + BitVec.ofNat 32 (4 * i) ≠ 0x8000
    bv_omega
  have hentry : entry 32 = some (isrIntentry 32) := rfl
  exact congrArg (fun c : Core => c.eax)
    (interrupt_transparent hentry hreturns)

end IsrEntry
end Yjkos
