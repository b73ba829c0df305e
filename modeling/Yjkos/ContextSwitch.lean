import Mathlib.Data.List.GetD
import Yjkos.MiscMath
import Yjkos.StackMachine

/-!
# Threads and their stacks

`archi586_context_switch`, `arch_thread_switch` and `arch_thread_create` of the
i586 port.  A thread which is not running is a stack pointer in its
`struct arch_thread` and a frame of saved registers on its stack.  As long as
the others keep to their own stacks it goes on with the registers it had when
it called `arch_thread_switch`, whatever ran in between.
-/

namespace Yjkos
namespace ContextSwitch

open StackMachine

/-! ## Switching -/

def archi586ContextSwitch : List Instr :=
  [.push .ebp, .mov .esp .ebp, .pushf,
    .push .ebx, .push .esi, .push .edi,
    .load 8 .ebp .ecx, .store .esp .ecx,
    .load 12 .ebp .esp,
    .pop .edi, .pop .esi, .pop .ebx, .popf, .pop .ebp, .ret]

/-- `saved_esp` is the first member of `struct arch_thread`. -/
def archThreadSwitch (fromThread toThread returnAddress : Word) (c : Cpu) :
    Except Fault Cpu := do
  cAssert (fromThread ≠ 0) "from != nullptr"
  .ok (exec (call c [fromThread, c.memory toThread] returnAddress)
    archi586ContextSwitch)

/-! ## Creating -/

/-- `STACK_IDX` -/
inductive StackIdx where
  | edi
  | esi
  | ebx
  | eflags
  | ebp
  | eip
  | mainRetaddr
  | mainArg0
deriving DecidableEq, Repr

def StackIdx.offset : StackIdx → Word
  | .edi => 0
  | .esi => 4
  | .ebx => 8
  | .eflags => 12
  | .ebp => 16
  | .eip => 20
  | .mainRetaddr => 24
  | .mainArg0 => 28

/-- `STACK_MINSIZE` -/
def stackMinsize : ℕ := 32

def threadStacksize (initStacksize : ℕ) : ℕ :=
  let stacksize :=
    if initStacksize < stackMinsize then stackMinsize else initStacksize
  if stacksize % 4 ≠ 0 then alignUp stacksize 4 else stacksize

/-- `esp[idx] = value` -/
def setItem (esp : Word) (idx : StackIdx) (value : Word)
    (memory : Word → Word) : Word → Word :=
  Function.update memory (esp + idx.offset) value

/-- `heap` gives the block for a size, and `exitcallback` is the address of
that function. -/
def archThreadCreate (heap : ℕ → Word) (initStacksize : ℕ)
    (initMainfunc initData exitcallback : Word) (memory : Word → Word) :
    Except Fault (Word × (Word → Word)) := do
  let stacksize := threadStacksize initStacksize
  cAssert (stacksize % 4 = 0) "(stacksize % sizeof(uint32_t)) == 0"
  if sizeMax - 4 < stacksize then .ok (0, memory)
  else if heap (4 + stacksize) = 0 then .ok (0, memory)
  else
    let thread := heap (4 + stacksize)
    let stackTop := stacksize / 4
    let esp := thread + 4 + BitVec.ofNat 32 (4 * stackTop) - 32
    let memory := setItem esp .mainRetaddr exitcallback memory
    let memory := setItem esp .mainArg0 initData memory
    let memory := setItem esp .eip initMainfunc memory
    let memory := setItem esp .ebp 0 memory
    let memory := setItem esp .eflags 0 memory
    let memory := setItem esp .ebx 0 memory
    let memory := setItem esp .esi 0 memory
    let memory := setItem esp .edi 0 memory
    .ok (thread, Function.update memory thread esp)

/-! ## Frames -/

/-- What a thread which is not running has on the top of its stack. -/
@[ext]
structure Frame where
  edi : Word
  esi : Word
  ebx : Word
  eflags : Word
  ebp : Word
  eip : Word
deriving DecidableEq, Repr

def frameAt (memory : Word → Word) (esp : Word) : Frame where
  edi := memory (esp + StackIdx.edi.offset)
  esi := memory (esp + StackIdx.esi.offset)
  ebx := memory (esp + StackIdx.ebx.offset)
  eflags := memory (esp + StackIdx.eflags.offset)
  ebp := memory (esp + StackIdx.ebp.offset)
  eip := memory (esp + StackIdx.eip.offset)

/-- What a call of `arch_thread_switch` has to bring back. -/
def frameOf (c : Cpu) (returnAddress : Word) : Frame where
  edi := c.edi
  esi := c.esi
  ebx := c.ebx
  eflags := c.eflags
  ebp := c.ebp
  eip := returnAddress

/-- The words which a switch pushes. -/
def pushed (c : Cpu) (fromThread toThread returnAddress : Word) : List Word :=
  [c.memory toThread, fromThread, returnAddress, c.ebp, c.eflags, c.ebx,
    c.esi, c.edi]

/-- The memory in which the next thread goes on. -/
def memoryAfter (c : Cpu) (fromThread toThread returnAddress : Word) :
    Word → Word :=
  Function.update
    (pushAll c (pushed c fromThread toThread returnAddress)).memory fromThread
    (c.esp - 32)

/-- The processor with a frame taken from a stack. -/
def restored (c : Cpu) (memory : Word → Word) (esp : Word) : Cpu :=
  { c with
    edi := (frameAt memory esp).edi
    esi := (frameAt memory esp).esi
    ebx := (frameAt memory esp).ebx
    eflags := (frameAt memory esp).eflags
    ebp := (frameAt memory esp).ebp
    eip := (frameAt memory esp).eip
    esp := esp + 24
    memory := memory }

theorem exec_restore (c : Cpu) :
    exec c [.pop .edi, .pop .esi, .pop .ebx, .popf, .pop .ebp, .ret] =
      restored c c.memory c.esp := by
  simp only [exec, List.foldl, step, Cpu.pop, Cpu.set, restored, frameAt,
    StackIdx.offset, BitVec.ofNat_eq_ofNat, BitVec.add_zero,
    BitVec.add_assoc, BitVec.reduceAdd]

section Switch

variable {c : Cpu} {fromThread toThread : Word}

/-- The frame is saved behind the arguments. -/
theorem exec_save (returnAddress : Word) :
    exec (call c [fromThread, c.memory toThread] returnAddress)
        [.push .ebp, .mov .esp .ebp, .pushf, .push .ebx, .push .esi,
          .push .edi] =
      { c with
        ebp := below c.esp 3
        esp := c.esp - 32
        memory :=
          (pushAll c (pushed c fromThread toThread returnAddress)).memory } := by
  have hebp : c.esp - 4 - 4 - 4 - 4 = below c.esp 3 := by
    unfold below
    bv_omega
  have hpushed : exec (call c [fromThread, c.memory toThread] returnAddress)
      [.push .ebp, .mov .esp .ebp, .pushf, .push .ebx, .push .esi,
        .push .edi] =
      { pushAll c (pushed c fromThread toThread returnAddress) with
        ebp := below c.esp 3 } := by
    simp only [exec, List.foldl, step, call, pushAll, pushed,
      List.reverse_cons, List.reverse_nil, List.nil_append, List.cons_append,
      Cpu.push, Cpu.store, Cpu.get, Cpu.set, hebp]
  have hesp : c.esp - BitVec.ofNat 32 (4 * (pushed c fromThread toThread
      returnAddress).length) = c.esp - 32 := rfl
  have hregs := pushAll_eq c (pushed c fromThread toThread returnAddress)
  rw [hesp] at hregs
  rw [hpushed]
  revert hregs
  generalize pushAll c (pushed c fromThread toThread returnAddress) = d
  intro hregs
  rw [hregs]

/-- The stack pointer is kept in the thread which goes away and taken from the
one which comes. -/
theorem exec_stacks (returnAddress : Word)
    (hslot : ∀ i < 8, fromThread ≠ below c.esp i) :
    exec { c with
        ebp := below c.esp 3
        esp := c.esp - 32
        memory :=
          (pushAll c (pushed c fromThread toThread returnAddress)).memory }
      [.load 8 .ebp .ecx, .store .esp .ecx, .load 12 .ebp .esp] =
      { c with
        ecx := fromThread
        ebp := below c.esp 3
        esp := c.memory toThread
        memory := memoryAfter c fromThread toThread returnAddress } := by
  have hlen : (pushed c fromThread toThread returnAddress).length = 8 := rfl
  have hwords := @pushAll_getElem c
    (pushed c fromThread toThread returnAddress) (by rw [hlen]; decide)
  have hold := @hwords 1 (by rw [hlen]; decide)
  have hnew := @hwords 0 (by rw [hlen]; decide)
  have hfrom : below c.esp 3 + 8 = below c.esp 1 := by
    unfold below
    bv_omega
  have hto : below c.esp 3 + 12 = below c.esp 0 := by
    unfold below
    bv_omega
  have hargument : below c.esp 0 ≠ fromThread :=
    (hslot 0 (by decide)).symm
  unfold memoryAfter
  revert hold hnew
  generalize (pushAll c (pushed c fromThread toThread
    returnAddress)).memory = m
  intro hold hnew
  have hslotWord : m (below c.esp 1) = fromThread := hold
  have hnewEsp : m (below c.esp 0) = c.memory toThread := hnew
  simp only [exec, List.foldl, step, Cpu.get, Cpu.set, Cpu.store, hfrom, hto,
    hslotWord, Function.update_of_ne hargument, hnewEsp]

end Switch

theorem archThreadSwitch_eq {c : Cpu} {fromThread toThread : Word}
    (returnAddress : Word) (hfrom : fromThread ≠ 0)
    (hslot : ∀ i < 8, fromThread ≠ below c.esp i) :
    archThreadSwitch fromThread toThread returnAddress c =
      .ok (restored { c with ecx := fromThread }
        (memoryAfter c fromThread toThread returnAddress)
        (c.memory toThread)) := by
  have hcode : archi586ContextSwitch =
      [.push .ebp, .mov .esp .ebp, .pushf, .push .ebx, .push .esi,
        .push .edi] ++
      ([.load 8 .ebp .ecx, .store .esp .ecx, .load 12 .ebp .esp] ++
        [.pop .edi, .pop .esi, .pop .ebx, .popf, .pop .ebp, .ret]) := rfl
  unfold archThreadSwitch
  rw [cAssert_of (decide_eq_true hfrom), ok_bind, hcode, exec_append,
    exec_append, exec_save, exec_stacks returnAddress hslot, exec_restore]
  rfl

/-! ## Threads and their words -/

/-- Where the threads have their `struct arch_thread` and their stacks. -/
structure Layout (ι : Type) where
  slot : ι → Word
  stack : ι → Set Word
  slot_ne_zero : ∀ t, slot t ≠ 0
  slot_inj : Function.Injective slot
  slot_not_mem : ∀ t u, slot t ∉ stack u
  disjoint : ∀ t u, t ≠ u → ∀ a ∈ stack t, a ∉ stack u

section System

variable {ι : Type}

/-- The words of a thread. -/
def Layout.owned (L : Layout ι) (t : ι) : Set Word :=
  { a | a = L.slot t ∨ a ∈ L.stack t }

theorem Layout.ne_of_owned (L : Layout ι) {t u : ι} (hne : t ≠ u) {a b : Word}
    (ha : a ∈ L.owned t) (hb : b ∈ L.owned u) : a ≠ b := by
  rintro rfl
  rcases ha with ha | ha
  · rcases hb with hb | hb
    · exact hne (L.slot_inj (ha.symm.trans hb))
    · exact L.slot_not_mem t u (ha ▸ hb)
  · rcases hb with hb | hb
    · exact L.slot_not_mem u t (hb ▸ ha)
    · exact L.disjoint t u hne a ha hb

/-- The processor runs one of the threads which there are. -/
structure System (ι : Type) where
  cpu : Cpu
  running : ι
  threads : Set ι

/-- The running thread calls `arch_thread_switch`, with room for the call on
its stack. -/
structure Switches (L : Layout ι) (returnAddress : Word) (next : ι)
    (s s' : System ι) : Prop where
  created : next ∈ s.threads
  other : next ≠ s.running
  room : ∀ i < 8, below s.cpu.esp i ∈ L.stack s.running
  code : archThreadSwitch (L.slot s.running) (L.slot next) returnAddress
    s.cpu = .ok s'.cpu
  running : s'.running = next
  threads : s'.threads = s.threads

/-- What is asked of `arch_thread_create`. -/
structure Creation where
  heap : ℕ → Word
  initStacksize : ℕ
  initMainfunc : Word
  initData : Word
  exitcallback : Word

/-- The words of the array behind `struct arch_thread`. -/
def threadStack (thread : Word) (stacksize : ℕ) : Set Word :=
  { a | ∃ i < stacksize / 4, a = thread + 4 + BitVec.ofNat 32 (4 * i) }

/-- The running thread creates another one. -/
structure Creates (L : Layout ι) (creation : Creation) (new : ι)
    (s s' : System ι) : Prop where
  fresh : new ∉ s.threads
  size : creation.initStacksize ≤ 0xfffffffc
  stack : L.stack new =
    threadStack (L.slot new) (threadStacksize creation.initStacksize)
  code : archThreadCreate creation.heap creation.initStacksize
    creation.initMainfunc creation.initData creation.exitcallback
    s.cpu.memory = .ok (L.slot new, s'.cpu.memory)
  running : s'.running = s.running
  threads : s'.threads = insert new s.threads

/-- The running thread does anything else, and keeps to its own words. -/
structure Works (L : Layout ι) (s s' : System ι) : Prop where
  keeps : ∀ t ∈ s.threads, t ≠ s.running → ∀ a ∈ L.owned t,
    s'.cpu.memory a = s.cpu.memory a
  running : s'.running = s.running
  threads : s'.threads = s.threads

inductive Step (L : Layout ι) (s s' : System ι) : Prop where
  | work (h : Works L s s')
  | switch (returnAddress : Word) (next : ι)
      (h : Switches L returnAddress next s s')
  | create (creation : Creation) (new : ι) (h : Creates L creation new s s')

/-- Steps in which a thread is not running. -/
def Away (L : Layout ι) (t : ι) : System ι → System ι → Prop :=
  Relation.ReflTransGen fun s s' =>
    Step L s s' ∧ s.running ≠ t ∧ s'.running ≠ t

/-- A thread waits to go on with this frame. -/
structure Sleeps (L : Layout ι) (t : ι) (frame : Frame) (esp : Word)
    (memory : Word → Word) : Prop where
  saved : memory (L.slot t) = esp
  frame : frameAt memory esp = frame
  inside : ∀ i < 6, esp + BitVec.ofNat 32 (4 * i) ∈ L.stack t

variable {L : Layout ι} {s s' : System ι} {t : ι}

/-- Nothing of a thread changes but what is written into its words. -/
theorem Sleeps.of_eq {frame : Frame} {esp : Word} {memory memory' : Word → Word}
    (h : Sleeps L t frame esp memory)
    (hkeep : ∀ a ∈ L.owned t, memory' a = memory a) :
    Sleeps L t frame esp memory' where
  saved := (hkeep _ (Or.inl rfl)).trans h.saved
  frame := by
    have hword : ∀ i < 6, memory' (esp + BitVec.ofNat 32 (4 * i)) =
        memory (esp + BitVec.ofNat 32 (4 * i)) :=
      fun i hi => hkeep _ (Or.inr (h.inside i hi))
    rw [← h.frame]
    exact Frame.ext (hword 0 (by decide)) (hword 1 (by decide))
      (hword 2 (by decide)) (hword 3 (by decide)) (hword 4 (by decide))
      (hword 5 (by decide))
  inside := h.inside

/-! ## What a switch does -/

theorem Switches.cpu {returnAddress : Word} {next : ι}
    (h : Switches L returnAddress next s s') :
    s'.cpu = restored { s.cpu with ecx := L.slot s.running }
      (memoryAfter s.cpu (L.slot s.running) (L.slot next) returnAddress)
      (s.cpu.memory (L.slot next)) := by
  have hslot : ∀ i < 8, L.slot s.running ≠ below s.cpu.esp i := by
    intro i hi heq
    have hroom := h.room i hi
    rw [← heq] at hroom
    exact L.slot_not_mem s.running s.running hroom
  have hcode := h.code
  rw [archThreadSwitch_eq returnAddress (L.slot_ne_zero _) hslot] at hcode
  injection hcode with hcpu
  exact hcpu.symm

/-- A switch writes into the thread which goes away and nowhere else. -/
theorem Switches.memory_of_not_mem {returnAddress : Word} {next : ι}
    (h : Switches L returnAddress next s s') {a : Word}
    (hslot : a ≠ L.slot s.running) (hout : ∀ i < 8, a ≠ below s.cpu.esp i) :
    s'.cpu.memory a = s.cpu.memory a := by
  rw [h.cpu]
  show memoryAfter s.cpu (L.slot s.running) (L.slot next) returnAddress a = _
  unfold memoryAfter
  rw [Function.update_of_ne hslot]
  exact pushAll_frame s.cpu _ hout

theorem Switches.keeps {returnAddress : Word} {next : ι}
    (h : Switches L returnAddress next s s') (hne : t ≠ s.running) {a : Word}
    (ha : a ∈ L.owned t) : s'.cpu.memory a = s.cpu.memory a := by
  apply h.memory_of_not_mem
  · exact L.ne_of_owned hne ha (Or.inl rfl)
  · intro i hi
    exact L.ne_of_owned hne ha (Or.inr (h.room i hi))

theorem Switches.memory_below {returnAddress : Word} {next : ι}
    (h : Switches L returnAddress next s s') {i : ℕ} (hi : i < 8) :
    s'.cpu.memory (below s.cpu.esp i) =
      (pushed s.cpu (L.slot s.running) (L.slot next) returnAddress).getD i
        0 := by
  have hlen : i < (pushed s.cpu (L.slot s.running) (L.slot next)
      returnAddress).length := hi
  have hslot : below s.cpu.esp i ≠ L.slot s.running := by
    intro heq
    have hroom := h.room i hi
    rw [heq] at hroom
    exact L.slot_not_mem s.running s.running hroom
  rw [h.cpu]
  show memoryAfter s.cpu (L.slot s.running) (L.slot next) returnAddress _ = _
  unfold memoryAfter
  rw [Function.update_of_ne hslot, List.getD_eq_getElem _ _ hlen]
  exact pushAll_getElem s.cpu _ (by unfold pushed; simp) hlen

theorem below_seven_add (esp : Word) {i : ℕ} (hi : i ≤ 7) :
    esp - 32 + BitVec.ofNat 32 (4 * i) = below esp (7 - i) := by
  unfold below
  bv_omega

/-- The thread which goes away sleeps with the registers of its call. -/
theorem Switches.sleeps {returnAddress : Word} {next : ι}
    (h : Switches L returnAddress next s s') :
    Sleeps L s.running (frameOf s.cpu returnAddress) (s.cpu.esp - 32)
      s'.cpu.memory where
  saved := by
    rw [h.cpu]
    exact Function.update_self _ _ _
  frame := by
    have hword : ∀ i (hi : i ≤ 7), s'.cpu.memory
        (s.cpu.esp - 32 + BitVec.ofNat 32 (4 * i)) =
          (pushed s.cpu (L.slot s.running) (L.slot next)
            returnAddress).getD (7 - i) 0 := by
      intro i hi
      rw [below_seven_add s.cpu.esp hi]
      exact h.memory_below (by omega)
    have hedi := hword 0 (by decide)
    have hesi := hword 1 (by decide)
    have hebx := hword 2 (by decide)
    have heflags := hword 3 (by decide)
    have hebp := hword 4 (by decide)
    have heip := hword 5 (by decide)
    exact Frame.ext hedi hesi hebx heflags hebp heip
  inside := by
    intro i hi
    rw [below_seven_add s.cpu.esp (by omega)]
    exact h.room (7 - i) (by omega)

/-- The thread which comes goes on with its frame. -/
theorem Switches.resumes {returnAddress : Word} {next : ι}
    (h : Switches L returnAddress next s s') {frame : Frame} {esp : Word}
    (hsleeps : Sleeps L next frame esp s.cpu.memory) :
    frameOf s'.cpu s'.cpu.eip = frame ∧ s'.cpu.esp = esp + 24 := by
  have hkept := hsleeps.of_eq fun a ha => h.keeps h.other ha
  have hcpu := h.cpu
  have hmemory : s'.cpu.memory = memoryAfter s.cpu (L.slot s.running)
      (L.slot next) returnAddress := by
    rw [hcpu]
    rfl
  rw [hsleeps.saved, ← hmemory] at hcpu
  have hframe : frameOf s'.cpu s'.cpu.eip = frameAt s'.cpu.memory esp := by
    rw [hcpu]
    rfl
  constructor
  · rw [hframe]
    exact hkept.frame
  · rw [hcpu]
    rfl

end System

/-! ## What creating a thread does -/

theorem threadStacksize_spec {initStacksize : ℕ}
    (hsize : initStacksize ≤ 0xfffffffc) :
    32 ≤ threadStacksize initStacksize ∧
      threadStacksize initStacksize % 4 = 0 ∧
      threadStacksize initStacksize ≤ 0xfffffffc := by
  have hmin : ∀ n, 32 ≤ n → n ≤ 0xfffffffc →
      32 ≤ (if n % 4 ≠ 0 then alignUp n 4 else n) ∧
        (if n % 4 ≠ 0 then alignUp n 4 else n) % 4 = 0 ∧
        (if n % 4 ≠ 0 then alignUp n 4 else n) ≤ 0xfffffffc := by
    intro n hlow hhigh
    split
    · next hmod =>
      have haligned : ¬isAligned n 4 = true := by
        unfold isAligned
        simpa using hmod
      unfold alignUp
      rw [if_neg haligned, wrap_of_lt (by omega)]
      omega
    · next hmod => omega
  unfold threadStacksize stackMinsize
  dsimp only
  split
  · exact hmin 32 le_rfl (by decide)
  · exact hmin initStacksize (by omega) hsize

/-- The words of a thread which has not run. -/
def initialWord (creation : Creation) : StackIdx → Word
  | .eip => creation.initMainfunc
  | .mainRetaddr => creation.exitcallback
  | .mainArg0 => creation.initData
  | _ => 0

/-- The stack pointer of a thread which has not run. -/
def initialEsp (thread : Word) (stacksize : ℕ) : Word :=
  thread + 4 + BitVec.ofNat 32 (4 * (stacksize / 4)) - 32

theorem StackIdx.offset_inj {i j : StackIdx} (h : i.offset = j.offset) :
    i = j := by
  cases i <;> cases j <;> first | rfl | exact absurd h (by decide)

section Items

variable (esp : Word) (value : Word) (memory : Word → Word)

theorem setItem_self (idx : StackIdx) :
    setItem esp idx value memory (esp + idx.offset) = value :=
  Function.update_self _ _ _

theorem setItem_of_ne {idx other : StackIdx} (hne : other ≠ idx) :
    setItem esp idx value memory (esp + other.offset) =
      memory (esp + other.offset) := by
  apply Function.update_of_ne
  intro heq
  exact hne (StackIdx.offset_inj ((BitVec.add_right_inj _).1 heq))

theorem setItem_outside {a : Word} (hout : ∀ idx : StackIdx,
    a ≠ esp + idx.offset) (idx : StackIdx) :
    setItem esp idx value memory a = memory a :=
  Function.update_of_ne (hout idx) _ _

end Items

/-- All the items, in the order in which they are written. -/
def setItems (esp : Word) (creation : Creation) (memory : Word → Word) :
    Word → Word :=
  [StackIdx.mainRetaddr, .mainArg0, .eip, .ebp, .eflags, .ebx, .esi,
    .edi].foldl (fun memory idx =>
      setItem esp idx (initialWord creation idx) memory) memory

theorem setItems_item (esp : Word) (creation : Creation)
    (memory : Word → Word) (idx : StackIdx) :
    setItems esp creation memory (esp + idx.offset) =
      initialWord creation idx := by
  unfold setItems
  cases idx <;>
    simp only [List.foldl, setItem_self, setItem_of_ne, ne_eq, reduceCtorEq,
      not_false_eq_true]

theorem setItems_outside {esp : Word} (creation : Creation)
    (memory : Word → Word) {a : Word}
    (hout : ∀ idx : StackIdx, a ≠ esp + idx.offset) :
    setItems esp creation memory a = memory a := by
  unfold setItems
  simp only [List.foldl, setItem_outside esp _ _ hout]

/-- The thread is there when the array fits behind the header and the heap has
a block. -/
theorem archThreadCreate_eq {creation : Creation} (memory : Word → Word)
    (hmod : threadStacksize creation.initStacksize % 4 = 0)
    (hroom : threadStacksize creation.initStacksize ≤ sizeMax - 4)
    {thread : Word} (hthread : thread ≠ 0)
    (hheap : creation.heap (4 + threadStacksize creation.initStacksize) =
      thread) :
    archThreadCreate creation.heap creation.initStacksize
        creation.initMainfunc creation.initData creation.exitcallback memory =
      .ok (thread, Function.update
        (setItems (initialEsp thread (threadStacksize creation.initStacksize))
          creation memory) thread
        (initialEsp thread (threadStacksize creation.initStacksize))) := by
  unfold archThreadCreate
  dsimp only
  rw [cAssert_of (decide_eq_true hmod), ok_bind, if_neg (by omega), hheap,
    if_neg hthread]
  rfl

theorem archThreadCreate_null {creation : Creation} (memory : Word → Word)
    (hmod : threadStacksize creation.initStacksize % 4 = 0)
    (hnone : sizeMax - 4 < threadStacksize creation.initStacksize ∨
      creation.heap (4 + threadStacksize creation.initStacksize) = 0) :
    archThreadCreate creation.heap creation.initStacksize
        creation.initMainfunc creation.initData creation.exitcallback memory =
      .ok (0, memory) := by
  unfold archThreadCreate
  dsimp only
  rw [cAssert_of (decide_eq_true hmod), ok_bind]
  split
  · rfl
  · next hroom => rw [if_pos (hnone.resolve_left hroom)]

/-- The items stand at the end of the stack. -/
theorem item_mem_threadStack (thread : Word) {stacksize : ℕ}
    (hlow : 32 ≤ stacksize) (idx : StackIdx) :
    initialEsp thread stacksize + idx.offset ∈
      threadStack thread stacksize := by
  have hoffset : ∃ k < 8, idx.offset = BitVec.ofNat 32 (4 * k) := by
    cases idx
    · exact ⟨0, by decide, rfl⟩
    · exact ⟨1, by decide, rfl⟩
    · exact ⟨2, by decide, rfl⟩
    · exact ⟨3, by decide, rfl⟩
    · exact ⟨4, by decide, rfl⟩
    · exact ⟨5, by decide, rfl⟩
    · exact ⟨6, by decide, rfl⟩
    · exact ⟨7, by decide, rfl⟩
  obtain ⟨k, hk, hoffset⟩ := hoffset
  rw [hoffset]
  refine ⟨stacksize / 4 - 8 + k, by omega, ?_⟩
  unfold initialEsp
  bv_omega

/-- A size which is rounded up over the end of the range leaves no stack. -/
theorem threadStacksize_wraps {initStacksize : ℕ}
    (hword : initStacksize ≤ sizeMax) (hlarge : 0xfffffffc < initStacksize) :
    threadStacksize initStacksize = 0 := by
  unfold sizeMax at hword
  have hcases : initStacksize = 0xfffffffd ∨ initStacksize = 0xfffffffe ∨
      initStacksize = 0xffffffff := by omega
  rcases hcases with rfl | rfl | rfl <;> decide

/-- `arch_thread_create` keeps to its block exactly when the size of the stack
can be rounded up. -/
theorem archThreadCreate_inside_iff {creation : Creation} {thread : Word}
    (hword : creation.initStacksize ≤ sizeMax) (hthread : thread ≠ 0)
    (hroom : threadStacksize creation.initStacksize ≤ sizeMax - 4)
    (hheap : creation.heap (4 + threadStacksize creation.initStacksize) =
      thread) :
    (∀ memory memory', archThreadCreate creation.heap creation.initStacksize
        creation.initMainfunc creation.initData creation.exitcallback
          memory = .ok (thread, memory') →
      ∀ a, a ≠ thread →
        a ∉ threadStack thread (threadStacksize creation.initStacksize) →
          memory' a = memory a) ↔
      creation.initStacksize ≤ 0xfffffffc := by
  constructor
  · intro hinside
    by_contra hlarge
    have hnone := threadStacksize_wraps hword (Nat.lt_of_not_le hlarge)
    have hmod : threadStacksize creation.initStacksize % 4 = 0 := by
      rw [hnone]
    have hcode := archThreadCreate_eq (fun _ => 1) hmod hroom hthread hheap
    have hflags := hinside _ _ hcode
      (initialEsp thread 0 + StackIdx.eflags.offset)
    have hapart : initialEsp thread 0 + StackIdx.eflags.offset ≠ thread := by
      unfold initialEsp StackIdx.offset
      bv_omega
    rw [hnone, Function.update_of_ne hapart, setItems_item] at hflags
    have hout : initialEsp thread 0 + StackIdx.eflags.offset ∉
        threadStack thread 0 := by
      rintro ⟨i, hi, -⟩
      exact Nat.not_lt_zero i hi
    have hzero : (0 : Word) = 1 := hflags hapart hout
    exact absurd hzero (by decide)
  · intro hsize memory memory' hcode a hslot hout
    obtain ⟨hlow, hmod, -⟩ := threadStacksize_spec hsize
    rw [archThreadCreate_eq memory hmod hroom hthread hheap] at hcode
    injection hcode with hpair
    injection hpair with _ hmemory
    rw [← hmemory, Function.update_of_ne hslot]
    apply setItems_outside
    rintro idx rfl
    exact hout (item_mem_threadStack thread hlow idx)

theorem archThreadCreate_inside_iff_wrapped :
    ¬∀ memory memory', archThreadCreate (fun _ => 0x2000) 0xffffffff 0x42 5
        0x66 memory = .ok (0x2000, memory') →
      ∀ a, a ≠ 0x2000 → a ∉ threadStack 0x2000 0 →
        memory' a = memory a := by
  have hiff := @archThreadCreate_inside_iff
    ⟨fun _ => 0x2000, 0xffffffff, 0x42, 5, 0x66⟩ 0x2000 (by decide) (by decide)
    (by decide) rfl
  exact fun h => absurd (hiff.1 h) (by decide)

section Creates

variable {ι : Type} {L : Layout ι} {s s' : System ι} {creation : Creation}
  {new : ι}

theorem Creates.room (h : Creates L creation new s s') :
    threadStacksize creation.initStacksize ≤ sizeMax - 4 ∧
      creation.heap (4 + threadStacksize creation.initStacksize) =
        L.slot new := by
  obtain ⟨-, hmod, -⟩ := threadStacksize_spec h.size
  have hcode := h.code
  by_cases hnone : sizeMax - 4 < threadStacksize creation.initStacksize ∨
      creation.heap (4 + threadStacksize creation.initStacksize) = 0
  · rw [archThreadCreate_null _ hmod hnone] at hcode
    injection hcode with hpair
    exact absurd (congrArg Prod.fst hpair).symm (L.slot_ne_zero new)
  · obtain ⟨hroom, hheap⟩ := not_or.1 hnone
    rw [archThreadCreate_eq _ hmod (Nat.le_of_not_lt hroom) hheap rfl] at hcode
    injection hcode with hpair
    exact ⟨Nat.le_of_not_lt hroom, congrArg Prod.fst hpair⟩

theorem Creates.memory (h : Creates L creation new s s') :
    s'.cpu.memory = Function.update
      (setItems (initialEsp (L.slot new)
        (threadStacksize creation.initStacksize)) creation s.cpu.memory)
      (L.slot new)
      (initialEsp (L.slot new) (threadStacksize creation.initStacksize)) := by
  obtain ⟨-, hmod, -⟩ := threadStacksize_spec h.size
  obtain ⟨hroom, hheap⟩ := h.room
  have hcode := h.code
  rw [archThreadCreate_eq _ hmod hroom (L.slot_ne_zero new) hheap] at hcode
  injection hcode with hpair
  exact (congrArg Prod.snd hpair).symm

theorem Creates.item_mem (h : Creates L creation new s s') (idx : StackIdx) :
    initialEsp (L.slot new) (threadStacksize creation.initStacksize) +
      idx.offset ∈ L.stack new := by
  rw [h.stack]
  exact item_mem_threadStack (L.slot new) (threadStacksize_spec h.size).1 idx

/-- Only the words of the new thread are written. -/
theorem Creates.keeps (h : Creates L creation new s s') {t : ι}
    (hne : t ≠ new) {a : Word} (ha : a ∈ L.owned t) :
    s'.cpu.memory a = s.cpu.memory a := by
  rw [h.memory, Function.update_of_ne (L.ne_of_owned hne ha (Or.inl rfl))]
  apply setItems_outside
  intro idx
  exact L.ne_of_owned hne ha (Or.inr (h.item_mem idx))

theorem Creates.item (h : Creates L creation new s s') (idx : StackIdx) :
    s'.cpu.memory (initialEsp (L.slot new)
      (threadStacksize creation.initStacksize) + idx.offset) =
        initialWord creation idx := by
  have hslot : initialEsp (L.slot new)
      (threadStacksize creation.initStacksize) + idx.offset ≠ L.slot new := by
    intro heq
    have hmem := h.item_mem idx
    rw [heq] at hmem
    exact L.slot_not_mem new new hmem
  rw [h.memory, Function.update_of_ne hslot]
  exact setItems_item _ _ _ idx

/-- A new thread sleeps in front of its main function. -/
theorem Creates.sleeps (h : Creates L creation new s s') :
    Sleeps L new ⟨0, 0, 0, 0, 0, creation.initMainfunc⟩
      (initialEsp (L.slot new) (threadStacksize creation.initStacksize))
      s'.cpu.memory where
  saved := by
    rw [h.memory]
    exact Function.update_self _ _ _
  frame := Frame.ext (h.item .edi) (h.item .esi) (h.item .ebx)
    (h.item .eflags) (h.item .ebp) (h.item .eip)
  inside := by
    intro i hi
    interval_cases i
    · exact h.item_mem .edi
    · exact h.item_mem .esi
    · exact h.item_mem .ebx
    · exact h.item_mem .eflags
    · exact h.item_mem .ebp
    · exact h.item_mem .eip

end Creates

/-! ## Runs -/

section Runs

variable {ι : Type} {L : Layout ι} {s s' : System ι} {t : ι}

/-- A step of one thread leaves the words of another one alone. -/
theorem Step.keeps (h : Step L s s') (ht : t ∈ s.threads)
    (haway : s.running ≠ t) :
    (∀ a ∈ L.owned t, s'.cpu.memory a = s.cpu.memory a) ∧ t ∈ s'.threads := by
  cases h with
  | work h =>
      refine ⟨h.keeps t ht haway.symm, ?_⟩
      rw [h.threads]
      exact ht
  | switch returnAddress next h =>
      refine ⟨fun a ha => h.keeps haway.symm ha, ?_⟩
      rw [h.threads]
      exact ht
  | create creation new h =>
      have hne : t ≠ new := fun heq => h.fresh (heq ▸ ht)
      refine ⟨fun a ha => h.keeps hne ha, ?_⟩
      rw [h.threads]
      exact Set.mem_insert_of_mem new ht

theorem Away.keeps (h : Away L t s s') (ht : t ∈ s.threads) :
    (∀ a ∈ L.owned t, s'.cpu.memory a = s.cpu.memory a) ∧ t ∈ s'.threads := by
  induction h with
  | refl => exact ⟨fun _ _ => rfl, ht⟩
  | tail _ hstep ih =>
      obtain ⟨hkept, hthere⟩ := ih
      obtain ⟨hnext, hstill⟩ := hstep.1.keeps hthere hstep.2.1
      exact ⟨fun a ha => (hnext a ha).trans (hkept a ha), hstill⟩

/-- A call of `arch_thread_switch` returns, when somebody switches back, with
the registers and the stack of the thread as they were at the call, whatever
the other threads have done. -/
theorem switch_returns {s₀ s₁ s₂ s₃ : System ι} {returnAddress other : Word}
    {next : ι} (hthread : s₀.running ∈ s₀.threads)
    (hout : Switches L returnAddress next s₀ s₁)
    (haway : Away L s₀.running s₁ s₂)
    (hback : Switches L other s₀.running s₂ s₃) :
    s₃.cpu.eip = returnAddress ∧ s₃.cpu.esp = s₀.cpu.esp - 8 ∧
      s₃.cpu.ebx = s₀.cpu.ebx ∧ s₃.cpu.esi = s₀.cpu.esi ∧
      s₃.cpu.edi = s₀.cpu.edi ∧ s₃.cpu.ebp = s₀.cpu.ebp ∧
      s₃.cpu.eflags = s₀.cpu.eflags ∧
      ∀ a ∈ L.stack s₀.running, (∀ i < 8, a ≠ below s₀.cpu.esp i) →
        s₃.cpu.memory a = s₀.cpu.memory a := by
  have hthere : s₀.running ∈ s₁.threads := by
    rw [hout.threads]
    exact hthread
  have hkept := haway.keeps hthere
  have hsleeps := hout.sleeps.of_eq hkept.1
  obtain ⟨hframe, hesp⟩ := hback.resumes hsleeps
  have heip : s₃.cpu.eip = returnAddress := congrArg Frame.eip hframe
  refine ⟨heip, ?_, congrArg Frame.ebx hframe, congrArg Frame.esi hframe,
    congrArg Frame.edi hframe, congrArg Frame.ebp hframe,
    congrArg Frame.eflags hframe, ?_⟩
  · rw [hesp]
    bv_omega
  · intro a ha hlive
    have hslot : a ≠ L.slot s₀.running :=
      fun heq => L.slot_not_mem s₀.running s₀.running (heq ▸ ha)
    calc
      s₃.cpu.memory a = s₂.cpu.memory a := hback.keeps hback.other (Or.inr ha)
      _ = s₁.cpu.memory a := hkept.1 a (Or.inr ha)
      _ = s₀.cpu.memory a := hout.memory_of_not_mem hslot hlive

/-- The system behind a switch. -/
def afterSwitch (L : Layout ι) (returnAddress : Word) (next : ι)
    (s : System ι) : System ι where
  cpu := restored { s.cpu with ecx := L.slot s.running }
    (memoryAfter s.cpu (L.slot s.running) (L.slot next) returnAddress)
    (s.cpu.memory (L.slot next))
  running := next
  threads := s.threads

theorem switches_afterSwitch {returnAddress : Word} {next : ι}
    (hcreated : next ∈ s.threads) (hother : next ≠ s.running)
    (hroom : ∀ i < 8, below s.cpu.esp i ∈ L.stack s.running) :
    Switches L returnAddress next s (afterSwitch L returnAddress next s) where
  created := hcreated
  other := hother
  room := hroom
  code := by
    apply archThreadSwitch_eq returnAddress (L.slot_ne_zero _)
    intro i hi heq
    have hmem := hroom i hi
    rw [← heq] at hmem
    exact L.slot_not_mem s.running s.running hmem
  running := rfl
  threads := rfl

/-- A thread starts in its main function, with its argument behind the address
of `exitcallback` on its stack and with interrupts off. -/
theorem created_thread_starts {s₀ s₁ s₂ s₃ : System ι} {creation : Creation}
    {new : ι} {returnAddress : Word} (hcreate : Creates L creation new s₀ s₁)
    (haway : Away L new s₁ s₂)
    (hfirst : Switches L returnAddress new s₂ s₃) :
    s₃.cpu.eip = creation.initMainfunc ∧ s₃.cpu.eflags = 0 ∧
      s₃.cpu.ebp = 0 ∧
      s₃.cpu.memory s₃.cpu.esp = creation.exitcallback ∧
      s₃.cpu.memory (s₃.cpu.esp + 4) = creation.initData ∧
      s₃.cpu.esp ∈ L.stack new := by
  have hthere : new ∈ s₁.threads := by
    rw [hcreate.threads]
    exact Set.mem_insert new s₀.threads
  have hkept := haway.keeps hthere
  have hsleeps := hcreate.sleeps.of_eq hkept.1
  obtain ⟨hframe, hesp⟩ := hfirst.resumes hsleeps
  have hitem : ∀ idx : StackIdx, s₃.cpu.memory (initialEsp (L.slot new)
      (threadStacksize creation.initStacksize) + idx.offset) =
        initialWord creation idx := by
    intro idx
    have howned : _ ∈ L.owned new := Or.inr (hcreate.item_mem idx)
    calc
      s₃.cpu.memory _ = s₂.cpu.memory _ := hfirst.keeps hfirst.other howned
      _ = s₁.cpu.memory _ := hkept.1 _ howned
      _ = initialWord creation idx := hcreate.item idx
  refine ⟨congrArg Frame.eip hframe, congrArg Frame.eflags hframe,
    congrArg Frame.ebp hframe, ?_, ?_, ?_⟩
  · rw [hesp]
    exact hitem .mainRetaddr
  · have hargument := hitem .mainArg0
    rw [hesp, BitVec.add_assoc]
    exact hargument
  · rw [hesp]
    exact hcreate.item_mem .mainRetaddr

/-! ## Two threads -/

theorem threadStack_disjoint {a b : Word} {stacksize : ℕ}
    (hle : a.toNat + 4 + stacksize ≤ b.toNat)
    (hfits : b.toNat + 4 + stacksize ≤ 4294967296) {w : Word}
    (ha : w ∈ threadStack a stacksize) : w ∉ threadStack b stacksize := by
  rintro ⟨j, hj, rfl⟩
  obtain ⟨i, hi, heq⟩ := ha
  bv_omega

/-- A boot thread and a second one, with 2048 bytes each. -/
def twoThreads : Layout Bool where
  slot b := if b then 0x2000 else 0x1000
  stack b := threadStack (if b then 0x2000 else 0x1000) 2048
  slot_ne_zero := by decide
  slot_inj := by decide
  slot_not_mem := by
    rintro t u ⟨i, hi, heq⟩
    cases t <;> cases u <;>
      simp only [Bool.false_eq_true, if_true, if_false] at heq <;> bv_omega
  disjoint := by
    intro t u hne a ha hb
    cases t <;> cases u
    · exact hne rfl
    · exact threadStack_disjoint (by decide) (by decide) ha hb
    · exact threadStack_disjoint (by decide) (by decide) hb ha
    · exact hne rfl

def bootCpu : Cpu where
  eax := 0
  ecx := 0
  edx := 0
  ebx := 7
  esp := 0x1804
  ebp := 0
  esi := 0
  edi := 0
  eflags := 0x202
  eip := 0
  memory := fun a => if a = 0x2000 then 0x2700 else 0

theorem below_mem_boot (i : ℕ) (hi : i < 8) :
    below 0x1804 i ∈ threadStack 0x1000 2048 := by
  refine ⟨511 - i, by omega, ?_⟩
  unfold below
  bv_omega

theorem below_mem_second (i : ℕ) (hi : i < 8) :
    below 0x2718 i ∈ threadStack 0x2000 2048 := by
  refine ⟨452 - i, by omega, ?_⟩
  unfold below
  bv_omega

theorem switch_returns_twoThreads :
    (afterSwitch twoThreads 0x99 false
      (afterSwitch twoThreads 0x42 true
        ⟨bootCpu, false, Set.univ⟩)).cpu.eip = 0x42 := by
  have hout : Switches twoThreads 0x42 true ⟨bootCpu, false, Set.univ⟩
      (afterSwitch twoThreads 0x42 true ⟨bootCpu, false, Set.univ⟩) :=
    switches_afterSwitch (Set.mem_univ true) (by decide) below_mem_boot
  have hback : Switches twoThreads 0x99 false
      (afterSwitch twoThreads 0x42 true ⟨bootCpu, false, Set.univ⟩)
      (afterSwitch twoThreads 0x99 false
        (afterSwitch twoThreads 0x42 true ⟨bootCpu, false, Set.univ⟩)) :=
    switches_afterSwitch (Set.mem_univ false) (by decide) below_mem_second
  exact (switch_returns (Set.mem_univ false) hout Relation.ReflTransGen.refl
    hback).1

def secondCreation : Creation where
  heap := fun _ => 0x2000
  initStacksize := 2048
  initMainfunc := 0x42
  initData := 5
  exitcallback := 0x66

/-- The boot thread, behind a call of `arch_thread_create`. -/
def behindCreation : System Bool where
  cpu := { bootCpu with
    memory := Function.update
      (setItems (initialEsp 0x2000 2048) secondCreation bootCpu.memory) 0x2000
      (initialEsp 0x2000 2048) }
  running := false
  threads := insert true {false}

theorem created_thread_starts_twoThreads :
    (afterSwitch twoThreads 0x99 true behindCreation).cpu.eip = 0x42 := by
  have hcreate : Creates twoThreads secondCreation true
      ⟨bootCpu, false, {false}⟩ behindCreation :=
    { fresh := by decide
      size := by decide
      stack := rfl
      code := archThreadCreate_eq bootCpu.memory (by decide) (by decide)
        (by decide) rfl
      running := rfl
      threads := rfl }
  have hfirst : Switches twoThreads 0x99 true behindCreation
      (afterSwitch twoThreads 0x99 true behindCreation) :=
    switches_afterSwitch (Set.mem_insert true {false}) (by decide)
      below_mem_boot
  exact (created_thread_starts hcreate Relation.ReflTransGen.refl hfirst).1

end Runs

end ContextSwitch
end Yjkos
