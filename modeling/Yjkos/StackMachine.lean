import Mathlib.Tactic

/-!
# A processor with a stack

The registers of an i586 and a memory of 32-bit words, with the instructions
which move words between the two.  A word is named by the address of its first
byte, and stacks are aligned, so that words with different addresses do not
overlap.
-/

namespace StackMachine

abbrev Word := BitVec 32

inductive Reg where
  | eax
  | ecx
  | edx
  | ebx
  | esp
  | ebp
  | esi
  | edi
deriving DecidableEq, Repr

structure Cpu where
  eax : Word
  ecx : Word
  edx : Word
  ebx : Word
  esp : Word
  ebp : Word
  esi : Word
  edi : Word
  eflags : Word
  eip : Word
  memory : Word → Word

namespace Cpu

def get (c : Cpu) : Reg → Word
  | .eax => c.eax
  | .ecx => c.ecx
  | .edx => c.edx
  | .ebx => c.ebx
  | .esp => c.esp
  | .ebp => c.ebp
  | .esi => c.esi
  | .edi => c.edi

def set (c : Cpu) (value : Word) : Reg → Cpu
  | .eax => { c with eax := value }
  | .ecx => { c with ecx := value }
  | .edx => { c with edx := value }
  | .ebx => { c with ebx := value }
  | .esp => { c with esp := value }
  | .ebp => { c with ebp := value }
  | .esi => { c with esi := value }
  | .edi => { c with edi := value }

def store (c : Cpu) (address value : Word) : Cpu :=
  { c with memory := Function.update c.memory address value }

def push (c : Cpu) (value : Word) : Cpu :=
  { c.store (c.esp - 4) value with esp := c.esp - 4 }

/-- The word on the top of the stack, and the processor without it. -/
def pop (c : Cpu) : Word × Cpu :=
  (c.memory c.esp, { c with esp := c.esp + 4 })

end Cpu

/-- Operands stand in the order of the assembler: the source comes first. -/
inductive Instr where
  | push (src : Reg)
  | pushf
  | pop (dst : Reg)
  | popf
  | mov (src dst : Reg)
  | load (displacement : Word) (base dst : Reg)
  | store (src base : Reg)
  | ret
deriving DecidableEq, Repr

def step (c : Cpu) : Instr → Cpu
  | .push src => c.push (c.get src)
  | .pushf => c.push c.eflags
  | .pop dst => c.pop.2.set c.pop.1 dst
  | .popf => { c.pop.2 with eflags := c.pop.1 }
  | .mov src dst => c.set (c.get src) dst
  | .load displacement base dst =>
      c.set (c.memory (c.get base + displacement)) dst
  | .store src base => c.store (c.get base) (c.get src)
  | .ret => { c.pop.2 with eip := c.pop.1 }

/-- Instructions one behind the other. -/
def exec (c : Cpu) (code : List Instr) : Cpu :=
  code.foldl step c

def pushAll (c : Cpu) (words : List Word) : Cpu :=
  words.foldl Cpu.push c

/-- A call of the C calling convention: the arguments from the last one on, and
then the return address. -/
def call (c : Cpu) (arguments : List Word) (returnAddress : Word) : Cpu :=
  pushAll c (arguments.reverse ++ [returnAddress])

theorem exec_append (c : Cpu) (code more : List Instr) :
    exec c (code ++ more) = exec (exec c code) more :=
  List.foldl_append

/-! ## Pushed words -/

/-- The address of the word which is pushed behind `i` others. -/
def below (esp : Word) (i : ℕ) : Word := esp - BitVec.ofNat 32 (4 * (i + 1))

theorem below_inj {esp : Word} {i j : ℕ} (hi : i < 1073741824)
    (hj : j < 1073741824) (h : below esp i = below esp j) : i = j := by
  unfold below at h
  bv_omega

theorem below_succ (esp : Word) (i : ℕ) :
    below (esp - 4) i = below esp (i + 1) := by
  unfold below
  bv_omega

theorem pushAll_cons (c : Cpu) (word : Word) (words : List Word) :
    pushAll c (word :: words) = pushAll (c.push word) words := rfl

theorem pushAll_esp (c : Cpu) (words : List Word) :
    (pushAll c words).esp = c.esp - BitVec.ofNat 32 (4 * words.length) := by
  induction words generalizing c with
  | nil => exact (BitVec.sub_zero c.esp).symm
  | cons word words ih =>
      have hpush : (c.push word).esp = c.esp - 4 := rfl
      rw [pushAll_cons, ih, hpush, List.length_cons]
      bv_omega

/-- Pushing touches no other register. -/
theorem pushAll_eq (c : Cpu) (words : List Word) :
    pushAll c words =
      { c with
        esp := c.esp - BitVec.ofNat 32 (4 * words.length)
        memory := (pushAll c words).memory } := by
  rw [← pushAll_esp]
  induction words generalizing c with
  | nil => rfl
  | cons word words ih =>
      rw [pushAll_cons]
      exact ih (c.push word)

/-- Nothing else is written. -/
theorem pushAll_frame (c : Cpu) (words : List Word) {a : Word}
    (hout : ∀ i < words.length, a ≠ below c.esp i) :
    (pushAll c words).memory a = c.memory a := by
  induction words generalizing c with
  | nil => rfl
  | cons word words ih =>
      have hhead : a ≠ c.esp - 4 := hout 0 (Nat.succ_pos _)
      have hpush : (c.push word).memory a = c.memory a := by
        unfold Cpu.push Cpu.store
        exact Function.update_of_ne hhead word c.memory
      rw [pushAll_cons, ih, hpush]
      intro i hi
      have hesp : (c.push word).esp = c.esp - 4 := rfl
      rw [hesp, below_succ]
      exact hout (i + 1) (Nat.succ_lt_succ hi)

/-- The words stand where they have been pushed. -/
theorem pushAll_getElem (c : Cpu) (words : List Word)
    (hroom : words.length < 1073741824) {i : ℕ} (hi : i < words.length) :
    (pushAll c words).memory (below c.esp i) = words[i] := by
  induction words generalizing c i with
  | nil => exact absurd hi (Nat.not_lt_zero i)
  | cons word words ih =>
      have hesp : (c.push word).esp = c.esp - 4 := rfl
      rw [List.length_cons] at hroom hi
      rw [pushAll_cons]
      cases i with
      | zero =>
          rw [pushAll_frame, List.getElem_cons_zero]
          · exact Function.update_self (c.esp - 4) word c.memory
          · intro j hj
            rw [hesp, below_succ]
            intro heq
            have := below_inj (by omega) (by omega) heq
            omega
      | succ i =>
          have hrest := ih (c.push word) (by omega) (Nat.lt_of_succ_lt_succ hi)
          rw [hesp, below_succ] at hrest
          rw [hrest, List.getElem_cons_succ]

end StackMachine
