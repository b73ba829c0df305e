import Mathlib.Logic.Relation
import Yjkos.StackMachine

/-!
# A processor with jumps

Code whose instructions stand at numbered places, with a conditional jump.
A block without jumps runs from its first place to the place behind it, and a
counted loop reaches its exit with the invariant of its last turn.
-/

namespace JumpMachine

open StackMachine

inductive Control where
  | cr0
  | cr3
deriving DecidableEq, Repr

structure Machine where
  registers : Reg → Word
  control : Control → Word
  zero : Bool
  pc : ℕ
  memory : Word → Word

/-- Operands stand in the order of the assembler.  `storeIndexed` writes the
word number `index` of a table. -/
inductive Instr where
  | movImm (value : Word) (dst : Reg)
  | mov (src dst : Reg)
  | orImm (value : Word) (dst : Reg)
  | addImm (value : Word) (dst : Reg)
  | xor (src dst : Reg)
  | inc (dst : Reg)
  | cmpImm (value : Word) (dst : Reg)
  | storeIndexed (src : Reg) (table : Word) (index : Reg)
  | toControl (src : Reg) (dst : Control)
  | fromControl (src : Control) (dst : Reg)
  | jne (target : ℕ)
deriving DecidableEq, Repr

namespace Machine

def set (s : Machine) (dst : Reg) (value : Word) : Machine :=
  { s with registers := Function.update s.registers dst value }

/-- An arithmetic instruction also sets the zero flag. -/
def compute (s : Machine) (dst : Reg) (value : Word) : Machine :=
  { s.set dst value with zero := value = 0 }

def next (s : Machine) : Machine := { s with pc := s.pc + 1 }

/-- What an instruction does apart from going on to the next one. -/
def perform (s : Machine) : Instr → Machine
  | .movImm value dst => s.set dst value
  | .mov src dst => s.set dst (s.registers src)
  | .orImm value dst => s.compute dst (s.registers dst ||| value)
  | .addImm value dst => s.compute dst (s.registers dst + value)
  | .xor src dst => s.compute dst (s.registers dst ^^^ s.registers src)
  | .inc dst => s.compute dst (s.registers dst + 1)
  | .cmpImm value dst => { s with zero := s.registers dst = value }
  | .storeIndexed src table index =>
      let address := table + 4 * s.registers index
      { s with memory := Function.update s.memory address (s.registers src) }
  | .toControl src dst =>
      { s with control := Function.update s.control dst (s.registers src) }
  | .fromControl src dst => s.set dst (s.control src)
  | .jne _ => s

def step (program : List Instr) (s : Machine) : Option Machine :=
  match program[s.pc]? with
  | none => none
  | some (.jne target) =>
      some (if s.zero then s.next else { s with pc := target })
  | some instr => some (s.perform instr).next

end Machine

def Runs (program : List Instr) : Machine → Machine → Prop :=
  Relation.ReflTransGen fun s s' => s.step program = some s'

theorem Runs.trans {program : List Instr} {s s' s'' : Machine}
    (h : Runs program s s') (h' : Runs program s' s'') :
    Runs program s s'' :=
  Relation.ReflTransGen.trans h h'

/-- The code stands in the program from place `start` on. -/
def CodeAt (program : List Instr) (start : ℕ) (code : List Instr) : Prop :=
  ∃ front behind, program = front ++ code ++ behind ∧ front.length = start

theorem CodeAt.head {program code : List Instr} {start : ℕ} {instr : Instr}
    (h : CodeAt program start (instr :: code)) :
    program[start]? = some instr := by
  obtain ⟨front, behind, rfl, rfl⟩ := h
  simp

theorem CodeAt.append {program : List Instr} {start : ℕ}
    (code more : List Instr)
    (h : CodeAt program start (code ++ more)) :
    CodeAt program start code ∧
      CodeAt program (start + code.length) more := by
  obtain ⟨front, behind, rfl, rfl⟩ := h
  constructor
  · exact ⟨front, more ++ behind, by simp, rfl⟩
  · exact ⟨front ++ code, behind, by simp, by simp⟩

/-! ## Blocks -/

def straight : List Instr → Bool
  | [] => true
  | .jne _ :: _ => false
  | _ :: code => straight code

/-- What a block does, the place apart. -/
def exec (s : Machine) (code : List Instr) : Machine :=
  code.foldl Machine.perform s

theorem pc_perform (s : Machine) (instr : Instr) :
    (s.perform instr).pc = s.pc := by
  cases instr <;> rfl

theorem perform_withPc (s : Machine) (instr : Instr) (pc : ℕ) :
    ({ s with pc := pc }).perform instr = { s.perform instr with pc := pc } := by
  cases instr <;> rfl

theorem exec_withPc (s : Machine) (code : List Instr) (pc : ℕ) :
    exec { s with pc := pc } code = { exec s code with pc := pc } := by
  induction code generalizing s with
  | nil => rfl
  | cons instr code ih =>
      unfold exec at ih ⊢
      rw [List.foldl_cons, List.foldl_cons, perform_withPc, ih]

theorem runs_block {program code : List Instr} {s : Machine}
    (hcode : CodeAt program s.pc code) (hstraight : straight code = true) :
    Runs program s { exec s code with pc := s.pc + code.length } := by
  induction code generalizing s with
  | nil => exact .refl
  | cons instr code ih =>
      have hrest : CodeAt program (s.pc + 1) code :=
        (CodeAt.append [instr] code hcode).2
      have hstep : s.step program = some (s.perform instr).next := by
        unfold Machine.step
        rw [hcode.head]
        cases instr <;> first | rfl | contradiction
      have htail : straight code = true := by
        cases instr <;> first | exact hstraight | contradiction
      have hpc : (s.perform instr).next.pc = s.pc + 1 := by
        unfold Machine.next
        rw [pc_perform]
      have hmore := ih (s := (s.perform instr).next)
        (by rw [hpc]; exact hrest) htail
      have hend : exec (s.perform instr).next code =
          { exec (s.perform instr) code with pc := s.pc + 1 } := by
        unfold Machine.next
        rw [exec_withPc, pc_perform]
      rw [hpc, hend] at hmore
      have hlength : s.pc + (instr :: code).length =
          s.pc + 1 + code.length := by
        rw [List.length_cons]
        omega
      rw [hlength]
      exact .head hstep hmore

/-! ## Loops -/

theorem runs_jne {program : List Instr} {s : Machine} {target : ℕ}
    (hcode : program[s.pc]? = some (.jne target)) :
    Runs program s (if s.zero then s.next else { s with pc := target }) := by
  apply Relation.ReflTransGen.single
  unfold Machine.step
  rw [hcode]

theorem runs_turn {program : List Instr} (body : List Instr) {s : Machine}
    (hcode : CodeAt program s.pc (body ++ [.jne s.pc]))
    (hstraight : straight body = true) :
    Runs program s { exec s body with
      pc := if (exec s body).zero then s.pc + body.length + 1 else s.pc } := by
  obtain ⟨hbody, hjump⟩ := CodeAt.append _ _ hcode
  apply (runs_block hbody hstraight).trans
  have hjne := runs_jne (s := { exec s body with pc := s.pc + body.length })
    hjump.head
  cases hzero : (exec s body).zero with
  | true => simpa [hzero, Machine.next] using hjne
  | false => simpa [hzero] using hjne

/-- A loop which counts to `n`: each turn but the last one leads back to its
head, and the last one to the exit. -/
theorem runs_counted {program : List Instr} {n : ℕ}
    (head : ℕ → Machine → Prop) {exit : Machine → Prop}
    (hturn : ∀ i, i + 1 < n → ∀ s, head i s →
      ∃ s', Runs program s s' ∧ head (i + 1) s')
    (hlast : ∀ i, i + 1 = n → ∀ s, head i s →
      ∃ s', Runs program s s' ∧ exit s')
    (hn : 0 < n) {s : Machine} (hs : head 0 s) :
    ∃ s', Runs program s s' ∧ exit s' := by
  have hreach : ∀ i, i < n → ∃ s', Runs program s s' ∧ head i s' := by
    intro i
    induction i with
    | zero => exact fun _ => ⟨s, .refl, hs⟩
    | succ i ih =>
        intro hi
        obtain ⟨s₁, hruns, hhead⟩ := ih (by omega)
        obtain ⟨s₂, hturn', hhead'⟩ := hturn i hi s₁ hhead
        exact ⟨s₂, hruns.trans hturn', hhead'⟩
  obtain ⟨s₁, hruns, hhead⟩ := hreach (n - 1) (by omega)
  obtain ⟨s₂, hend, hexit⟩ := hlast (n - 1) (by omega) s₁ hhead
  exact ⟨s₂, hruns.trans hend, hexit⟩

/-! ## Tables in memory -/

def filled (memory : Word → Word) (table : Word) (value : ℕ → Word) :
    ℕ → Word → Word
  | 0 => memory
  | n + 1 => Function.update (filled memory table value n)
      (table + 4 * BitVec.ofNat 32 n) (value n)

theorem slot_inj {table : Word} {i j : ℕ} (hi : i < 1073741824)
    (hj : j < 1073741824)
    (h : table + 4#32 * BitVec.ofNat 32 i = table + 4#32 * BitVec.ofNat 32 j) :
    i = j := by
  bv_omega

theorem filled_succ (memory : Word → Word) (table : Word)
    (value : ℕ → Word) (n : ℕ) :
    filled memory table value (n + 1) =
      Function.update (filled memory table value n)
        (table + 4#32 * BitVec.ofNat 32 n) (value n) :=
  rfl

theorem filled_outside {memory : Word → Word} {table a : Word}
    {value : ℕ → Word} {n : ℕ}
    (hout : ∀ i < n, a ≠ table + 4#32 * BitVec.ofNat 32 i) :
    filled memory table value n a = memory a := by
  induction n with
  | zero => rfl
  | succ n ih =>
      rw [filled_succ, Function.update_of_ne (hout n (Nat.lt_succ_self n))]
      exact ih fun i hi => hout i (Nat.lt_succ_of_lt hi)

theorem filled_at {memory : Word → Word} {table : Word} {value : ℕ → Word}
    {n i : ℕ} (hn : n ≤ 1073741824) (hi : i < n) :
    filled memory table value n (table + 4#32 * BitVec.ofNat 32 i) =
      value i := by
  induction n with
  | zero => exact absurd hi (Nat.not_lt_zero i)
  | succ n ih =>
      rw [filled_succ]
      by_cases heq : i = n
      · rw [heq, Function.update_self]
      · rw [Function.update_of_ne]
        · exact ih (by omega) (by omega)
        · intro hslot
          exact heq (slot_inj (by omega) (by omega) hslot)

end JumpMachine
