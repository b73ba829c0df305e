import Yjkos.Smatcher

/-!
# Shell commands

The parser and the executor of `kernel/shell/shell.c`.  The heap is what the
shell sees of it while memory does not run out: live blocks by their address,
which hold bytes or pointers.  Where the heap puts a new block is left open.
A program is its name and the exit code it gives for its arguments.
-/

namespace Yjkos
namespace ShellCmd

open Vfs (Text kstrcmp)
open Smatcher

/-! ## Heap -/

inductive Block where
  | text (bytes : Text)
  | pointers (words : List ℕ)

/-- Only finitely many blocks are live. -/
@[ext]
structure Heap where
  blocks : ℕ → Option Block
  finite : {ptr | blocks ptr ≠ none}.Finite

namespace Heap

instance : CoeFun Heap fun _ => ℕ → Option Block := ⟨blocks⟩

def update (heap : Heap) (ptr : ℕ) (block : Option Block) : Heap where
  blocks := Function.update heap ptr block
  finite := by
    refine (heap.finite.insert ptr).subset fun other hother => ?_
    by_cases h : other = ptr
    · exact Or.inl h
    · right
      rwa [Set.mem_ofPred_eq, Function.update_of_ne h] at hother

end Heap

/-- New blocks are neither at the null pointer nor at a live block. -/
structure Allocator where
  pick : Heap → ℕ → ℕ
  pick_ne_zero : ∀ (heap : Heap) (size : ℕ), pick heap size ≠ 0
  pick_free : ∀ (heap : Heap) (size : ℕ), heap (pick heap size) = none

/-- Fresh memory is filled with `0x90`.  No memory at all is asked for
with size zero. -/
def heapAlloc (allocator : Allocator) (heap : Heap) (size : ℕ)
    (fill : ℕ → Block) : ℕ × Heap :=
  if size = 0 then (0, heap)
  else
    let ptr := allocator.pick heap size
    (ptr, heap.update ptr (some (fill size)))

def freshText (size : ℕ) : Block := .text (List.replicate size 0x90)

def freshPointers (size : ℕ) : Block :=
  .pointers (List.replicate (size / 4) 0x90909090)

def heapFree (heap : Heap) (ptr : ℕ) : Except Fault Heap :=
  if ptr = 0 then .ok heap
  else match heap ptr with
    | some _ => .ok (heap.update ptr none)
    | none => .error (.panic "heap_free: bad pointer")

def readPointers (heap : Heap) (ptr : ℕ) : Except Fault (List ℕ) :=
  match heap ptr with
  | some (.pointers words) => .ok words
  | _ => .error .outOfBounds

def readText (heap : Heap) (ptr : ℕ) : Except Fault Text :=
  match heap ptr with
  | some (.text bytes) => .ok bytes
  | _ => .error .outOfBounds

/-- `heap_realloc` of an array of pointers. -/
def heapRealloc (allocator : Allocator) (heap : Heap) (ptr newsize : ℕ) :
    Except Fault (ℕ × Heap) :=
  if ptr = 0 then .ok (heapAlloc allocator heap newsize freshPointers)
  else do
    let words ← readPointers heap ptr
    let (newmem, heap) := heapAlloc allocator heap newsize freshPointers
    if newmem = 0 then .ok (0, heap)
    else do
      let fresh ← readPointers heap newmem
      let copied := words.take fresh.length
      let heap := heap.update newmem
        (some (.pointers (copied ++ fresh.drop copied.length)))
      let heap ← heapFree heap ptr
      .ok (newmem, heap)

/-- `argv[i] = value`. -/
def writePointer (heap : Heap) (argv i value : ℕ) : Except Fault Heap := do
  let words ← readPointers heap argv
  if i < words.length then
    .ok (heap.update argv (some (.pointers (words.set i value))))
  else .error .outOfBounds

/-- `argv[i]`. -/
def readPointer (heap : Heap) (argv i : ℕ) : Except Fault ℕ := do
  let words ← readPointers heap argv
  match words[i]? with
  | some word => .ok word
  | none => .error .outOfBounds

/-- Bytes are stored into a string from position `i` on. -/
def writeText (heap : Heap) (ptr i : ℕ) (bytes : Text) : Except Fault Heap := do
  let old ← readText heap ptr
  if i + bytes.length ≤ old.length then
    .ok (heap.update ptr (some (.text
      (old.take i ++ bytes ++ old.drop (i + bytes.length)))))
  else .error .outOfBounds

/-! ## Parser -/

def intMax : ℕ := 2147483647

def semicolon : BitVec 8 := 0x3b

/-- `union shellcmd`. -/
inductive Shellcmd where
  | empty
  | runprogram (argv argc : ℕ)

/-- How the loop of `parse_cmd_runprogram` ends. -/
inductive LoopEnd where
  | done (argv argc : ℕ)
  | failAlloc (argv argc : ℕ)

/-- The part of the loop body which puts a word at the end of `argv`.  It
gives the new `argv` and whether memory was there for it. -/
def pushWord (allocator : Allocator) (argv argc : ℕ) (str : Text) (len : ℕ)
    (heap : Heap) : Except Fault (Bool × ℕ × Heap) :=
  if argc = intMax then .ok (false, argv, heap)
  else if sizeMax / 4 < argc then .ok (false, argv, heap)
  else do
    let newargc := argc + 1
    let (argv, heap) ← heapRealloc allocator heap argv (wrap (newargc * 4))
    if argv = 0 then .ok (false, argv, heap)
    else do
      let (word, heap) := heapAlloc allocator heap (wrap (len + 1)) freshText
      let heap ← writePointer heap argv (newargc - 1) word
      if word = 0 then .ok (false, argv, heap)
      else do
        let heap ← writeText heap word 0 (str.take len)
        let heap ← writeText heap word len [0]
        .ok (true, argv, heap)

/-- The loop of `parse_cmd_runprogram`, with fuel. -/
def parseLoop (allocator : Allocator) :
    ℕ → ℕ → ℕ → Matcher → Heap → Except Fault (LoopEnd × Matcher × Heap)
  | 0, _, _, _, _ => .error .outOfFuel
  | fuel + 1, argv, argc, cmdstr, heap =>
      let cmdstr := smatcherSkipWhitespaces cmdstr
      if cmdstr.currentindex = cmdstr.len then
        .ok (.done argv argc, cmdstr, heap)
      else
        let (matched, cmdstr) := smatcherConsumeStrIfMatch cmdstr [semicolon]
        if matched then .ok (.done argv argc, cmdstr, heap)
        else
          match smatcherConsumeWord cmdstr with
          | (none, _) => .error (.assertion "matchok")
          | (some (str, len), cmdstr) => do
              let (pushed, argv, heap) ←
                pushWord allocator argv argc (cmdstr.str.drop str) len heap
              if pushed then parseLoop allocator fuel argv (argc + 1) cmdstr heap
              else .ok (.failAlloc argv argc, cmdstr, heap)

/-- `for (int i = 0; i < argc; i++) heap_free(argv[i]);`, from `i` on. -/
def freeStrings (argv : ℕ) : ℕ → ℕ → Heap → Except Fault Heap
  | 0, _, heap => .ok heap
  | left + 1, i, heap => do
      let ptr ← readPointer heap argv i
      let heap ← heapFree heap ptr
      freeStrings argv left (i + 1) heap

def freeArgv (argv argc : ℕ) (heap : Heap) : Except Fault Heap := do
  let heap ← freeStrings argv argc 0 heap
  heapFree heap argv

/-- The command is left as it was when memory runs out; the exit code does
not tell. -/
def parseCmdRunprogram (allocator : Allocator) (cmdstr : Matcher)
    (heap : Heap) : Except Fault (ℤ × Shellcmd × Heap) := do
  let (loopEnd, _, heap) ←
    parseLoop allocator (cmdstr.len + 1) 0 0 cmdstr heap
  match loopEnd with
  | .done argv argc => .ok (0, .runprogram argv argc, heap)
  | .failAlloc argv argc =>
      if argv ≠ 0 then do
        let heap ← freeArgv argv argc heap
        .ok (0, .empty, heap)
      else .ok (0, .empty, heap)

def parseCmd (allocator : Allocator) (cmdstr : Matcher) (heap : Heap) :
    Except Fault (ℤ × Shellcmd × Heap) :=
  let cmdstr := smatcherSkipWhitespaces cmdstr
  if cmdstr.currentindex = cmdstr.len then .ok (0, .empty, heap)
  else parseCmdRunprogram allocator cmdstr heap

def cmdDestroy (cmd : Shellcmd) (heap : Heap) : Except Fault Heap :=
  match cmd with
  | .runprogram argv argc => freeArgv argv argc heap
  | .empty => .ok heap

/-! ## Executor -/

structure ShellProgram where
  name : Text
  main : List Text → ℤ
  name_nul : 0 ∉ name

/-- What a program finds in `argv`, from position `i` on. -/
def readArgv (heap : Heap) (argv : ℕ) :
    ℕ → ℕ → Except Fault (List Text)
  | 0, _ => .ok []
  | left + 1, i => do
      let ptr ← readPointer heap argv i
      let bytes ← readText heap ptr
      let rest ← readArgv heap argv left (i + 1)
      .ok (bytes.takeWhile (· ≠ 0) :: rest)

/-- `LIST_FOREACH(&s_programs, programnode)`. -/
def findProgram (name : Text) : List ShellProgram → Option ShellProgram
  | [] => none
  | program :: rest =>
      if kstrcmp program.name name = 0 then some program
      else findProgram name rest

/-- The exit code, and the program which was run with its arguments. -/
structure Outcome where
  ret : ℤ
  ran : Option (Text × List Text)

def cmdExec (programs : List ShellProgram) (cmd : Shellcmd) (heap : Heap) :
    Except Fault Outcome :=
  match cmd with
  | .runprogram argv argc => do
      cAssert (argc ≠ 0) "cmd->runprogram.argc != 0"
      cAssert (argv ≠ 0) "cmd->runprogram.argv != nullptr"
      let ptr ← readPointer heap argv 0
      let name ← readText heap ptr
      match findProgram name programs with
      | none => .ok ⟨127, none⟩
      | some program => do
          let args ← readArgv heap argv argc 0
          .ok ⟨program.main args, some (program.name, args)⟩
  | .empty => .ok ⟨0, none⟩

def shellExecCmd (allocator : Allocator) (programs : List ShellProgram)
    (str : Text) (heap : Heap) : Except Fault (Outcome × Heap) := do
  let (ret, cmd, heap) ← parseCmd allocator (smatcherInit str) heap
  if ret < 0 then .ok (⟨ret, none⟩, heap)
  else
    match cmd with
    | .empty => .ok (⟨0, none⟩, heap)
    | .runprogram argv argc => do
        let outcome ← cmdExec programs (.runprogram argv argc) heap
        let heap ← cmdDestroy (.runprogram argv argc) heap
        .ok (outcome, heap)

/-! ## What a command line says -/

/-- The runs of characters between whitespace. -/
def words (line : Text) : List Text :=
  (line.splitOnP isspace).filter (· ≠ [])

/-- The words in front of the first one which starts with a semicolon. -/
def arguments (line : Text) : List Text :=
  (words line).takeWhile fun word => word.head? ≠ some semicolon

@[simp]
theorem words_nil : words [] = [] := by
  simp [words, List.splitOnP_nil]

theorem words_cons_space {c : BitVec 8} (h : isspace c = true) (line : Text) :
    words (c :: line) = words line := by
  have hsplit : ([] ++ c :: line).splitOnP isspace =
      [] :: line.splitOnP isspace :=
    List.splitOnP_append_cons_of_forall_mem (by simp) c h line
  rw [List.nil_append] at hsplit
  simp [words, hsplit]

theorem words_dropWhile (line : Text) :
    words (line.dropWhile isspace) = words line := by
  induction line with
  | nil => rfl
  | cons c line ih =>
      by_cases h : isspace c
      · rw [List.dropWhile_cons_of_pos h, ih, words_cons_space h]
      · rw [List.dropWhile_cons_of_neg h]

theorem words_append {word rest : Text} (hword : word ≠ [])
    (hchars : ∀ c ∈ word, isspace c = false)
    (hrest : ∀ c, rest.head? = some c → isspace c = true) :
    words (word ++ rest) = word :: words rest := by
  cases rest with
  | nil =>
      rw [List.append_nil, words, List.splitOnP_eq_singleton hchars]
      simp [hword]
  | cons c rest =>
      have hspace := hrest c rfl
      have hsplit :=
        List.splitOnP_append_cons_of_forall_mem hchars c hspace rest
      rw [words_cons_space hspace, words, hsplit]
      simp [hword, words]

end ShellCmd
end Yjkos
