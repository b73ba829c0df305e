import Yjkos.Vfs

/-!
# Option parsing

`getopt` of `kernel/lib/libc/unistd.c` and the part of `cmd_exec` which sets
its variables up.  The variables live as long as the kernel.  A string is the
list of its bytes in front of the terminator, and a read behind the
terminator is a fault.
-/

namespace Yjkos
namespace Getopt

open Vfs (Text kstrcmp)

/-- The globals of `unistd.c`; `optarg` is given by the string it points to. -/
structure Globals where
  optarg : Option Text
  opterr : ℤ
  optind : ℕ
  optopt : ℤ
  nextCharIdx : ℕ
deriving DecidableEq

def initialGlobals : Globals := ⟨none, 1, 1, 0, 1⟩

def charAt (s : Text) (i : ℕ) : Except Fault (BitVec 8) :=
  if i ≤ s.length then .ok (s.getD i 0) else .error .outOfBounds

def argAt (argv : List Text) (i : ℕ) : Except Fault Text :=
  match argv[i]? with
  | some arg => .ok arg
  | none => .error .outOfBounds

def plus : BitVec 8 := 0x2b

def dash : BitVec 8 := 0x2d

def colon : BitVec 8 := 0x3a

def question : BitVec 8 := 0x3f

def getoptNextarg (self : Globals) : Globals :=
  { self with optind := self.optind + 1, nextCharIdx := 1 }

/-- `argopt` is `&arg[pos]`. -/
def getoptGetArg (self : Globals) (argv : List Text) (arg : Text) (pos : ℕ)
    (optChar : BitVec 8) : Except Fault (Bool × Globals) := do
  let fail (self : Globals) : Bool × Globals :=
    (false, { getoptNextarg self with optopt := optChar.toInt })
  let next ← charAt arg (pos + 1)
  if next = 0 then
    if argv.length < self.optind + 2 then .ok (fail self)
    else do
      let value ← argAt argv (self.optind + 1)
      .ok (true, getoptNextarg (getoptNextarg
        { self with optarg := some value }))
  else
    .ok (true, getoptNextarg { self with optarg := some (arg.drop (pos + 1)) })

def getoptOptCharSkipLen (c : BitVec 8) (nextOptChar : Text) : ℕ :=
  let optChar := nextOptChar.headD 0
  if optChar = plus ∨ optChar = colon ∨ optChar = question then 1
  else
    let hasArgs := nextOptChar.getD 1 0 = colon
    if c ≠ optChar then
      if hasArgs then 2 else 1
    else 0

/-- The loop of `getopt` up to the option which matches the character, with
whether the option takes an argument.  The number tells how much of the
string is still to be skipped. -/
def matchOption (c : BitVec 8) : ℕ → Text → Option (BitVec 8 × Bool)
  | _, [] => none
  | skip + 1, _ :: rest => matchOption c skip rest
  | 0, optChar :: rest =>
      if optChar = 0 then none
      else
        match getoptOptCharSkipLen c (optChar :: rest) with
        | skip + 1 => matchOption c skip rest
        | 0 => some (optChar, rest.headD 0 = colon)

/-- What a call prints: the name of the program, the message, and the
character behind it. -/
structure Message where
  program : Text
  text : String
  chr : ℤ
deriving DecidableEq

structure Returned where
  value : ℤ
  printed : Option Message
deriving DecidableEq

/-- The label `error` of `getopt`. -/
def reportError (self : Globals) (program : Text) (printErr : Bool)
    (errmsg : String) (resultOpt : ℤ) : Returned × Globals :=
  if printErr then
    (⟨question.toInt, some ⟨program, errmsg, self.optopt⟩⟩, self)
  else (⟨resultOpt, none⟩, self)

/-- The part of `getopt` behind the checks of the argument. -/
def getoptIn (self : Globals) (argv : List Text) (arg nextOptChar : Text)
    (printErr : Bool) : Except Fault (Returned × Globals) := do
  let pos := self.nextCharIdx
  let c ← charAt arg pos
  match matchOption c 0 nextOptChar with
  | some (optChar, true) => do
      let (found, self) ← getoptGetArg self argv arg pos optChar
      if found then .ok (⟨optChar.toInt, none⟩, self)
      else .ok (reportError self (argv.headD []) printErr
        "option requires an argument" colon.toInt)
  | some (optChar, false) => do
      let self := { self with nextCharIdx := self.nextCharIdx + 1 }
      let next ← charAt arg (pos + 1)
      let self := if next = 0 then getoptNextarg self else self
      .ok (⟨optChar.toInt, none⟩, self)
  | none => do
      let self := { self with
        optopt := c.toNat
        nextCharIdx := self.nextCharIdx + 1 }
      let next ← charAt arg (pos + 1)
      let self := if next = 0 then getoptNextarg self else self
      .ok (reportError self (argv.headD []) printErr "invalid option"
        question.toInt)

def getopt (self : Globals) (argv : List Text) (optstring : Text) :
    Except Fault (Returned × Globals) :=
  if argv.length ≤ self.optind then .ok (⟨-1, none⟩, self)
  else do
    let nextOptChar :=
      if optstring.headD 0 = plus then optstring.tail else optstring
    let silent := nextOptChar.headD 0 = colon
    let nextOptChar := if silent then nextOptChar.tail else nextOptChar
    let printErr := !silent && self.opterr ≠ 0
    let arg ← argAt argv self.optind
    if arg.headD 0 ≠ dash ∨ kstrcmp arg [dash] = 0 then
      .ok (⟨-1, none⟩, self)
    else if kstrcmp arg [dash, dash] = 0 then
      .ok (⟨-1, none⟩, getoptNextarg self)
    else getoptIn self argv arg nextOptChar printErr

/-! ## Commands -/

/-- A program which calls `getopt` so many times. -/
structure Command where
  argv : List Text
  optstring : Text
  calls : ℕ

/-- What a program sees after a call. -/
structure Seen where
  result : Returned
  optarg : Option Text
  optopt : ℤ
deriving DecidableEq

def callGetopt (argv : List Text) (optstring : Text) :
    ℕ → Globals → Except Fault (List Seen × Globals)
  | 0, self => .ok ([], self)
  | calls + 1, self => do
      let (result, self) ← getopt self argv optstring
      let (rest, after) ← callGetopt argv optstring calls self
      .ok (⟨result, self.optarg, self.optopt⟩ :: rest, after)

/-- `cmd_exec` of a command whose program is there. -/
def cmdExec (self : Globals) (command : Command) :
    Except Fault (List Seen × Globals) :=
  callGetopt command.argv command.optstring command.calls
    { self with optind := 1, opterr := 1 }

end Getopt
end Yjkos
