import Yjkos.Kbd

/-!
# The PS/2 keyboard

`kernel/dev/ps2kbd.c`: the handler of a received byte, with the queue of
commands which it answers, and the steps of a request.  A command is named by
the number of the request which allocated it, and lives in `heap` until it is
freed.  What is sent, finished and freed is kept in a log, the last event
first.

A handler writes to the port at most once, and its last argument says whether
that write succeeds.  The calls of `kbd_key_pressed` and `kbd_key_released`
are recorded, and the commands which such a call requests are steps of their
own behind the handler.
-/

namespace Yjkos
namespace Ps2Kbd

open Kbd (Key KeyCall)

inductive InputState where
  | default
  | waitingResponsedata
  | waitingE0ext
  | waitingE1ext1
  | waitingE1ext2
  | waitingNormalrelease
  | waitingE0release
  | waitingE1release1
  | waitingE1release2
deriving DecidableEq

inductive CmdState where
  | queued
  | waitingresponse
  | success
  | failed
deriving DecidableEq

structure CmdContext where
  state : CmdState
  noretry : Bool
  async : Bool
  responsedata : BitVec 8
  cmdbyte : BitVec 8
  resendcount : ℕ
  needdata : Bool
deriving DecidableEq

inductive CmdEvent where
  | inserted (cmd : ℕ)
  | sent (cmd : ℕ)
  | resent (cmd : ℕ)
  | finished (cmd : ℕ)
deriving DecidableEq

/-- The commands of a keyboard, with the front of the queue first. -/
structure Commands where
  cmdQueue : List ℕ
  heap : ℕ → Option CmdContext
  log : List CmdEvent

/-- `FLAG_FAKELSHIFT_DOWN` and the others. -/
structure FakeFlags where
  lshift : Bool
  numpadMul : Bool
  lctrl : Bool
  numlock : Bool
deriving DecidableEq

/-- `struct kbdcontext`.  `kbdCalls` are the calls in their order and
`badScancodes` the reports, the last one first. -/
structure Kbdcontext extends Commands where
  state : InputState
  flags : FakeFlags
  keybytes : ℕ → BitVec 8
  nextKeyByteIndex : ℕ
  kbdCalls : List KeyCall
  badScancodes : List (List (BitVec 8))

def maxResendCount : ℕ := 3

def cmdEcho : BitVec 8 := 0xee
def responseAck : BitVec 8 := 0xfa
def responseResend : BitVec 8 := 0xfe

/-- The entries of `KEYMAP_DEFAULT` which have a key. -/
def keymapDefault : List (BitVec 8 × Key) :=
  [(0x76, .escape), (0x05, .f1), (0x06, .f2), (0x04, .f3), (0x0c, .f4),
   (0x03, .f5), (0x0b, .f6), (0x83, .f7), (0x0a, .f8), (0x01, .f9),
   (0x09, .f10), (0x78, .f11), (0x07, .f12), (0x7e, .scrollLock),
   (0x0e, .backTick), (0x16, .key1), (0x1e, .key2), (0x26, .key3),
   (0x25, .key4), (0x2e, .key5), (0x36, .key6), (0x3d, .key7), (0x3e, .key8),
   (0x46, .key9), (0x45, .key0), (0x4e, .minus), (0x55, .equals),
   (0x66, .backspace), (0x0d, .tab), (0x15, .q), (0x1d, .w), (0x24, .e),
   (0x2d, .r), (0x2c, .t), (0x35, .y), (0x3c, .u), (0x43, .i), (0x44, .o),
   (0x4d, .p), (0x54, .openBracket), (0x5b, .closeBracket), (0x5d, .baskslash),
   (0x58, .capsLock), (0x1c, .a), (0x1b, .s), (0x23, .d), (0x2b, .f),
   (0x34, .g), (0x33, .h), (0x3b, .j), (0x42, .k), (0x4b, .l),
   (0x4c, .semicolon), (0x52, .quote), (0x5a, .enter), (0x12, .lshift),
   (0x1a, .z), (0x22, .x), (0x21, .c), (0x2a, .v), (0x32, .b), (0x31, .n),
   (0x3a, .m), (0x41, .comma), (0x49, .dot), (0x4a, .slash), (0x59, .rshift),
   (0x14, .lctrl), (0x11, .lalt), (0x29, .space), (0x77, .numLock),
   (0x7c, .numpadMul), (0x7b, .numpadSub), (0x6c, .numpad7), (0x75, .numpad8),
   (0x7d, .numpad9), (0x6b, .numpad4), (0x73, .numpad5), (0x74, .numpad6),
   (0x79, .numpadAdd), (0x69, .numpad1), (0x72, .numpad2), (0x7a, .numpad3),
   (0x70, .numpad0), (0x71, .numpadPoint)]

/-- The entries of `KEYMAP_E0` which have a key. -/
def keymapE0 : List (BitVec 8 × Key) :=
  [(0x1f, .lsuper), (0x11, .ralt), (0x27, .rsuper), (0x2f, .menu),
   (0x14, .rctrl), (0x70, .insert), (0x71, .delete), (0x6c, .home),
   (0x69, .keyEnd), (0x7d, .pageUp), (0x7a, .pageDown), (0x75, .up),
   (0x72, .down), (0x6b, .left), (0x74, .right), (0x4a, .numpadDiv),
   (0x5a, .numpadEnter)]

/-- The key of a byte, which is invalid for one without an entry. -/
def keyOf (keymap : List (BitVec 8 × Key)) (byte : BitVec 8) : Key :=
  (keymap.lookup byte).getD .invalid

namespace Commands

/-- `cmd_queue.back`. -/
def back (c : Commands) : Option ℕ := c.cmdQueue.getLast?

/-- The command behind a pointer, which is a wild one when it was freed. -/
def cmdAt (c : Commands) (cmd : ℕ) : Except Fault CmdContext :=
  match c.heap cmd with
  | some x => .ok x
  | none => .error .wildPointer

def write (c : Commands) (cmd : ℕ) (x : CmdContext) : Commands :=
  { c with heap := Function.update c.heap cmd (some x) }

def free (c : Commands) (cmd : ℕ) : Commands :=
  { c with heap := Function.update c.heap cmd none }

def record (c : Commands) (event : CmdEvent) : Commands :=
  { c with log := event :: c.log }

/-- `list_insert_front`, which writes to the command at the front. -/
def insertFront (c : Commands) (cmd : ℕ) : Except Fault Commands :=
  match c.cmdQueue with
  | [] => .ok { c with cmdQueue := [cmd] }
  | front :: rest => do
      let _ ← c.cmdAt front
      .ok { c with cmdQueue := cmd :: front :: rest }

/-- The next command of `cmd_finished`, if there is one. -/
def sendNext (c : Commands) (putOk : Bool) : Except Fault Commands :=
  match c.back with
  | none => .ok c
  | some cmd => do
      let x ← c.cmdAt cmd
      let c := c.write cmd { x with state := .waitingresponse }
      if putOk then .ok (c.record (.sent cmd))
      else .ok (c.write cmd { x with state := .failed })

def cmdFinished (c : Commands) (finalstate : CmdState) (putOk : Bool) :
    Except Fault Commands :=
  match c.back with
  | none => .error (.assertion "cmd_node")
  | some cmd => do
      let c := { c with cmdQueue := c.cmdQueue.dropLast }
      let x ← c.cmdAt cmd
      let c := c.write cmd { x with state := finalstate }
      let c := c.record (.finished cmd)
      let c := if x.async then c.free cmd else c
      c.sendNext putOk

end Commands

namespace Kbdcontext

def withCommands (s : Kbdcontext) (c : Commands) : Kbdcontext :=
  { s with toCommands := c }

def ackReceived (s : Kbdcontext) (putOk : Bool) : Except Fault Kbdcontext :=
  match s.back with
  | none => .ok s
  | some cmd => do
      let x ← s.cmdAt cmd
      if x.state ≠ .waitingresponse then .ok s
      else if x.needdata then .ok { s with state := .waitingResponsedata }
      else do
        let c ← s.cmdFinished .success putOk
        .ok (s.withCommands c)

def resendReceived (s : Kbdcontext) (putOk : Bool) : Except Fault Kbdcontext :=
  match s.back with
  | none => .ok s
  | some cmd => do
      let x ← s.cmdAt cmd
      if x.state ≠ .waitingresponse then .ok s
      else if 0 < x.resendcount ∧ !x.noretry then
        let x := { x with resendcount := x.resendcount - 1 }
        if putOk then
          .ok (s.withCommands ((s.write cmd x).record (.resent cmd)))
        else .ok (s.withCommands (s.write cmd { x with state := .failed }))
      else do
        let c ← s.cmdFinished .failed putOk
        .ok (s.withCommands c)

def echoReceived (s : Kbdcontext) (putOk : Bool) : Except Fault Kbdcontext :=
  match s.back with
  | none => .ok s
  | some cmd => do
      let x ← s.cmdAt cmd
      if x.state ≠ .waitingresponse then .ok s
      else if x.cmdbyte ≠ cmdEcho then .ok s
      else do
        let c ← s.cmdFinished .success putOk
        .ok (s.withCommands c)

/-- Without a command the input state stays as it is. -/
def responseByteReceived (s : Kbdcontext) (byte : BitVec 8) (putOk : Bool) :
    Except Fault Kbdcontext :=
  match s.back with
  | none => .ok s
  | some cmd => do
      let x ← s.cmdAt cmd
      if x.state ≠ .waitingresponse then .ok { s with state := .default }
      else do
        let c ← (s.write cmd { x with responsedata := byte }).cmdFinished
          .success putOk
        .ok { s.withCommands c with state := .default }

/-- The report prints the bytes which have been stored. -/
def reportBadScancode (s : Kbdcontext) : Except Fault Kbdcontext :=
  if 1 ≤ s.nextKeyByteIndex ∧ s.nextKeyByteIndex ≤ 8 then
    .ok { s with badScancodes :=
      (List.range s.nextKeyByteIndex).map s.keybytes :: s.badScancodes }
  else .error (.assertion "false")

def keyPressed (s : Kbdcontext) (key : Key) : Except Fault Kbdcontext :=
  if key = .invalid then s.reportBadScancode
  else .ok { s with kbdCalls := s.kbdCalls ++ [.pressed key] }

def keyReleased (s : Kbdcontext) (key : Key) : Except Fault Kbdcontext :=
  if key = .invalid then s.reportBadScancode
  else .ok { s with kbdCalls := s.kbdCalls ++ [.released key] }

def checkPrintscreenPress (s : Kbdcontext) : Except Fault Kbdcontext :=
  if s.flags.lshift && s.flags.numpadMul then s.keyPressed .printScreen
  else .ok s

def checkPrintscreenRelease (s : Kbdcontext) : Except Fault Kbdcontext :=
  if !s.flags.lshift && !s.flags.numpadMul then s.keyReleased .printScreen
  else .ok s

def checkPausePress (s : Kbdcontext) : Except Fault Kbdcontext :=
  if s.flags.lctrl && s.flags.numlock then s.keyPressed .pause else .ok s

def checkPauseRelease (s : Kbdcontext) : Except Fault Kbdcontext :=
  if !s.flags.lctrl && !s.flags.numlock then s.keyReleased .pause else .ok s

def e0ExtReceived (s : Kbdcontext) (byte : BitVec 8) :
    Except Fault Kbdcontext :=
  let s := { s with state := .default }
  if byte = 0xf0 then .ok { s with state := .waitingE0release }
  else if byte = 0x12 then
    { s with flags := { s.flags with lshift := true } }.checkPrintscreenPress
  else if byte = 0x7c then
    { s with
      flags := { s.flags with numpadMul := true } }.checkPrintscreenPress
  else s.keyPressed (keyOf keymapE0 byte)

def e0ReleaseReceived (s : Kbdcontext) (byte : BitVec 8) :
    Except Fault Kbdcontext :=
  let s := { s with state := .default }
  if byte = 0x12 then
    { s with
      flags := { s.flags with lshift := false } }.checkPrintscreenRelease
  else if byte = 0x7c then
    { s with
      flags := { s.flags with numpadMul := false } }.checkPrintscreenRelease
  else s.keyReleased (keyOf keymapE0 byte)

def e1Ext1Received (s : Kbdcontext) (byte : BitVec 8) : Kbdcontext :=
  let s := { s with state := .waitingE1ext2 }
  if byte = 0xf0 then { s with state := .waitingE1release1 }
  else if byte = 0x14 then { s with flags := { s.flags with lctrl := true } }
  else if byte = 0x77 then { s with flags := { s.flags with numlock := true } }
  else s

def e1Release1Received (s : Kbdcontext) (byte : BitVec 8) : Kbdcontext :=
  let s := { s with state := .waitingE1ext2 }
  if byte = 0x14 then { s with flags := { s.flags with lctrl := false } }
  else if byte = 0x77 then
    { s with flags := { s.flags with numlock := false } }
  else s

def e1Ext2Received (s : Kbdcontext) (byte : BitVec 8) :
    Except Fault Kbdcontext :=
  let s := { s with state := .default }
  if byte = 0xf0 then .ok { s with state := .waitingE1release2 }
  else if byte = 0x14 then
    { s with flags := { s.flags with lctrl := true } }.checkPausePress
  else if byte = 0x77 then
    { s with flags := { s.flags with numlock := true } }.checkPausePress
  else s.reportBadScancode

def e1Release2Received (s : Kbdcontext) (byte : BitVec 8) :
    Except Fault Kbdcontext :=
  let s := { s with state := .default }
  if byte = 0x14 then
    { s with flags := { s.flags with lctrl := false } }.checkPauseRelease
  else if byte = 0x77 then
    { s with flags := { s.flags with numlock := false } }.checkPauseRelease
  else s.reportBadScancode

def normalReleaseReceived (s : Kbdcontext) (byte : BitVec 8) :
    Except Fault Kbdcontext :=
  { s with state := .default }.keyReleased (keyOf keymapDefault byte)

def scancodeFirstByteReceived (s : Kbdcontext) (byte : BitVec 8) :
    Except Fault Kbdcontext :=
  if byte = 0xe0 then .ok { s with state := .waitingE0ext }
  else if byte = 0xe1 then .ok { s with state := .waitingE1ext1 }
  else if byte = 0xf0 then .ok { s with state := .waitingNormalrelease }
  else s.keyPressed (keyOf keymapDefault byte)

/-- The first statements of `ps2_op_bytereceived`. -/
def storeKeyByte (s : Kbdcontext) (byte : BitVec 8) :
    Except Fault Kbdcontext :=
  let i := if s.state = .default then 0 else s.nextKeyByteIndex
  if i < 8 then
    .ok { s with
      keybytes := Function.update s.keybytes i byte
      nextKeyByteIndex := (i + 1) % 256 }
  else .error .outOfBounds

/-- The `switch` on the input state. -/
def scancodeReceived (s : Kbdcontext) (byte : BitVec 8) (putOk : Bool) :
    Except Fault Kbdcontext :=
  match s.state with
  | .waitingResponsedata => s.responseByteReceived byte putOk
  | .waitingE0ext => s.e0ExtReceived byte
  | .waitingE0release => s.e0ReleaseReceived byte
  | .waitingE1ext1 => .ok (s.e1Ext1Received byte)
  | .waitingE1release1 => .ok (s.e1Release1Received byte)
  | .waitingE1ext2 => s.e1Ext2Received byte
  | .waitingE1release2 => s.e1Release2Received byte
  | .waitingNormalrelease => s.normalReleaseReceived byte
  | .default => s.scancodeFirstByteReceived byte

def opBytereceived (s : Kbdcontext) (byte : BitVec 8) (putOk : Bool) :
    Except Fault Kbdcontext := do
  let s ← s.storeKeyByte byte
  if byte = responseAck then s.ackReceived putOk
  else if byte = responseResend then s.resendReceived putOk
  else if byte = cmdEcho then s.echoReceived putOk
  else s.scancodeReceived byte putOk

end Kbdcontext

/-- How far a call of `request_cmd` has come.  It sends its command itself
when it has found the queue empty. -/
inductive Place where
  | tested (isqueueempty : Bool)
  | sending
  | waiting
  | returned
deriving DecidableEq

/-- A call of `request_cmd`, whose result is stored for `resultOut`. -/
structure Request where
  cmdbyte : BitVec 8
  noretry : Bool
  async : Bool
  resultOut : Bool
  place : Place
deriving DecidableEq

/-- Where a call goes when its command has been sent or needs no sending. -/
def Request.afterwards (r : Request) : Place :=
  if r.async then .returned else .waiting

/-- The keyboard with the calls made so far. -/
structure Keyboard where
  ctx : Kbdcontext
  calls : ℕ → Option Request
  requested : ℕ

/-- `byteReceived` is a whole run of the interrupt handler. -/
inductive Ps2Step where
  | byteReceived (byte : BitVec 8) (putOk : Bool)
  | test (cmdbyte : BitVec 8) (noretry async resultOut : Bool)
  | insert (call : ℕ)
  | send (call : ℕ) (putOk : Bool)
  | poll (call : ℕ)
deriving DecidableEq

/-- A step stops at a fault, or is one which its call cannot take. -/
inductive Halt where
  | fault (fault : Fault)
  | elsewhere
deriving DecidableEq

def orHalt {α : Type} : Except Fault α → Except Halt α
  | .ok a => .ok a
  | .error e => .error (.fault e)

namespace Keyboard

def goTo (k : Keyboard) (call : ℕ) (r : Request) (place : Place) : Keyboard :=
  { k with calls := Function.update k.calls call (some { r with place }) }

def withCommands (k : Keyboard) (c : Commands) : Keyboard :=
  { k with ctx := k.ctx.withCommands c }

/-- From the allocation to the test of the queue.  The command is not in the
queue yet. -/
def test (k : Keyboard) (cmdbyte : BitVec 8) (noretry async resultOut : Bool) :
    Except Fault Keyboard := do
  cAssert (!async || async && !resultOut) "!async || (async && !result_out)"
  let isqueueempty := decide (k.ctx.cmdQueue = [])
  let x : CmdContext :=
    { state := if isqueueempty then .waitingresponse else .queued
      noretry := noretry
      async := async
      responsedata := 0
      cmdbyte := cmdbyte
      resendcount := maxResendCount
      needdata := resultOut }
  let r : Request := ⟨cmdbyte, noretry, async, resultOut, .tested isqueueempty⟩
  let k := k.withCommands (k.ctx.write k.requested x)
  .ok { k with
    calls := Function.update k.calls k.requested (some r)
    requested := k.requested + 1 }

def insert (k : Keyboard) (call : ℕ) (r : Request) (isqueueempty : Bool) :
    Except Fault Keyboard := do
  let c ← k.ctx.insertFront call
  .ok ((k.withCommands (c.record (.inserted call))).goTo call r
    (if isqueueempty then .sending else r.afterwards))

def send (k : Keyboard) (call : ℕ) (r : Request) (putOk : Bool) : Keyboard :=
  if putOk then
    (k.withCommands (k.ctx.record (.sent call))).goTo call r
      r.afterwards
  else k.goTo call r .returned

/-- One turn of the loop which waits, and what follows the last one. -/
def poll (k : Keyboard) (call : ℕ) (r : Request) : Except Fault Keyboard := do
  let x ← k.ctx.cmdAt call
  if x.state ≠ .success ∧ x.state ≠ .failed then .ok k
  else .ok ((k.withCommands (k.ctx.free call)).goTo call r .returned)

def step (k : Keyboard) : Ps2Step → Except Halt Keyboard
  | .byteReceived byte putOk => orHalt do
      let s ← k.ctx.opBytereceived byte putOk
      .ok { k with ctx := s }
  | .test cmdbyte noretry async resultOut =>
      orHalt (k.test cmdbyte noretry async resultOut)
  | .insert call =>
      match k.calls call with
      | some r =>
          match r.place with
          | .tested isqueueempty => orHalt (k.insert call r isqueueempty)
          | _ => .error .elsewhere
      | none => .error .elsewhere
  | .send call putOk =>
      match k.calls call with
      | some r =>
          match r.place with
          | .sending => .ok (k.send call r putOk)
          | _ => .error .elsewhere
      | none => .error .elsewhere
  | .poll call =>
      match k.calls call with
      | some r =>
          match r.place with
          | .waiting => orHalt (k.poll call r)
          | _ => .error .elsewhere
      | none => .error .elsewhere

/-- The keyboard of `ps2kbd_init`, without a command. -/
def initial : Keyboard where
  ctx :=
    { cmdQueue := []
      heap := fun _ => none
      log := []
      state := .default
      flags := ⟨false, false, false, false⟩
      keybytes := fun _ => 0
      nextKeyByteIndex := 0
      kbdCalls := []
      badScancodes := [] }
  calls := fun _ => none
  requested := 0

end Keyboard

end Ps2Kbd
end Yjkos
