import Mathlib.Tactic

/-!
# Keys

`KBD_KEY` and the table `KEYMAP` of `kernel/io/kbd.c`.  A character of the
table is a byte, and zero when the key has none.
-/

namespace Yjkos
namespace Kbd

inductive Key where
  | invalid | escape | f1 | f2 | f3 | f4 | f5 | f6 | f7 | f8 | f9 | f10 | f11
  | f12 | printScreen | scrollLock | pause | backTick | key1 | key2 | key3
  | key4 | key5 | key6 | key7 | key8 | key9 | key0 | minus | equals | backspace
  | tab | q | w | e | r | t | y | u | i | o | p | openBracket | closeBracket
  | baskslash | capsLock | a | s | d | f | g | h | j | k | l | semicolon
  | quote | enter | lshift | z | x | c | v | b | n | m | comma | dot | slash
  | rshift | lctrl | lsuper | lalt | space | ralt | rsuper | menu | rctrl
  | insert | delete | home | keyEnd | pageUp | pageDown | up | down | left
  | right | numLock | numpadDiv | numpadMul | numpadSub | numpad7 | numpad8
  | numpad9 | numpad4 | numpad5 | numpad6 | numpadAdd | numpad1 | numpad2
  | numpad3 | numpad0 | numpadPoint | numpadEnter
deriving DecidableEq, Repr

/-- The keys from one up to `KBD_KEY_COUNT`, in the order of the enumeration. -/
def Key.fromOne : List Key :=
  [.escape, .f1, .f2, .f3, .f4, .f5, .f6, .f7, .f8, .f9, .f10, .f11, .f12,
   .printScreen, .scrollLock, .pause, .backTick, .key1, .key2, .key3, .key4,
   .key5, .key6, .key7, .key8, .key9, .key0, .minus, .equals, .backspace, .tab,
   .q, .w, .e, .r, .t, .y, .u, .i, .o, .p, .openBracket, .closeBracket,
   .baskslash, .capsLock, .a, .s, .d, .f, .g, .h, .j, .k, .l, .semicolon,
   .quote, .enter, .lshift, .z, .x, .c, .v, .b, .n, .m, .comma, .dot, .slash,
   .rshift, .lctrl, .lsuper, .lalt, .space, .ralt, .rsuper, .menu, .rctrl,
   .insert, .delete, .home, .keyEnd, .pageUp, .pageDown, .up, .down, .left,
   .right, .numLock, .numpadDiv, .numpadMul, .numpadSub, .numpad7, .numpad8,
   .numpad9, .numpad4, .numpad5, .numpad6, .numpadAdd, .numpad1, .numpad2,
   .numpad3, .numpad0, .numpadPoint, .numpadEnter]

theorem Key.mem_fromOne (key : Key) : key ∈ fromOne ↔ key ≠ .invalid := by
  cases key <;> decide

/-- `struct keymapentry`, with its flags apart. -/
structure KeymapEntry where
  keyAlt : Key
  chr : BitVec 8
  chralt : BitVec 8
  flagShift : Bool
  flagCapslock : Bool
  flagNumlock : Bool
deriving DecidableEq

def keyNochar : KeymapEntry := ⟨.invalid, 0, 0, false, false, false⟩

def keyChar (chr : BitVec 8) : KeymapEntry :=
  ⟨.invalid, chr, chr, false, false, false⟩

def keyCharWithShift (chr chralt : BitVec 8) : KeymapEntry :=
  ⟨.invalid, chr, chralt, true, false, false⟩

/-- A key with Caps Lock has Shift as well. -/
def keyCharWithCapslock (chr chralt : BitVec 8) : KeymapEntry :=
  ⟨.invalid, chr, chralt, true, true, false⟩

def keyCharWithNumlock (numlockOff : Key) (chr : BitVec 8) : KeymapEntry :=
  ⟨numlockOff, chr, chr, false, false, true⟩

/-- `KEYMAP`, where a key which has no line of its own has no character. -/
def keymap : Key → KeymapEntry
  | .backTick => keyCharWithShift 0x60 0x7e
  | .key1 => keyCharWithShift 0x31 0x21
  | .key2 => keyCharWithShift 0x32 0x40
  | .key3 => keyCharWithShift 0x33 0x23
  | .key4 => keyCharWithShift 0x34 0x24
  | .key5 => keyCharWithShift 0x35 0x25
  | .key6 => keyCharWithShift 0x36 0x5e
  | .key7 => keyCharWithShift 0x37 0x26
  | .key8 => keyCharWithShift 0x38 0x2a
  | .key9 => keyCharWithShift 0x39 0x28
  | .key0 => keyCharWithShift 0x30 0x29
  | .minus => keyCharWithShift 0x2d 0x5f
  | .equals => keyCharWithShift 0x3d 0x2b
  | .backspace => keyChar 0x08
  | .tab => keyChar 0x09
  | .q => keyCharWithCapslock 0x71 0x51
  | .w => keyCharWithCapslock 0x77 0x57
  | .e => keyCharWithCapslock 0x65 0x45
  | .r => keyCharWithCapslock 0x72 0x52
  | .t => keyCharWithCapslock 0x74 0x54
  | .y => keyCharWithCapslock 0x79 0x59
  | .u => keyCharWithCapslock 0x75 0x55
  | .i => keyCharWithCapslock 0x69 0x49
  | .o => keyCharWithCapslock 0x6f 0x4f
  | .p => keyCharWithCapslock 0x70 0x50
  | .openBracket => keyCharWithShift 0x5b 0x7b
  | .closeBracket => keyCharWithShift 0x5d 0x7d
  | .baskslash => keyCharWithShift 0x5c 0x7c
  | .a => keyCharWithCapslock 0x61 0x41
  | .s => keyCharWithCapslock 0x73 0x53
  | .d => keyCharWithCapslock 0x64 0x44
  | .f => keyCharWithCapslock 0x66 0x46
  | .g => keyCharWithCapslock 0x67 0x47
  | .h => keyCharWithCapslock 0x68 0x48
  | .j => keyCharWithCapslock 0x6a 0x4a
  | .k => keyCharWithCapslock 0x6b 0x4b
  | .l => keyCharWithCapslock 0x6c 0x4c
  | .semicolon => keyCharWithShift 0x3b 0x3a
  | .quote => keyCharWithShift 0x27 0x22
  | .enter => keyChar 0x0a
  | .z => keyCharWithCapslock 0x7a 0x5a
  | .x => keyCharWithCapslock 0x78 0x58
  | .c => keyCharWithCapslock 0x63 0x43
  | .v => keyCharWithCapslock 0x76 0x56
  | .b => keyCharWithCapslock 0x62 0x42
  | .n => keyCharWithCapslock 0x6e 0x4e
  | .m => keyCharWithCapslock 0x6d 0x4d
  | .comma => keyCharWithShift 0x2c 0x3c
  | .dot => keyCharWithShift 0x2e 0x3e
  | .slash => keyCharWithShift 0x2f 0x3f
  | .space => keyChar 0x20
  | .numpadDiv => keyChar 0x2f
  | .numpadMul => keyChar 0x2a
  | .numpadSub => keyChar 0x2d
  | .numpad7 => keyCharWithNumlock .home 0x37
  | .numpad8 => keyCharWithNumlock .up 0x38
  | .numpad9 => keyCharWithNumlock .pageUp 0x39
  | .numpad4 => keyCharWithNumlock .left 0x34
  | .numpad5 => keyCharWithNumlock .invalid 0x35
  | .numpad6 => keyCharWithNumlock .right 0x36
  | .numpadAdd => keyChar 0x2b
  | .numpad1 => keyCharWithNumlock .keyEnd 0x31
  | .numpad2 => keyCharWithNumlock .down 0x32
  | .numpad3 => keyCharWithNumlock .pageDown 0x33
  | .numpad0 => keyCharWithNumlock .insert 0x30
  | .numpadPoint => keyChar 0x2e
  | .numpadEnter => keyChar 0x0a
  | _ => keyNochar

end Kbd
end Yjkos
