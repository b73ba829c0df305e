import Yjkos.Machine

/-!
# Formatted output

`stream_vprintf` of `kernel/io/stream.c` with what it prints numbers with.  The
stream takes one byte at a time and answers with the result of its `write`
operation; the bytes which have gone out are a list.  The arguments are the
32-bit words of the i586 stack, with the low word of a 64-bit argument first,
and a string argument is looked up in memory.
-/

namespace Yjkos
namespace Printf

abbrev Byte := BitVec 8

abbrev Word := BitVec 32

/-- The way in which a call ends early: a negative result, which every caller
returns, or a fault. -/
inductive Stop where
  | returns (result : ℤ) (sent : List Byte)
  | fault (fault : Fault)
deriving DecidableEq, Repr

/-! ## Characters and strings -/

section Put

-- The result of `ops->write` for a byte behind the bytes before.
variable (write : List Byte → Byte → ℤ)

def streamPutChar (c : Byte) (sent : List Byte) :
    Except Stop (ℤ × List Byte) :=
  let result := write sent c
  if result < 0 then .error (.returns result sent)
  else if result = 0 then .error (.fault (.assertion "result != 0"))
  else .ok (result, sent ++ [c])

/-- The loop of `stream_put_string`. -/
def putString : List Byte → ℤ → List Byte → Except Stop (ℤ × List Byte)
  | [], writtenCount, sent => .ok (writtenCount, sent)
  | c :: rest, writtenCount, sent => do
      let (_, sent) ← streamPutChar write c sent
      putString rest (writtenCount + 1) sent

def nullText : List Byte := [0x3c, 0x6e, 0x75, 0x6c, 0x6c, 0x3e]

/-- The string is none for `nullptr`. -/
def streamPutString (s : Option (List Byte)) (sent : List Byte) :
    Except Stop (ℤ × List Byte) :=
  putString write (s.getD nullText) 0 sent

/-- The loop over the padding. -/
def putPadding (padchar : Byte) :
    ℕ → ℤ → List Byte → Except Stop (ℤ × List Byte)
  | 0, writtenCount, sent => .ok (writtenCount, sent)
  | count + 1, writtenCount, sent => do
      let (ret, sent) ← streamPutChar write padchar sent
      putPadding padchar count (writtenCount + ret) sent

end Put

/-! ## Numbers -/

inductive Base where
  | dec
  | hex
deriving DecidableEq, Repr

def Base.radix : Base → ℕ
  | .dec => 10
  | .hex => 16

theorem Base.one_lt_radix (base : Base) : 1 < base.radix := by
  cases base <;> decide

/-- The loop which finds the divisor of the first digit; `current` and
`divisor` are `ULONG`. -/
def divisorLoop (base : Base) (current divisor : ℕ) : ℕ :=
  if current / base.radix = 0 then divisor
  else divisorLoop base (current / base.radix) (wrap (divisor * base.radix))
termination_by current
decreasing_by
  next h =>
  have hpos : 0 < current := by
    apply Nat.pos_of_ne_zero
    rintro rfl
    exact h (Nat.zero_div _)
  exact Nat.div_lt_self hpos base.one_lt_radix

/-- The number of the rounds of `for (; divisor; divisor /= 10)`. -/
def measureLoop (base : Base) (divisor : ℕ) : ℕ :=
  if divisor = 0 then 0 else measureLoop base (divisor / base.radix) + 1
termination_by divisor
decreasing_by
  next h => exact Nat.div_lt_self (Nat.pos_of_ne_zero h) base.one_lt_radix

/-- What the measuring functions share; their argument has 32 bits. -/
def measure (base : Base) (i : BitVec 64) : ℕ :=
  measureLoop base (divisorLoop base (wrap i.toNat) 1)

def measureDecUnsigned (i : BitVec 64) : ℕ := measure .dec i

def measureDecSigned (i : BitVec 64) : ℕ :=
  if i.toInt < 0 then 1 + measureDecUnsigned (-i) else measureDecUnsigned i

def measurehex (i : BitVec 64) : ℕ := measure .hex i

def decChar (digit : ℕ) : Byte := BitVec.ofNat 8 (0x30 + digit)

def hexChar (uppercase : Bool) (digit : ℕ) : Byte :=
  let a := if uppercase then 0x41 else 0x61
  if digit < 10 then BitVec.ofNat 8 (0x30 + digit)
  else BitVec.ofNat 8 (a + (digit - 10))

section Print

variable (write : List Byte → Byte → ℤ)

/-- The loop which prints the digits of a 64-bit number, from `divisor` on. -/
def printLoop (base : Base) (digitChar : ℕ → Byte) (i divisor : ℕ)
    (writtenCount : ℤ) (sent : List Byte) : Except Stop (ℤ × List Byte) :=
  if divisor = 0 then .ok (writtenCount, sent)
  else do
    let (_, sent) ←
      streamPutChar write (digitChar (i / divisor % base.radix)) sent
    printLoop base digitChar i (divisor / base.radix) (writtenCount + 1) sent
termination_by divisor
decreasing_by
  next h => exact Nat.div_lt_self (Nat.pos_of_ne_zero h) base.one_lt_radix

/-- What the printing functions share; the divisor is a `ULONG`. -/
def printNumber (base : Base) (digitChar : ℕ → Byte) (i : BitVec 64)
    (sent : List Byte) : Except Stop (ℤ × List Byte) :=
  printLoop write base digitChar i.toNat
    (divisorLoop base (wrap i.toNat) 1) 0 sent

def printDecUnsigned (i : BitVec 64) (sent : List Byte) :
    Except Stop (ℤ × List Byte) :=
  printNumber write .dec decChar i sent

def minus : Byte := 0x2d

def printDecSigned (i : BitVec 64) (sent : List Byte) :
    Except Stop (ℤ × List Byte) :=
  if i.toInt < 0 then do
    let (_, sent) ← streamPutChar write minus sent
    let (result, sent) ← printDecUnsigned write (-i) sent
    .ok (1 + result, sent)
  else printDecUnsigned write i sent

def printHex (i : BitVec 64) (uppercase : Bool) (sent : List Byte) :
    Except Stop (ℤ × List Byte) :=
  printNumber write .hex (hexChar uppercase) i sent

end Print

/-! ## Formats -/

inductive Lenmod where
  | int
  | char
  | short
  | long
  | longLong
  | intmax
  | size
  | ptrdiff
deriving DecidableEq, Repr

/-- What stands between `%` and the conversion. -/
structure Spec where
  alternateForm : Bool
  minwidthPresent : Bool
  padchar : Byte
  lenmod : Lenmod
  minwidth : ℕ
deriving DecidableEq, Repr

def Spec.initial : Spec := ⟨false, false, 0x20, .int, 0⟩

/-- `fmtflag` -/
def fmtflag : List Byte → Spec → Spec × List Byte
  | [], spec => (spec, [])
  | c :: fmt, spec =>
      if c = 0x23 then fmtflag fmt { spec with alternateForm := true }
      else if c = 0x30 then fmtflag fmt { spec with padchar := 0x30 }
      else (spec, c :: fmt)

/-- `fmtminwidth`; the width is a `uint32_t`. -/
def fmtminwidth : List Byte → Spec → Spec × List Byte
  | [], spec => (spec, [])
  | c :: fmt, spec =>
      if 0x30 ≤ c.toNat ∧ c.toNat ≤ 0x39 then
        fmtminwidth fmt { spec with
          minwidthPresent := true
          minwidth := wrap (spec.minwidth * 10 + (c.toNat - 0x30)) }
      else (spec, c :: fmt)

/-- `fmtlenmod` -/
def fmtlenmod : List Byte → Spec → Spec × List Byte
  | [], spec => (spec, [])
  | c :: rest, spec =>
      if c = 0x68 then
        if rest.head? = some 0x68 then
          ({ spec with lenmod := .char }, rest.tail)
        else ({ spec with lenmod := .short }, rest)
      else if c = 0x6c then
        if rest.head? = some 0x6c then
          ({ spec with lenmod := .longLong }, rest.tail)
        else ({ spec with lenmod := .long }, rest)
      else if c = 0x6a then ({ spec with lenmod := .intmax }, rest)
      else if c = 0x7a then ({ spec with lenmod := .size }, rest)
      else (spec, c :: rest)

/-- The labels from `fmtflag` to `fmtlenmod`. -/
def readSpec (fmt : List Byte) : Spec × List Byte :=
  let (spec, fmt) := fmtflag fmt .initial
  let (spec, fmt) := fmtminwidth fmt spec
  fmtlenmod fmt spec

theorem fmtflag_length (fmt : List Byte) (spec : Spec) :
    (fmtflag fmt spec).2.length ≤ fmt.length := by
  induction fmt generalizing spec with
  | nil => exact le_rfl
  | cons c fmt ih =>
      unfold fmtflag
      split
      · exact (ih _).trans (Nat.le_succ _)
      · split
        · exact (ih _).trans (Nat.le_succ _)
        · exact le_rfl

theorem fmtminwidth_length (fmt : List Byte) (spec : Spec) :
    (fmtminwidth fmt spec).2.length ≤ fmt.length := by
  induction fmt generalizing spec with
  | nil => exact le_rfl
  | cons c fmt ih =>
      unfold fmtminwidth
      split
      · exact (ih _).trans (Nat.le_succ _)
      · exact le_rfl

theorem fmtlenmod_length (fmt : List Byte) (spec : Spec) :
    (fmtlenmod fmt spec).2.length ≤ fmt.length := by
  cases fmt with
  | nil => exact le_rfl
  | cons c rest =>
      have htail : rest.tail.length ≤ rest.length + 1 := by
        rw [List.length_tail]
        omega
      rw [fmtlenmod]
      split
      · split
        · exact htail
        · exact Nat.le_succ _
      · split
        · split
          · exact htail
          · exact Nat.le_succ _
        · split
          · exact Nat.le_succ _
          · split
            · exact Nat.le_succ _
            · exact le_rfl

theorem readSpec_length (fmt : List Byte) :
    (readSpec fmt).2.length ≤ fmt.length :=
  (fmtlenmod_length _ _).trans
    ((fmtminwidth_length _ _).trans (fmtflag_length _ _))

/-! ## Arguments -/

def vaWord : List Word → Except Stop (Word × List Word)
  | [] => .error (.fault .outOfBounds)
  | word :: ap => .ok (word, ap)

def vaWide : List Word → Except Stop (BitVec 64 × List Word)
  | low :: high :: ap => .ok (high ++ low, ap)
  | _ => .error (.fault .outOfBounds)

/-- The switch of `%d`: the argument as an `intmax_t`. -/
def signedArg (lenmod : Lenmod) (ap : List Word) :
    Except Stop (BitVec 64 × List Word) :=
  match lenmod with
  | .char | .short | .int | .long | .ptrdiff => do
      let (word, ap) ← vaWord ap
      .ok (word.signExtend 64, ap)
  | .longLong | .intmax => vaWide ap
  | .size => do
      let (word, ap) ← vaWord ap
      .ok (word.setWidth 64, ap)

/-- The switch of `%u` and of `%x`: the argument as a `uintmax_t`. -/
def unsignedArg (lenmod : Lenmod) (ap : List Word) :
    Except Stop (BitVec 64 × List Word) :=
  match lenmod with
  | .char | .short | .int | .long | .size => do
      let (word, ap) ← vaWord ap
      .ok (word.setWidth 64, ap)
  | .longLong | .intmax => vaWide ap
  | .ptrdiff => do
      let (word, ap) ← vaWord ap
      .ok (word.signExtend 64, ap)

/-! ## Conversions -/

section Format

variable (write : List Byte → Byte → ℤ)

/-- The padding in front of something of this length, if there is a width. -/
def pad (spec : Spec) (measureresult : ℕ) (sent : List Byte) :
    Except Stop (ℤ × List Byte) :=
  if spec.minwidthPresent then
    putPadding write spec.padchar (spec.minwidth - measureresult) 0 sent
  else .ok (0, sent)

def formatD (spec : Spec) (ap : List Word) (sent : List Byte) :
    Except Stop (ℤ × List Word × List Byte) := do
  let (val, ap) ← signedArg spec.lenmod ap
  let (padded, sent) ← pad write spec (measureDecSigned val) sent
  let (ret, sent) ← printDecSigned write val sent
  .ok (padded + ret, ap, sent)

def formatU (spec : Spec) (ap : List Word) (sent : List Byte) :
    Except Stop (ℤ × List Word × List Byte) := do
  let (val, ap) ← unsignedArg spec.lenmod ap
  let (padded, sent) ← pad write spec (measureDecUnsigned val) sent
  let (ret, sent) ← printDecUnsigned write val sent
  .ok (padded + ret, ap, sent)

def hexPrefix (isuppercase : Bool) : List Byte :=
  [0x30, if isuppercase then 0x58 else 0x78]

def formatX (isuppercase : Bool) (spec : Spec) (ap : List Word)
    (sent : List Byte) : Except Stop (ℤ × List Word × List Byte) := do
  let (val, ap) ← unsignedArg spec.lenmod ap
  let measureresult :=
    if spec.alternateForm then measurehex val + 2 else measurehex val
  let (start, sent) ← if spec.alternateForm then
      streamPutString write (some (hexPrefix isuppercase)) sent
    else .ok (0, sent)
  let (padded, sent) ← pad write spec measureresult sent
  let (ret, sent) ← printHex write val isuppercase sent
  .ok (start + padded + ret, ap, sent)

def formatP (ap : List Word) (sent : List Byte) :
    Except Stop (ℤ × List Word × List Byte) := do
  let (p, ap) ← vaWord ap
  let (start, sent) ← streamPutString write (some (hexPrefix false)) sent
  let (ret, sent) ← printHex write (p.setWidth 64) false sent
  .ok (start + ret, ap, sent)

-- The string at an address.
variable (memory : Word → Option (List Byte))

/-- `doformat`, with the characters written for the conversion. -/
def doformat (spec : Spec) (conversion : Byte) (ap : List Word)
    (sent : List Byte) : Except Stop (ℤ × List Word × List Byte) :=
  if conversion = 0x63 then do
    let (word, ap) ← vaWord ap
    let (_, sent) ← streamPutChar write (word.setWidth 8) sent
    .ok (1, ap, sent)
  else if conversion = 0x73 then do
    let (word, ap) ← vaWord ap
    let (ret, sent) ← streamPutString write (memory word) sent
    .ok (ret, ap, sent)
  else if conversion = 0x64 then formatD write spec ap sent
  else if conversion = 0x75 then formatU write spec ap sent
  else if conversion = 0x78 ∨ conversion = 0x58 then
    formatX write (conversion = 0x58) spec ap sent
  else if conversion = 0x70 then formatP write ap sent
  else do
    let (ret, sent) ← streamPutChar write conversion sent
    .ok (ret, ap, sent)

/-- `percentorchar` -/
def percentorchar (fmt : List Byte) (ap : List Word) (writtenCount : ℤ)
    (sent : List Byte) : Except Stop (ℤ × List Byte) :=
  match fmt with
  | [] => .ok (writtenCount, sent)
  | c :: fmt =>
      if c = 0x25 then
        match _hread : (readSpec fmt).2 with
        | [] => .ok (writtenCount, sent)
        | conversion :: rest => do
            let (ret, ap, sent) ←
              doformat write memory (readSpec fmt).1 conversion ap sent
            percentorchar rest ap (writtenCount + ret) sent
      else do
        let (_, sent) ← streamPutChar write c sent
        percentorchar fmt ap (writtenCount + 1) sent
termination_by fmt.length
decreasing_by
  · have hle := readSpec_length fmt
    rw [_hread, List.length_cons] at hle
    rw [List.length_cons]
    omega
  · exact Nat.lt_succ_self _

def streamVprintf (fmt : List Byte) (ap : List Word) (sent : List Byte) :
    Except Fault (ℤ × List Byte) :=
  match percentorchar write memory fmt ap 0 sent with
  | .ok (writtenCount, sent) => .ok (toSigned (toSize writtenCount), sent)
  | .error (.returns result sent) => .ok (result, sent)
  | .error (.fault fault) => .error fault

end Format

end Printf
end Yjkos
