import Yjkos.Numeral
import Yjkos.Printf

/-!
# Output of the number conversions

What the measuring and printing functions do, in terms of numerals, and what
`stream_vprintf` emits for a conversion wherever it stands in a format: the
prefix, the padding, the sign and as many low digits as the low 32 bits of the
magnitude have.
-/

namespace Yjkos
namespace Printf

open Numeral

/-! ## Printing loops -/

theorem divisorLoop_eq (base : Base) {current divisor : ℕ}
    (h : divisor * base.radix ^ Nat.log base.radix current < 4294967296) :
    divisorLoop base current divisor =
      divisor * base.radix ^ Nat.log base.radix current := by
  have hradix := base.one_lt_radix
  induction current using Nat.strong_induction_on generalizing divisor with
  | _ current ih =>
      unfold divisorLoop
      by_cases hsmall : current / base.radix = 0
      · have hlt : current < base.radix := by
          rw [Nat.div_eq_zero_iff] at hsmall
          omega
        rw [if_pos hsmall, Nat.log_of_lt hlt, pow_zero, mul_one]
      · have hle : base.radix ≤ current := by
          by_contra hlt
          exact hsmall (Nat.div_eq_of_lt (by omega))
        have hlog := Nat.log_of_one_lt_of_le hradix hle
        rw [hlog, pow_succ', ← mul_assoc] at h
        have hwrap : wrap (divisor * base.radix) = divisor * base.radix := by
          refine wrap_of_lt (lt_of_le_of_lt ?_ h)
          exact Nat.le_mul_of_pos_right _ (Nat.pow_pos (by omega))
        rw [if_neg hsmall, hwrap,
          ih _ (Nat.div_lt_self (by omega) hradix) h, hlog, pow_succ',
          mul_assoc]

theorem divisorLoop_wrap (base : Base) (i : ℕ) :
    divisorLoop base (wrap i) 1 =
      base.radix ^ (count base.radix (wrap i) - 1) := by
  have hbound : base.radix ^ Nat.log base.radix (wrap i) < 4294967296 := by
    by_cases hzero : wrap i = 0
    · simp [hzero]
    · exact (Nat.pow_log_le_self _ hzero).trans_lt (wrap_lt i)
  rw [divisorLoop_eq base (by rw [one_mul]; exact hbound), one_mul]
  rfl

theorem pow_succ_div (base : Base) (k : ℕ) :
    base.radix ^ (k + 1) / base.radix = base.radix ^ k := by
  have hradix := base.one_lt_radix
  rw [pow_succ, Nat.mul_div_cancel _ (by omega)]

theorem measureLoop_pow (base : Base) (k : ℕ) :
    measureLoop base (base.radix ^ k) = k + 1 := by
  have hradix := base.one_lt_radix
  induction k with
  | zero =>
      rw [pow_zero, measureLoop, if_neg one_ne_zero, Nat.div_eq_of_lt hradix,
        measureLoop, if_pos rfl]
  | succ k ih =>
      have hpos : base.radix ^ (k + 1) ≠ 0 :=
        (Nat.pow_pos (by omega)).ne'
      rw [measureLoop, if_neg hpos, pow_succ_div, ih]

theorem measure_eq (base : Base) (i : BitVec 64) :
    measure base i = count base.radix (wrap i.toNat) := by
  rw [measure, divisorLoop_wrap, measureLoop_pow]
  rfl

/-- The digits which a printing function emits for a magnitude. -/
def numberText (base : Base) (digitChar : ℕ → Byte) (magnitude : ℕ) :
    List Byte :=
  (lowDigits base.radix (count base.radix (wrap magnitude)) magnitude).map
    digitChar

theorem numberText_length (base : Base) (digitChar : ℕ → Byte)
    (magnitude : ℕ) : (numberText base digitChar magnitude).length =
      count base.radix (wrap magnitude) := by
  rw [numberText, List.length_map, lowDigits_length]

/-- The text which `print_dec_signed` emits. -/
def signedText (i : BitVec 64) : List Byte :=
  if i.toInt < 0 then minus :: numberText .dec decChar (-i).toNat
  else numberText .dec decChar i.toNat

theorem measureDecSigned_eq (i : BitVec 64) :
    measureDecSigned i = (signedText i).length := by
  unfold measureDecSigned signedText measureDecUnsigned
  split
  · rw [List.length_cons, numberText_length, measure_eq, add_comm]
  · rw [numberText_length, measure_eq]

/-- The call writes this text and returns its length. -/
def Emits (put : List Byte → Except Stop (ℤ × List Byte))
    (text : List Byte) : Prop :=
  ∀ sent, put sent = .ok ((text.length : ℤ), sent ++ text)

section Print

/-- The stream takes every byte. -/
def Takes (write : List Byte → Byte → ℤ) : Prop := ∀ sent c, write sent c = 1

variable {write : List Byte → Byte → ℤ} (hwrite : Takes write)
include hwrite

theorem streamPutChar_eq (c : Byte) (sent : List Byte) :
    streamPutChar write c sent = .ok (1, sent ++ [c]) := by
  simp only [streamPutChar, hwrite sent c]
  rfl

theorem putString_eq (s : List Byte) (writtenCount : ℤ) (sent : List Byte) :
    putString write s writtenCount sent =
      .ok (writtenCount + s.length, sent ++ s) := by
  induction s generalizing writtenCount sent with
  | nil => simp [putString]
  | cons c s ih =>
      rw [putString, streamPutChar_eq hwrite]
      change putString write s _ _ = _
      rw [ih, List.append_assoc, List.length_cons]
      push_cast
      rw [add_assoc, add_comm (1 : ℤ)]
      rfl

theorem streamPutString_emits (s : List Byte) :
    Emits (streamPutString write (some s)) s := by
  intro sent
  rw [streamPutString, Option.getD_some, putString_eq hwrite, zero_add]

theorem putPadding_eq (padchar : Byte) (n : ℕ) (writtenCount : ℤ)
    (sent : List Byte) :
    putPadding write padchar n writtenCount sent =
      .ok (writtenCount + n, sent ++ List.replicate n padchar) := by
  induction n generalizing writtenCount sent with
  | zero => simp [putPadding]
  | succ n ih =>
      rw [putPadding, streamPutChar_eq hwrite]
      change putPadding write padchar n _ _ = _
      rw [ih, List.append_assoc, List.replicate_succ]
      push_cast
      rw [add_assoc, add_comm (1 : ℤ)]
      rfl

theorem printLoop_eq (base : Base) (digitChar : ℕ → Byte) (i k : ℕ)
    (writtenCount : ℤ) (sent : List Byte) :
    printLoop write base digitChar i (base.radix ^ k) writtenCount sent =
      .ok (writtenCount + (k + 1 : ℕ),
        sent ++ (lowDigits base.radix (k + 1) i).map digitChar) := by
  have hradix := base.one_lt_radix
  induction k generalizing writtenCount sent with
  | zero =>
      rw [pow_zero, printLoop, if_neg one_ne_zero, streamPutChar_eq hwrite]
      change printLoop write base digitChar i (1 / base.radix) _ _ = _
      rw [Nat.div_eq_of_lt hradix, printLoop, if_pos rfl]
      simp [lowDigits]
  | succ k ih =>
      have hpos : base.radix ^ (k + 1) ≠ 0 :=
        (Nat.pow_pos (by omega)).ne'
      rw [printLoop, if_neg hpos, streamPutChar_eq hwrite]
      change printLoop write base digitChar i
        (base.radix ^ (k + 1) / base.radix) _ _ = _
      rw [pow_succ_div, ih, lowDigits, List.map_cons, List.append_assoc]
      push_cast
      rw [add_assoc, add_comm (1 : ℤ)]
      rfl

theorem printNumber_emits (base : Base) (digitChar : ℕ → Byte) (i : BitVec 64) :
    Emits (printNumber write base digitChar i)
      (numberText base digitChar i.toNat) := by
  intro sent
  rw [printNumber, divisorLoop_wrap, printLoop_eq hwrite, zero_add,
    numberText_length]
  rfl

theorem printDecSigned_emits (i : BitVec 64) :
    Emits (printDecSigned write i) (signedText i) := by
  intro sent
  unfold printDecSigned signedText
  split
  · rw [streamPutChar_eq hwrite]
    change (printNumber write .dec decChar (-i) (sent ++ [minus]) >>= _) = _
    rw [printNumber_emits hwrite, List.append_assoc, List.length_cons,
      Nat.cast_succ, add_comm _ (1 : ℤ)]
    rfl
  · exact printNumber_emits hwrite .dec decChar i sent

end Print

/-! ## Conversions -/

inductive Flag where
  | alternate
  | zero
deriving DecidableEq, Repr

def Flag.char : Flag → Byte
  | alternate => 0x23
  | zero => 0x30

inductive Kind where
  | d
  | u
  | x
  | upperX
deriving DecidableEq, Repr

namespace Kind

def char : Kind → Byte
  | d => 0x64
  | u => 0x75
  | x => 0x78
  | upperX => 0x58

def base : Kind → Base
  | d | u => .dec
  | x | upperX => .hex

def digitChar : Kind → ℕ → Byte
  | d | u => decChar
  | x => hexChar false
  | upperX => hexChar true

end Kind

namespace Lenmod

/-- The length modifier as it is written; none leads to `ptrdiff`. -/
def text : Lenmod → List Byte
  | int | ptrdiff => []
  | char => [0x68, 0x68]
  | short => [0x68]
  | long => [0x6c]
  | longLong => [0x6c, 0x6c]
  | intmax => [0x6a]
  | size => [0x7a]

def bits : Lenmod → ℕ
  | longLong | intmax => 64
  | _ => 32

end Lenmod

/-- A conversion of a number.  A width of zero is none. -/
structure Conversion where
  flags : List Flag
  width : ℕ
  lenmod : Lenmod
  kind : Kind
  spelled : lenmod ≠ .ptrdiff

namespace Conversion

def widthText (conv : Conversion) : List Byte :=
  if conv.width = 0 then [] else (digits 10 conv.width).map decChar

def text (conv : Conversion) : List Byte :=
  0x25 :: (conv.flags.map Flag.char ++ conv.widthText ++ conv.lenmod.text ++
    [conv.kind.char])

def padchar (conv : Conversion) : Byte :=
  if .zero ∈ conv.flags then 0x30 else 0x20

/-- The prefix of the alternate form. -/
def numberPrefix (conv : Conversion) : List Byte :=
  if .alternate ∈ conv.flags then
    match conv.kind with
    | .d | .u => []
    | .x => hexPrefix false
    | .upperX => hexPrefix true
  else []

/-- The words of an argument on the stack. -/
def words (conv : Conversion) (arg : BitVec conv.lenmod.bits) : List Word :=
  if conv.lenmod.bits = 64 then
    [arg.setWidth 32, (arg >>> 32).setWidth 32]
  else [arg.setWidth 32]

/-- The number which an argument stands for. -/
def value (conv : Conversion) (arg : BitVec conv.lenmod.bits) : ℤ :=
  if conv.kind = .d then arg.toInt else arg.toNat

/-- The canonical representation of a number. -/
def numeral (conv : Conversion) (v : ℤ) : List Byte :=
  (if v < 0 then [minus] else []) ++
    (digits conv.kind.base.radix v.natAbs).map conv.kind.digitChar

/-- What the conversion is to emit. -/
def expected (conv : Conversion) (arg : BitVec conv.lenmod.bits) :
    List Byte :=
  let numeral := conv.numeral (conv.value arg)
  let n := conv.numberPrefix.length + numeral.length
  conv.numberPrefix ++ List.replicate (conv.width - n) conv.padchar ++ numeral

/-- The digits of the number are those which a 32-bit divisor leads to. -/
def Fits (base : Base) (magnitude : ℕ) : Prop :=
  magnitude < 4294967296 ∨
    base = .dec ∧ 1000000000 ≤ magnitude % 4294967296 ∧
      magnitude < 10000000000

/-- When the conversion emits what is expected. -/
def Exact (conv : Conversion) (arg : BitVec conv.lenmod.bits) : Prop :=
  conv.width < 4294967296 ∧
    ¬(conv.kind = .d ∧ conv.lenmod = .size ∧ conv.value arg < 0) ∧
    Fits conv.kind.base (conv.value arg).natAbs

/-- What the format says, as the code reads it. -/
def spec (conv : Conversion) : Spec where
  alternateForm := .alternate ∈ conv.flags
  minwidthPresent := conv.width ≠ 0
  padchar := conv.padchar
  lenmod := conv.lenmod
  minwidth := wrap conv.width

/-- The argument as the code reads it. -/
def read (conv : Conversion) (arg : BitVec conv.lenmod.bits) : BitVec 64 :=
  if conv.kind = .d ∧ conv.lenmod ≠ .size then arg.signExtend 64
  else arg.setWidth 64

end Conversion

/-! ## Reading a format -/

/-- The effect of the flags of a format. -/
def Spec.withFlags (spec : Spec) : List Flag → Spec
  | [] => spec
  | .alternate :: flags =>
      ({ spec with alternateForm := true } : Spec).withFlags flags
  | .zero :: flags => ({ spec with padchar := 0x30 } : Spec).withFlags flags

theorem fmtflag_flags (flags : List Flag) (fmt : List Byte) (spec : Spec) :
    fmtflag (flags.map Flag.char ++ fmt) spec =
      fmtflag fmt (spec.withFlags flags) := by
  induction flags generalizing spec with
  | nil => rfl
  | cons flag flags ih =>
      cases flag with
      | alternate => exact ih _
      | zero => exact ih _

theorem withFlags_eq (flags : List Flag) (spec : Spec) :
    spec.withFlags flags = { spec with
      alternateForm := spec.alternateForm || .alternate ∈ flags
      padchar := if .zero ∈ flags then 0x30 else spec.padchar } := by
  induction flags generalizing spec with
  | nil => simp [Spec.withFlags]
  | cons flag flags ih =>
      cases flag with
      | alternate => simp [Spec.withFlags, ih]
      | zero => simp [Spec.withFlags, ih]

theorem fmtflag_stop {c : Byte} {fmt : List Byte} (spec : Spec)
    (hhash : c ≠ 0x23) (hzero : c ≠ 0x30) :
    fmtflag (c :: fmt) spec = (spec, c :: fmt) := by
  rw [fmtflag, if_neg hhash, if_neg hzero]

theorem decChar_toNat {d : ℕ} (hd : d < 10) :
    (decChar d).toNat = 0x30 + d := by
  rw [decChar, BitVec.toNat_ofNat]
  omega

theorem fmtminwidth_digits {ds : List ℕ} (hds : ∀ d ∈ ds, d < 10)
    (fmt : List Byte) (spec : Spec) (hpresent : spec.minwidthPresent = true) :
    fmtminwidth (ds.map decChar ++ fmt) spec = fmtminwidth fmt { spec with
      minwidth := ds.foldl (fun acc d => wrap (acc * 10 + d))
        spec.minwidth } := by
  induction ds generalizing spec with
  | nil => rfl
  | cons d ds ih =>
      have hd := decChar_toNat (hds d List.mem_cons_self)
      have hlt := hds d List.mem_cons_self
      have hrange : 0x30 ≤ (decChar d).toNat ∧ (decChar d).toNat ≤ 0x39 := by
        omega
      rw [List.map_cons, List.cons_append, fmtminwidth, if_pos hrange,
        ih (fun e he => hds e (List.mem_cons_of_mem d he)) _ rfl, hd,
        Nat.add_sub_cancel_left]
      simp only [hpresent, List.foldl_cons]

theorem fmtminwidth_stop {c : Byte} {fmt : List Byte} (spec : Spec)
    (hc : ¬(0x30 ≤ c.toNat ∧ c.toNat ≤ 0x39)) :
    fmtminwidth (c :: fmt) spec = (spec, c :: fmt) := by
  rw [fmtminwidth, if_neg hc]

theorem foldl_wrap (ds : List ℕ) (acc : ℕ) :
    ds.foldl (fun acc d => wrap (acc * 10 + d)) (wrap acc) =
      wrap (ds.foldl (fun acc d => acc * 10 + d) acc) := by
  induction ds generalizing acc with
  | nil => rfl
  | cons d ds ih =>
      have hstep : wrap (wrap acc * 10 + d) = wrap (acc * 10 + d) := by
        unfold wrap
        omega
      rw [List.foldl_cons, List.foldl_cons, hstep, ih]

theorem fmtlenmod_text {lenmod : Lenmod} (hlenmod : lenmod ≠ .ptrdiff)
    (kind : Kind) (rest : List Byte) {spec : Spec}
    (hspec : spec.lenmod = .int) :
    fmtlenmod (lenmod.text ++ kind.char :: rest) spec =
      ({ spec with lenmod }, kind.char :: rest) := by
  obtain ⟨alternateForm, minwidthPresent, padchar, _, minwidth⟩ := spec
  subst hspec
  cases lenmod with
  | ptrdiff => exact absurd rfl hlenmod
  | int => cases kind <;> rfl
  | char => cases kind <;> rfl
  | short => cases kind <;> rfl
  | long => cases kind <;> rfl
  | longLong => cases kind <;> rfl
  | intmax => cases kind <;> rfl
  | size => cases kind <;> rfl

theorem lenmod_text_head (lenmod : Lenmod) (kind : Kind) (rest : List Byte) :
    ∃ c fmt, lenmod.text ++ kind.char :: rest = c :: fmt ∧ 0x39 < c.toNat := by
  cases lenmod <;> cases kind <;> exact ⟨_, _, rfl, by decide⟩

theorem widthText_cases (conv : Conversion) :
    (conv.width = 0 ∧ conv.widthText = []) ∨
      ∃ lead ds, conv.width ≠ 0 ∧ digits 10 conv.width = lead :: ds ∧
        conv.widthText = decChar lead :: ds.map decChar ∧ lead ≠ 0 ∧
        ∀ d ∈ lead :: ds, d < 10 := by
  by_cases hwidth : conv.width = 0
  · exact .inl ⟨hwidth, if_pos hwidth⟩
  · obtain ⟨lead, ds, hdigits, hlead, hlt⟩ :=
      digits_eq_cons (b := 10) (by decide) hwidth
    refine .inr ⟨lead, ds, hwidth, hdigits, ?_, hlead, hlt⟩
    rw [Conversion.widthText, if_neg hwidth, hdigits, List.map_cons]

theorem fmtflag_width (conv : Conversion) {c : Byte} {fmt : List Byte}
    (hc : 0x39 < c.toNat) (spec : Spec) :
    fmtflag (conv.widthText ++ c :: fmt) spec =
      (spec, conv.widthText ++ c :: fmt) := by
  have hflags : (0x23 : Byte).toNat = 0x23 ∧ (0x30 : Byte).toNat = 0x30 :=
    ⟨rfl, rfl⟩
  rcases widthText_cases conv with ⟨-, htext⟩ |
    ⟨lead, ds, -, -, htext, hlead, hlt⟩
  · rw [htext]
    refine fmtflag_stop spec ?_ ?_
    all_goals
      rintro rfl
      omega
  · have hchar := decChar_toNat (hlt lead List.mem_cons_self)
    rw [htext]
    refine fmtflag_stop spec ?_ ?_
    all_goals
      intro h
      rw [h] at hchar
      omega

theorem fmtminwidth_width (conv : Conversion) {c : Byte} {fmt : List Byte}
    (hc : 0x39 < c.toNat) {spec : Spec} (habsent : spec.minwidthPresent = false)
    (hnone : spec.minwidth = 0) :
    fmtminwidth (conv.widthText ++ c :: fmt) spec =
      ({ spec with
        minwidthPresent := conv.width ≠ 0
        minwidth := wrap conv.width }, c :: fmt) := by
  have hstop : ¬(0x30 ≤ c.toNat ∧ c.toNat ≤ 0x39) := by omega
  rcases widthText_cases conv with ⟨hwidth, htext⟩ |
    ⟨lead, ds, hwidth, hdigits, htext, hlead, hlt⟩
  · rw [htext, List.nil_append, fmtminwidth_stop _ hstop]
    simp only [hwidth, ne_eq, not_true_eq_false, decide_false, ← habsent]
    rw [wrap, Nat.zero_mod, ← hnone]
  · have hleadlt := hlt lead List.mem_cons_self
    have hchar := decChar_toNat hleadlt
    have hrange : 0x30 ≤ (decChar lead).toNat ∧
        (decChar lead).toNat ≤ 0x39 := by omega
    have hvalue := foldl_wrap (lead :: ds) 0
    rw [← hdigits, foldl_digits (by decide), hdigits, List.foldl_cons] at hvalue
    have hfirst : wrap (spec.minwidth * 10 + lead) =
        wrap (wrap 0 * 10 + lead) := by
      rw [hnone]
      rfl
    rw [htext, List.cons_append, fmtminwidth, if_pos hrange, hchar,
      Nat.add_sub_cancel_left,
      fmtminwidth_digits (fun d hd => hlt d (List.mem_cons_of_mem lead hd))
        _ _ rfl, fmtminwidth_stop _ hstop]
    simp only [hfirst, hvalue, hwidth, ne_eq, not_false_eq_true, decide_true]

theorem readSpec_text (conv : Conversion) (rest : List Byte) :
    readSpec (conv.flags.map Flag.char ++ conv.widthText ++ conv.lenmod.text ++
      [conv.kind.char] ++ rest) = (conv.spec, conv.kind.char :: rest) := by
  obtain ⟨c, fmt, hnext, hc⟩ :=
    lenmod_text_head conv.lenmod conv.kind rest
  simp only [List.append_assoc, List.singleton_append, readSpec,
    fmtflag_flags, hnext, fmtflag_width conv hc]
  rw [fmtminwidth_width conv hc (by rw [withFlags_eq]; rfl)
    (by rw [withFlags_eq]; rfl), ← hnext]
  simp only
  rw [fmtlenmod_text conv.spelled _ _ (by rw [withFlags_eq]; rfl),
    withFlags_eq]
  simp [Conversion.spec, Conversion.padchar, Spec.initial]

/-! ## Emission -/

namespace Conversion

/-- The prefix, the padding and the text of a number. -/
def emission (conv : Conversion) (text : List Byte) : List Byte :=
  conv.numberPrefix ++ List.replicate
      (wrap conv.width - (conv.numberPrefix.length + text.length))
      conv.padchar ++ text

/-- The text which the code emits for the number it reads. -/
def readText (conv : Conversion) (arg : BitVec conv.lenmod.bits) :
    List Byte :=
  if conv.kind = .d then signedText (conv.read arg)
  else numberText conv.kind.base conv.kind.digitChar (conv.read arg).toNat

/-- What the code emits for an argument. -/
def emitted (conv : Conversion) (arg : BitVec conv.lenmod.bits) : List Byte :=
  conv.emission (conv.readText arg)

end Conversion

section Emit

variable {write : List Byte → Byte → ℤ} (hwrite : Takes write)
  (conv : Conversion)
include hwrite

theorem pad_emits (measureresult : ℕ) :
    Emits (pad write conv.spec measureresult)
      (List.replicate (wrap conv.width - measureresult) conv.padchar) := by
  intro sent
  unfold pad
  by_cases hwidth : conv.width = 0
  · simp [Conversion.spec, hwidth, wrap]
  · have hpresent : conv.spec.minwidthPresent = true :=
      decide_eq_true hwidth
    rw [if_pos hpresent, putPadding_eq hwrite, zero_add,
      List.length_replicate]
    rfl

end Emit

theorem halves_join (arg : BitVec 64) :
    (arg >>> 32).setWidth 32 ++ arg.setWidth 32 = arg := by
  apply BitVec.eq_of_getLsbD_eq
  intro i hi
  rw [BitVec.getLsbD_append]
  by_cases hlow : i < 32
  · simp [hlow]
  · have hpos : 32 + (i - 32) = i := by omega
    have hword : i - 32 < 32 := by omega
    simp [hlow, hpos, hword]

theorem vaWide_words (arg : BitVec 64) (ap : List Word) :
    vaWide ([arg.setWidth 32, (arg >>> 32).setWidth 32] ++ ap) =
      .ok (arg, ap) := by
  change Except.ok ((arg >>> 32).setWidth 32 ++ arg.setWidth 32, ap) = _
  rw [halves_join]

theorem words_signed (conv : Conversion) (arg : BitVec conv.lenmod.bits)
    (ap : List Word) (hkind : conv.kind = .d) :
    signedArg conv.lenmod (conv.words arg ++ ap) =
      .ok (conv.read arg, ap) := by
  by_cases hsize : conv.lenmod = .size
  · have hread : conv.read arg = arg.setWidth 64 :=
      if_neg fun h => h.2 hsize
    rw [hread]
    obtain ⟨flags, width, lenmod, kind, hspelled⟩ := conv
    subst hsize
    change Word at arg
    change Except.ok ((arg.setWidth 32).setWidth 64, ap) = _
    rw [BitVec.setWidth_eq arg]
    rfl
  · have hread : conv.read arg = arg.signExtend 64 :=
      if_pos ⟨hkind, hsize⟩
    rw [hread]
    obtain ⟨flags, width, lenmod, kind, hspelled⟩ := conv
    cases lenmod with
    | ptrdiff => exact absurd rfl hspelled
    | size => exact absurd rfl hsize
    | longLong | intmax =>
        change BitVec 64 at arg
        refine (vaWide_words arg ap).trans ?_
        exact congrArg (fun a => Except.ok (a, ap))
          (BitVec.signExtend_eq arg).symm
    | int | char | short | long =>
        change Word at arg
        change Except.ok ((arg.setWidth 32).signExtend 64, ap) = _
        rw [BitVec.setWidth_eq arg]
        rfl

theorem words_unsigned (conv : Conversion) (arg : BitVec conv.lenmod.bits)
    (ap : List Word) (hkind : conv.kind ≠ .d) :
    unsignedArg conv.lenmod (conv.words arg ++ ap) =
      .ok (conv.read arg, ap) := by
  have hread : conv.read arg = arg.setWidth 64 :=
    if_neg fun h => hkind h.1
  rw [hread]
  obtain ⟨flags, width, lenmod, kind, hspelled⟩ := conv
  cases lenmod with
  | ptrdiff => exact absurd rfl hspelled
  | longLong | intmax =>
      change BitVec 64 at arg
      refine (vaWide_words arg ap).trans ?_
      exact congrArg (fun a => Except.ok (a, ap)) (BitVec.setWidth_eq arg).symm
  | size | int | char | short | long =>
      change Word at arg
      change Except.ok ((arg.setWidth 32).setWidth 64, ap) = _
      rw [BitVec.setWidth_eq arg]
      rfl

/-! ## Code of a conversion -/

theorem Conversion.emitted_of_numberPrefix_nil (conv : Conversion)
    (arg : BitVec conv.lenmod.bits) (hlead : conv.numberPrefix = []) :
    conv.emitted arg = List.replicate
      (wrap conv.width - (conv.readText arg).length) conv.padchar ++
        conv.readText arg := by
  rw [Conversion.emitted, Conversion.emission, hlead, List.nil_append,
    List.length_nil, zero_add]

section Emit

variable {write : List Byte → Byte → ℤ} (hwrite : Takes write)
  (memory : Word → Option (List Byte)) (conv : Conversion)
  (arg : BitVec conv.lenmod.bits) (ap : List Word) (sent : List Byte)
include hwrite

theorem formatD_eq (hkind : conv.kind = .d) :
    formatD write conv.spec (conv.words arg ++ ap) sent =
      .ok (((conv.emitted arg).length : ℤ), ap,
        sent ++ conv.emitted arg) := by
  have hlead : conv.numberPrefix = [] := by
    simp only [Conversion.numberPrefix, hkind, ite_self]
  have hsigned : signedArg conv.spec.lenmod (conv.words arg ++ ap) =
      .ok (conv.read arg, ap) := words_signed conv arg ap hkind
  have hemitted := conv.emitted_of_numberPrefix_nil arg hlead
  rw [Conversion.readText, if_pos hkind] at hemitted
  rw [formatD, hsigned]
  change (pad write conv.spec _ sent >>= _) = _
  rw [pad_emits hwrite, measureDecSigned_eq]
  change (printDecSigned write _ _ >>= _) = _
  rw [printDecSigned_emits hwrite, hemitted, List.length_append,
    Nat.cast_add, List.append_assoc]
  rfl

theorem formatU_eq (hkind : conv.kind = .u) :
    formatU write conv.spec (conv.words arg ++ ap) sent =
      .ok (((conv.emitted arg).length : ℤ), ap,
        sent ++ conv.emitted arg) := by
  have hlead : conv.numberPrefix = [] := by
    simp only [Conversion.numberPrefix, hkind, ite_self]
  have hunsigned : unsignedArg conv.spec.lenmod (conv.words arg ++ ap) =
      .ok (conv.read arg, ap) :=
    words_unsigned conv arg ap (by rw [hkind]; decide)
  have htext : conv.readText arg =
      numberText .dec decChar (conv.read arg).toNat := by
    simp only [Conversion.readText, hkind, Kind.base, Kind.digitChar]
    rfl
  have hemitted := conv.emitted_of_numberPrefix_nil arg hlead
  rw [formatU, hunsigned]
  change (pad write conv.spec _ sent >>= _) = _
  rw [pad_emits hwrite, measureDecUnsigned, measure_eq,
    ← numberText_length .dec decChar, ← htext]
  change (printNumber write .dec decChar _ _ >>= _) = _
  rw [printNumber_emits hwrite, ← htext, hemitted, List.length_append,
    Nat.cast_add, List.append_assoc]
  rfl

theorem formatX_eq (isuppercase : Bool)
    (hkind : conv.kind = if isuppercase then .upperX else .x) :
    formatX write isuppercase conv.spec (conv.words arg ++ ap) sent =
      .ok (((conv.emitted arg).length : ℤ), ap,
        sent ++ conv.emitted arg) := by
  have hunsigned : unsignedArg conv.spec.lenmod (conv.words arg ++ ap) =
      .ok (conv.read arg, ap) := by
    refine words_unsigned conv arg ap ?_
    rw [hkind]
    cases isuppercase <;> decide
  have htext : conv.readText arg =
      numberText .hex (hexChar isuppercase) (conv.read arg).toNat := by
    cases isuppercase <;>
      simp [Conversion.readText, hkind, Kind.base, Kind.digitChar]
  have hmeasure : measurehex (conv.read arg) = (conv.readText arg).length := by
    rw [htext, measurehex, measure_eq, numberText_length]
  by_cases halternate : .alternate ∈ conv.flags
  · have hlead : conv.numberPrefix = hexPrefix isuppercase := by
      cases isuppercase <;>
        simp [Conversion.numberPrefix, halternate, hkind]
    have hflag : conv.spec.alternateForm = true := decide_eq_true halternate
    have hwidth : measurehex (conv.read arg) + 2 =
        conv.numberPrefix.length + (conv.readText arg).length := by
      rw [hmeasure, hlead, add_comm]
      rfl
    rw [formatX, hunsigned]
    change (if conv.spec.alternateForm = true then
      (streamPutString write (some (hexPrefix isuppercase)) sent >>= _ :
        Except Stop (ℤ × List Word × List Byte)) else _) = _
    rw [if_pos hflag, streamPutString_emits hwrite]
    change (pad write conv.spec (if conv.spec.alternateForm then
      measurehex (conv.read arg) + 2 else _) _ >>= _) = _
    rw [if_pos hflag, hwidth, pad_emits hwrite]
    change (printNumber write .hex (hexChar isuppercase) _ _ >>= _) = _
    rw [printNumber_emits hwrite, ← htext, ← hlead]
    change Except.ok _ = Except.ok _
    simp only [Conversion.emitted, Conversion.emission, List.length_append,
      List.append_assoc, Nat.cast_add, add_assoc]
  · have hlead : conv.numberPrefix = [] := if_neg halternate
    have hflag : ¬conv.spec.alternateForm = true :=
      fun h => halternate (of_decide_eq_true h)
    have hemitted := conv.emitted_of_numberPrefix_nil arg hlead
    rw [formatX, hunsigned]
    change (if conv.spec.alternateForm = true then
      (_ : Except Stop (ℤ × List Word × List Byte)) else _) = _
    rw [if_neg hflag]
    change (pad write conv.spec (if conv.spec.alternateForm then _ else
      measurehex (conv.read arg)) _ >>= _) = _
    rw [if_neg hflag, hmeasure, pad_emits hwrite]
    change (printNumber write .hex (hexChar isuppercase) _ _ >>= _) = _
    rw [printNumber_emits hwrite, ← htext]
    change Except.ok _ = Except.ok _
    simp only [hemitted, List.length_append, List.append_assoc, Nat.cast_add,
      zero_add]

/-- The code of a conversion at any place of a format: what it emits, and
that the rest of the format goes on with the next argument. -/
theorem percentorchar_text (rest : List Byte) (writtenCount : ℤ) :
    percentorchar write memory (conv.text ++ rest) (conv.words arg ++ ap)
        writtenCount sent =
      percentorchar write memory rest ap
        (writtenCount + (conv.emitted arg).length)
        (sent ++ conv.emitted arg) := by
  have hformat : doformat write memory conv.spec conv.kind.char
      (conv.words arg ++ ap) sent =
        .ok (((conv.emitted arg).length : ℤ), ap,
          sent ++ conv.emitted arg) := by
    cases hkind : conv.kind with
    | d => exact formatD_eq hwrite conv arg ap sent hkind
    | u => exact formatU_eq hwrite conv arg ap sent hkind
    | x => exact formatX_eq hwrite conv arg ap sent false hkind
    | upperX => exact formatX_eq hwrite conv arg ap sent true hkind
  have hread := readSpec_text conv rest
  rw [Conversion.text, List.cons_append, percentorchar, if_pos rfl]
  split
  · next hnil =>
    rw [hread] at hnil
    cases hnil
  · next conversion others hcons =>
    rw [hread] at hcons
    cases hcons
    rw [hread, hformat]
    rfl

end Emit

end Printf
end Yjkos
