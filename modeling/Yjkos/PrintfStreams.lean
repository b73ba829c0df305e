import Yjkos.Printf

/-!
# Formatting does not depend on the stream

`stream_vprintf` looks at nothing of its stream but whether a byte was taken.
So a format and its arguments stand for one text, and printing them is putting
that text, byte by byte, on whatever stream there is: up to its end, up to the
first byte which is refused, or up to an argument which is missing.
-/

namespace Yjkos
namespace Printf

/-- The stream takes a single byte or refuses it. -/
def Single (write : List Byte → Byte → ℤ) : Prop :=
  ∀ sent c, write sent c = 1 ∨ write sent c ≤ 0

/-- How a call goes on behind its text. -/
def ends {α : Type} : Option Fault → α → Except Stop α
  | none, a => .ok a
  | some fault, _ => .error (.fault fault)

/-! ## Strings -/

section Strings

variable {write : List Byte → Byte → ℤ}

theorem streamPutChar_bind {α : Type} (c : Byte) (sent : List Byte)
    (f : List Byte → Except Stop α) :
    (streamPutChar write c sent >>= fun p => f p.2) =
      if write sent c < 0 then .error (.returns (write sent c) sent)
      else if write sent c = 0 then .error (.fault (.assertion "result != 0"))
      else f (sent ++ [c]) := by
  unfold streamPutChar
  dsimp only
  by_cases hneg : write sent c < 0
  · rw [if_pos hneg, if_pos hneg]
    rfl
  · rw [if_neg hneg, if_neg hneg]
    by_cases hzero : write sent c = 0
    · rw [if_pos hzero, if_pos hzero]
      rfl
    · rw [if_neg hzero, if_neg hzero]
      rfl

theorem putString_cons (c : Byte) (s : List Byte) (count : ℤ)
    (sent : List Byte) :
    putString write (c :: s) count sent =
      if write sent c < 0 then .error (.returns (write sent c) sent)
      else if write sent c = 0 then .error (.fault (.assertion "result != 0"))
      else putString write s (count + 1) (sent ++ [c]) :=
  streamPutChar_bind c sent fun sent => putString write s (count + 1) sent

theorem putString_append (s t : List Byte) (count : ℤ) (sent : List Byte) :
    putString write (s ++ t) count sent =
      (putString write s count sent >>= fun p => putString write t p.1 p.2) := by
  induction s generalizing count sent with
  | nil => rfl
  | cons c s ih =>
      rw [List.cons_append, putString_cons, putString_cons]
      split
      · rfl
      · split
        · rfl
        · exact ih (count + 1) (sent ++ [c])

/-- The count a string starts with is added to its length. -/
theorem putString_count (s : List Byte) (count : ℤ) (sent : List Byte) :
    putString write s count sent =
      (putString write s 0 sent >>= fun p => .ok (count + p.1, p.2)) := by
  induction s generalizing count sent with
  | nil =>
      rw [putString, putString, ok_bind, add_zero]
  | cons c s ih =>
      rw [putString_cons, putString_cons]
      split
      · rfl
      · split
        · rfl
        · rw [ih, ih (0 + 1), bind_assoc]
          simp only [ok_bind, zero_add, add_assoc]

theorem putString_seq (s t : List Byte) (sent : List Byte) :
    (putString write s 0 sent >>= fun p => putString write t 0 p.2 >>=
        fun q => .ok (p.1 + q.1, q.2)) =
      putString write (s ++ t) 0 sent := by
  rw [putString_append]
  congr 1
  funext p
  exact (putString_count t p.1 p.2).symm

theorem Single.putPadding_eq (hwrite : Single write) (padchar : Byte) (n : ℕ)
    (count : ℤ) (sent : List Byte) :
    putPadding write padchar n count sent =
      putString write (List.replicate n padchar) count sent := by
  induction n generalizing count sent with
  | zero => rfl
  | succ n ih =>
      rw [List.replicate_succ, putString_cons, putPadding, streamPutChar]
      by_cases hneg : write sent padchar < 0
      · simp only [hneg, if_true, error_bind]
      · by_cases hzero : write sent padchar = 0
        · simp only [hzero, lt_irrefl, if_false, if_true, error_bind]
        · have hone : write sent padchar = 1 := by
            have := hwrite sent padchar
            omega
          rw [hone]
          exact ih (count + 1) (sent ++ [padchar])

/-- The digits from a divisor on. -/
def digitsFrom (base : Base) (digitChar : ℕ → Byte) (i divisor : ℕ) :
    List Byte :=
  if divisor = 0 then []
  else digitChar (i / divisor % base.radix) ::
    digitsFrom base digitChar i (divisor / base.radix)
termination_by divisor
decreasing_by
  next h => exact Nat.div_lt_self (Nat.pos_of_ne_zero h) base.one_lt_radix

theorem printLoop_eq_putString (base : Base) (digitChar : ℕ → Byte)
    (i divisor : ℕ) (count : ℤ) (sent : List Byte) :
    printLoop write base digitChar i divisor count sent =
      putString write (digitsFrom base digitChar i divisor) count sent := by
  induction divisor using Nat.strong_induction_on generalizing count sent with
  | _ divisor ih =>
      rw [printLoop, digitsFrom]
      by_cases hzero : divisor = 0
      · rw [if_pos hzero, if_pos hzero]
        rfl
      · rw [if_neg hzero, if_neg hzero, putString]
        congr 1
        funext p
        exact ih _ (Nat.div_lt_self (Nat.pos_of_ne_zero hzero)
          base.one_lt_radix) _ _

end Strings

/-! ## Conversions -/

/-- A call which puts one text on any stream. -/
def Prints (put : (List Byte → Byte → ℤ) → List Byte →
    Except Stop (ℤ × List Byte)) : Prop :=
  ∃ text, ∀ write, Single write → ∀ sent,
    put write sent = putString write text 0 sent

/-- A conversion takes its argument before it prints anything. -/
def Converts (put : (List Byte → Byte → ℤ) → List Byte →
    Except Stop (ℤ × List Word × List Byte)) : Prop :=
  (∃ fault, ∀ write sent, put write sent = .error (.fault fault)) ∨
  ∃ text ap, ∀ write, Single write → ∀ sent,
    put write sent = (putString write text 0 sent >>= fun p =>
      .ok (p.1, ap, p.2))

theorem prints_streamPutString (s : Option (List Byte)) :
    Prints fun write => streamPutString write s :=
  ⟨s.getD nullText, fun _ _ _ => rfl⟩

theorem prints_nothing : Prints fun _ sent => .ok (0, sent) :=
  ⟨[], fun _ _ _ => rfl⟩

theorem prints_pad (spec : Spec) (measureresult : ℕ) :
    Prints fun write => pad write spec measureresult := by
  unfold pad
  split
  · exact ⟨_, fun write hwrite sent => hwrite.putPadding_eq _ _ 0 sent⟩
  · exact prints_nothing

theorem prints_printNumber (base : Base) (digitChar : ℕ → Byte)
    (i : BitVec 64) :
    Prints fun write => printNumber write base digitChar i :=
  ⟨_, fun _ _ sent => printLoop_eq_putString base digitChar i.toNat _ 0 sent⟩

theorem prints_printDecSigned (i : BitVec 64) :
    Prints fun write => printDecSigned write i := by
  obtain ⟨text, htext⟩ := prints_printNumber .dec decChar (-i)
  unfold printDecSigned printDecUnsigned
  split
  · refine ⟨minus :: text, fun write hwrite sent => ?_⟩
    have hnumber := htext write hwrite
    dsimp only at hnumber ⊢
    rw [putString]
    congr 1
    funext p
    dsimp only
    rw [hnumber, putString_count text (0 + 1)]
    rfl
  · exact prints_printNumber .dec decChar i

section Sequences

variable {put next : (List Byte → Byte → ℤ) → List Byte →
  Except Stop (ℤ × List Byte)}

theorem Prints.seq (hput : Prints put) (hnext : Prints next) :
    Prints fun write sent => put write sent >>= fun p =>
      next write p.2 >>= fun q => .ok (p.1 + q.1, q.2) := by
  obtain ⟨s, hs⟩ := hput
  obtain ⟨t, ht⟩ := hnext
  refine ⟨s ++ t, fun write hwrite sent => ?_⟩
  dsimp only
  rw [← putString_seq, hs write hwrite]
  congr 1
  funext p
  rw [ht write hwrite]

theorem Prints.converts (hput : Prints put) (ap : List Word) :
    Converts fun write sent => put write sent >>= fun p =>
      .ok (p.1, ap, p.2) := by
  obtain ⟨text, htext⟩ := hput
  right
  refine ⟨text, ap, fun write hwrite sent => ?_⟩
  dsimp only
  rw [htext write hwrite]

end Sequences

theorem vaWord_cases (ap : List Word) :
    (∃ fault, vaWord ap = .error (.fault fault)) ∨
      ∃ word rest, vaWord ap = .ok (word, rest) := by
  cases ap with
  | nil => exact Or.inl ⟨_, rfl⟩
  | cons word rest => exact Or.inr ⟨word, rest, rfl⟩

theorem vaWide_cases (ap : List Word) :
    (∃ fault, vaWide ap = .error (.fault fault)) ∨
      ∃ wide rest, vaWide ap = .ok (wide, rest) := by
  match ap with
  | [] => exact Or.inl ⟨_, rfl⟩
  | [_] => exact Or.inl ⟨_, rfl⟩
  | low :: high :: rest => exact Or.inr ⟨_, rest, rfl⟩

theorem signedArg_cases (lenmod : Lenmod) (ap : List Word) :
    (∃ fault, signedArg lenmod ap = .error (.fault fault)) ∨
      ∃ val rest, signedArg lenmod ap = .ok (val, rest) := by
  have hword := vaWord_cases ap
  have hwide := vaWide_cases ap
  cases lenmod with
  | longLong => exact hwide
  | intmax => exact hwide
  | _ =>
      rcases hword with ⟨fault, hfault⟩ | ⟨word, rest, hok⟩
      · exact Or.inl ⟨fault, by rw [signedArg, hfault]; rfl⟩
      · exact Or.inr ⟨_, rest, by rw [signedArg, hok]; rfl⟩

theorem unsignedArg_cases (lenmod : Lenmod) (ap : List Word) :
    (∃ fault, unsignedArg lenmod ap = .error (.fault fault)) ∨
      ∃ val rest, unsignedArg lenmod ap = .ok (val, rest) := by
  have hword := vaWord_cases ap
  have hwide := vaWide_cases ap
  cases lenmod with
  | longLong => exact hwide
  | intmax => exact hwide
  | _ =>
      rcases hword with ⟨fault, hfault⟩ | ⟨word, rest, hok⟩
      · exact Or.inl ⟨fault, by rw [unsignedArg, hfault]; rfl⟩
      · exact Or.inr ⟨_, rest, by rw [unsignedArg, hok]; rfl⟩

theorem converts_formatD (spec : Spec) (ap : List Word) :
    Converts fun write => formatD write spec ap := by
  unfold formatD
  rcases signedArg_cases spec.lenmod ap with
    ⟨fault, hfault⟩ | ⟨val, rest, hok⟩
  · left
    exact ⟨fault, fun write sent => by rw [hfault]; rfl⟩
  · have hprints := ((prints_pad spec (measureDecSigned val)).seq
      (prints_printDecSigned val)).converts rest
    rw [hok]
    simpa only [bind_assoc, ok_bind] using hprints

theorem converts_formatU (spec : Spec) (ap : List Word) :
    Converts fun write => formatU write spec ap := by
  unfold formatU
  rcases unsignedArg_cases spec.lenmod ap with
    ⟨fault, hfault⟩ | ⟨val, rest, hok⟩
  · left
    exact ⟨fault, fun write sent => by rw [hfault]; rfl⟩
  · have hprints := ((prints_pad spec (measureDecUnsigned val)).seq
      (prints_printNumber .dec decChar val)).converts rest
    rw [hok]
    simpa only [bind_assoc, ok_bind, printDecUnsigned] using hprints

theorem prints_alternateForm (spec : Spec) (isuppercase : Bool) :
    Prints fun write sent =>
      if spec.alternateForm then
        streamPutString write (some (hexPrefix isuppercase)) sent
      else .ok (0, sent) := by
  by_cases halternate : spec.alternateForm = true
  · simp only [halternate, if_true]
    exact prints_streamPutString _
  · simp only [halternate]
    exact prints_nothing

theorem converts_formatX (isuppercase : Bool) (spec : Spec)
    (ap : List Word) :
    Converts fun write => formatX write isuppercase spec ap := by
  unfold formatX
  rcases unsignedArg_cases spec.lenmod ap with
    ⟨fault, hfault⟩ | ⟨val, rest, hok⟩
  · left
    exact ⟨fault, fun write sent => by rw [hfault]; rfl⟩
  · have hprints := (((prints_alternateForm spec isuppercase).seq
      (prints_pad spec (if spec.alternateForm then measurehex val + 2
        else measurehex val))).seq
      (prints_printNumber .hex (hexChar isuppercase) val)).converts rest
    rw [hok]
    by_cases halternate : spec.alternateForm = true
    · simpa only [bind_assoc, ok_bind, printHex, halternate, if_true]
        using hprints
    · simpa only [bind_assoc, ok_bind, printHex, halternate,
        Bool.false_eq_true, if_false] using hprints

theorem converts_formatP (ap : List Word) :
    Converts fun write => formatP write ap := by
  unfold formatP
  rcases vaWord_cases ap with ⟨fault, hfault⟩ | ⟨word, rest, hok⟩
  · left
    exact ⟨fault, fun write sent => by rw [hfault]; rfl⟩
  · have hprints := ((prints_streamPutString (some (hexPrefix false))).seq
      (prints_printNumber .hex (hexChar false) (word.setWidth 64))).converts
        rest
    rw [hok]
    simpa only [bind_assoc, ok_bind, printHex] using hprints

theorem prints_streamPutChar (c : Byte) :
    Prints fun write sent => streamPutChar write c sent >>= fun p =>
      .ok (1, p.2) :=
  ⟨[c], fun _ _ _ => rfl⟩

theorem Single.streamPutChar_eq {write : List Byte → Byte → ℤ}
    (hwrite : Single write) (c : Byte) (sent : List Byte) :
    streamPutChar write c sent =
      (streamPutChar write c sent >>= fun p => .ok (1, p.2)) := by
  unfold streamPutChar
  dsimp only
  by_cases hneg : write sent c < 0
  · rw [if_pos hneg]
    rfl
  · rw [if_neg hneg]
    by_cases hzero : write sent c = 0
    · rw [if_pos hzero]
      rfl
    · have hone : write sent c = 1 := by
        have := hwrite sent c
        omega
      rw [if_neg hzero, hone]
      rfl

theorem converts_doformat (memory : Word → Option (List Byte)) (spec : Spec)
    (conversion : Byte) (ap : List Word) :
    Converts fun write => doformat write memory spec conversion ap := by
  unfold doformat
  split
  · rcases vaWord_cases ap with ⟨fault, hfault⟩ | ⟨word, rest, hok⟩
    · left
      exact ⟨fault, fun write sent => by rw [hfault]; rfl⟩
    · have hprints :=
        (prints_streamPutChar (word.setWidth 8)).converts rest
      rw [hok]
      simpa only [bind_assoc, ok_bind] using hprints
  · split
    · rcases vaWord_cases ap with ⟨fault, hfault⟩ | ⟨word, rest, hok⟩
      · left
        exact ⟨fault, fun write sent => by rw [hfault]; rfl⟩
      · rw [hok]
        exact (prints_streamPutString (memory word)).converts rest
    · split
      · exact converts_formatD spec ap
      · split
        · exact converts_formatU spec ap
        · split
          · exact converts_formatX _ spec ap
          · split
            · exact converts_formatP ap
            · right
              refine ⟨[conversion], ap, fun write hwrite sent => ?_⟩
              dsimp only
              rw [hwrite.streamPutChar_eq]
              rfl

/-! ## Formats -/

section Formats

variable (memory : Word → Option (List Byte))

/-- A format with its arguments stands for one text, behind which the call
ends normally or at an argument which is not there. -/
theorem percentorchar_prints (fmt : List Byte) (ap : List Word) :
    ∃ text stop, ∀ write, Single write → ∀ count sent,
      percentorchar write memory fmt ap count sent =
        (putString write text count sent >>= ends stop) := by
  induction hlen : fmt.length using Nat.strong_induction_on
    generalizing fmt ap with
  | _ len ih =>
      subst hlen
      cases fmt with
      | nil =>
          refine ⟨[], none, fun write hwrite count sent => ?_⟩
          rw [percentorchar]
          rfl
      | cons c fmt =>
          by_cases hpercent : c = 0x25
          · cases hread : (readSpec fmt).2 with
            | nil =>
                refine ⟨[], none, fun write hwrite count sent => ?_⟩
                rw [percentorchar, if_pos hpercent]
                split
                · rfl
                · next h => rw [hread] at h; cases h
            | cons conversion rest =>
                have hshort : rest.length < (c :: fmt).length := by
                  have hle := readSpec_length fmt
                  rw [hread, List.length_cons] at hle
                  rw [List.length_cons]
                  omega
                have hunfold : ∀ write count sent,
                    percentorchar write memory (c :: fmt) ap count sent =
                      (doformat write memory (readSpec fmt).1 conversion ap
                        sent >>= fun p =>
                        percentorchar write memory rest p.2.1 (count + p.1)
                          p.2.2) := by
                  intro write count sent
                  rw [percentorchar, if_pos hpercent]
                  split
                  · next h => rw [hread] at h; cases h
                  · next h =>
                      rw [hread] at h
                      cases h
                      rfl
                rcases converts_doformat memory (readSpec fmt).1 conversion ap
                  with ⟨fault, hfault⟩ | ⟨text, next, hconv⟩
                · dsimp only at hfault
                  refine ⟨[], some fault, fun write hwrite count sent => ?_⟩
                  rw [hunfold, hfault]
                  rfl
                · dsimp only at hconv
                  obtain ⟨tail, stop, htail⟩ := ih _ hshort rest next rfl
                  refine ⟨text ++ tail, stop, fun write hwrite count sent => ?_⟩
                  rw [hunfold, hconv write hwrite, putString_append,
                    putString_count text count]
                  simp only [bind_assoc, ok_bind, htail write hwrite]
          · obtain ⟨tail, stop, htail⟩ :=
              ih fmt.length (Nat.lt_succ_self _) fmt ap rfl
            refine ⟨c :: tail, stop, fun write hwrite count sent => ?_⟩
            rw [percentorchar, if_neg hpercent, putString]
            simp only [bind_assoc, htail write hwrite]

/-- The stream takes every byte of the text. -/
def TakesAll (write : List Byte → Byte → ℤ) (sent text : List Byte) : Prop :=
  ∀ s c t, text = s ++ c :: t → 0 < write (sent ++ s) c

section TakesAll

variable {write : List Byte → Byte → ℤ} {sent : List Byte}

theorem TakesAll.nil : TakesAll write sent [] := by
  intro s c t heq
  cases s <;> cases heq

theorem TakesAll.head {c : Byte} {text : List Byte}
    (htakes : TakesAll write sent (c :: text)) : 0 < write sent c := by
  have hpos := htakes [] c text rfl
  rwa [List.append_nil] at hpos

theorem TakesAll.tail {c : Byte} {text : List Byte}
    (htakes : TakesAll write sent (c :: text)) :
    TakesAll write (sent ++ [c]) text := by
  intro s d t heq
  have hpos := htakes (c :: s) d t (by rw [heq]; rfl)
  rwa [List.append_cons] at hpos

theorem TakesAll.putString_eq {text : List Byte}
    (htakes : TakesAll write sent text) (count : ℤ) :
    putString write text count sent =
      .ok (count + text.length, sent ++ text) := by
  induction text generalizing sent count with
  | nil => rw [putString, List.append_nil, List.length_nil]; simp
  | cons c text ih =>
      have hpos := htakes.head
      rw [putString_cons, if_neg (by omega), if_neg (by omega),
        ih htakes.tail, List.append_assoc, List.length_cons]
      push_cast
      rw [add_assoc, add_comm 1]
      rfl

theorem TakesAll.putString_refused {s : List Byte} (htakes : TakesAll write sent s)
    {c : Byte} (hrefused : write (sent ++ s) c ≤ 0) (t : List Byte)
    (count : ℤ) :
    putString write (s ++ c :: t) count sent =
      if write (sent ++ s) c < 0 then
        .error (.returns (write (sent ++ s) c) (sent ++ s))
      else .error (.fault (.assertion "result != 0")) := by
  rw [putString_append, htakes.putString_eq, ok_bind]
  dsimp only
  rw [putString_cons]
  split
  · rfl
  · next hneg => rw [if_pos (by omega)]

end TakesAll

/-- What `stream_vprintf` returns behind its text. -/
def returned (stop : Option Fault) (text sent : List Byte) :
    Except Fault (ℤ × List Byte) :=
  match stop with
  | none => .ok (toSigned (toSize text.length), sent ++ text)
  | some fault => .error fault

/-- What a call puts on any stream.  A stream which takes it all has the text
behind what it had before; one which answers a byte with an error has what is
in front of the byte, and the error is returned; and one which takes nothing of
a byte ends in the assertion. -/
def FormatsTo (fmt : List Byte) (ap : List Word) (text : List Byte)
    (stop : Option Fault) : Prop :=
  ∀ write, Single write → ∀ sent,
    (TakesAll write sent text →
      streamVprintf write memory fmt ap sent = returned stop text sent) ∧
    ∀ s c t, text = s ++ c :: t → TakesAll write sent s →
      write (sent ++ s) c ≤ 0 →
        streamVprintf write memory fmt ap sent =
          if write (sent ++ s) c < 0 then
            .ok (write (sent ++ s) c, sent ++ s)
          else .error (.assertion "result != 0")

variable {memory} in
theorem formatsTo_of_prints {fmt : List Byte} {ap : List Word}
    {text : List Byte} {stop : Option Fault}
    (htext : ∀ write, Single write → ∀ count sent,
      percentorchar write memory fmt ap count sent =
        (putString write text count sent >>= ends stop)) :
    FormatsTo memory fmt ap text stop := by
  intro write hwrite sent
  constructor
  · intro htakes
    unfold streamVprintf
    rw [htext write hwrite, htakes.putString_eq, ok_bind]
    cases stop with
    | none => simp only [ends, returned, zero_add]
    | some fault => rfl
  · intro s c t heq htakes hrefused
    unfold streamVprintf
    rw [htext write hwrite, heq, htakes.putString_refused hrefused]
    by_cases hneg : write (sent ++ s) c < 0
    · rw [if_pos hneg, if_pos hneg]
      rfl
    · rw [if_neg hneg, if_neg hneg]
      rfl

/-- A format and its arguments stand for one text, whatever the stream is. -/
theorem streamVprintf_text (fmt : List Byte) (ap : List Word) :
    ∃ text stop, FormatsTo memory fmt ap text stop := by
  obtain ⟨text, stop, htext⟩ := percentorchar_prints memory fmt ap
  exact ⟨text, stop, formatsTo_of_prints htext⟩

/-! ## Formats without numbers -/

theorem percentorchar_plain (write : List Byte → Byte → ℤ)
    {plain : List Byte} (hplain : 0x25 ∉ plain) (ap : List Word) (count : ℤ)
    (sent : List Byte) :
    percentorchar write memory plain ap count sent =
      putString write plain count sent := by
  induction plain generalizing count sent with
  | nil => rw [percentorchar, putString]
  | cons c plain ih =>
      have hc : c ≠ 0x25 := fun heq => hplain (heq ▸ List.mem_cons_self)
      rw [percentorchar, if_neg hc, putString]
      congr 1
      funext p
      exact ih (fun hmem => hplain (List.mem_cons_of_mem c hmem)) _ _

theorem readSpec_string (rest : List Byte) :
    readSpec (0x73 :: rest) = (.initial, 0x73 :: rest) := by
  have hflag : fmtflag (0x73 :: rest) .initial = (.initial, 0x73 :: rest) := by
    rw [fmtflag, if_neg (by decide), if_neg (by decide)]
  have hwidth : fmtminwidth (0x73 :: rest) .initial =
      (.initial, 0x73 :: rest) := by
    rw [fmtminwidth, if_neg (by decide)]
  have hlenmod : fmtlenmod (0x73 :: rest) .initial =
      (.initial, 0x73 :: rest) := by
    rw [fmtlenmod, if_neg (by decide), if_neg (by decide), if_neg (by decide),
      if_neg (by decide)]
  unfold readSpec
  rw [hflag]
  dsimp only
  rw [hwidth]
  exact hlenmod

theorem percentorchar_string (write : List Byte → Byte → ℤ) {p : Word}
    {name : List Byte} (hname : memory p = some name) (rest : List Byte)
    (ap : List Word) (count : ℤ) (sent : List Byte) :
    percentorchar write memory (0x25 :: 0x73 :: rest) (p :: ap) count sent =
      (putString write name count sent >>= fun q =>
        percentorchar write memory rest ap q.1 q.2) := by
  have hread := readSpec_string rest
  rw [percentorchar, if_pos rfl]
  split
  · next h =>
      rw [hread] at h
      cases h
  · next conversion tail h =>
      rw [hread] at h
      cases h
      rw [hread, doformat, if_neg (by decide), if_pos rfl, vaWord, ok_bind]
      dsimp only [streamPutString]
      rw [hname, Option.getD_some, putString_count name count]
      simp only [bind_assoc, ok_bind]

/-- `"%s"` with plain characters behind it. -/
theorem formatsTo_string {p : Word} {name : List Byte}
    (hname : memory p = some name) {plain : List Byte}
    (hplain : 0x25 ∉ plain) :
    FormatsTo memory (0x25 :: 0x73 :: plain) [p] (name ++ plain) none := by
  apply formatsTo_of_prints
  intro write _ count sent
  rw [percentorchar_string memory write hname, putString_append, bind_assoc]
  congr 1
  funext q
  rw [percentorchar_plain memory write hplain]
  cases putString write plain q.1 q.2 <;> rfl

end Formats

end Printf
end Yjkos
