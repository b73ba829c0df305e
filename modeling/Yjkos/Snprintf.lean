import Mathlib.Data.List.GetD
import Yjkos.HeapModel
import Yjkos.PrintfStreams

/-!
# Formatting into memory

`vsnprintf` of `lib/libc/stdio.c` is `stream_vprintf` on a stream which stores
its bytes and a NUL behind them.  The stream answers 0 when there is no room,
and `stream_put_char` does not expect that of any stream: a text is stored as a
whole or the kernel stops, so nothing is ever cut off.
-/

namespace Yjkos
namespace Printf

open Heap (storeBytes)

/-! ## Streams with a state -/

section Machines

variable {σ : Type} (op : σ → Byte → ℤ × σ)

/-- Where a stream stands behind the bytes it has taken. -/
def replay (start : σ) (sent : List Byte) : σ :=
  sent.foldl (fun s c => (op s c).2) start

/-- The answers of a stream with a state. -/
def answers (start : σ) (sent : List Byte) (c : Byte) : ℤ :=
  (op (replay op start sent) c).1

theorem replay_snoc (start : σ) (sent : List Byte) (c : Byte) :
    replay op start (sent ++ [c]) = (op (replay op start sent) c).2 := by
  unfold replay
  rw [List.foldl_append]
  rfl

end Machines

/-! ## The stream of vsnprintf -/

structure VsnprintfStream where
  dest : ℕ
  remaininglen : ℕ

/-- The stream, and the memory it writes to. -/
structure Target where
  stream : VsnprintfStream
  memory : ℕ → Byte

def streamMaxTransferSize : ℕ := 0x7fffffff

def intMax : ℕ := 2147483647

def vsnprintfStreamOpWrite (self : Target) (buf : List Byte) :
    Except Fault (ℤ × Target) := do
  cAssert (buf.length < streamMaxTransferSize) "size < STREAM_MAX_TRANSFER_SIZE"
  let stream := self.stream
  let writelen :=
    if stream.remaininglen < buf.length then stream.remaininglen
    else buf.length
  let memory := storeBytes self.memory stream.dest (buf.take writelen)
  let memory := storeBytes memory (stream.dest + writelen) [0]
  .ok (toSigned writelen,
    { stream :=
        { remaininglen := wrapSub stream.remaininglen writelen
          dest := stream.dest + writelen }
      memory := memory })

/-- The operation as `stream_put_char` uses it, with one byte. -/
def vsnprintfPut (self : Target) (c : Byte) : ℤ × Target :=
  match vsnprintfStreamOpWrite self [c] with
  | .ok result => result
  | .error _ => (0, self)

section Vsnprintf

-- The string at an address.
variable (strings : Word → Option (List Byte))

def vsnprintf (memory : ℕ → Byte) (str size : ℕ) (fmt : List Byte)
    (ap : List Word) : Except Fault (ℤ × (ℕ → Byte)) := do
  cAssert (size ≤ intMax) "size <= INT_MAX"
  let start : Target := ⟨⟨str, wrapSub size 1⟩, memory⟩
  let (ret, sent) ←
    streamVprintf (answers vsnprintfPut start) strings fmt ap []
  .ok (ret, (replay vsnprintfPut start sent).memory)

def vsprintf (memory : ℕ → Byte) (str : ℕ) (fmt : List Byte)
    (ap : List Word) : Except Fault (ℤ × (ℕ → Byte)) :=
  vsnprintf strings memory str sizeMax fmt ap

def snprintf (memory : ℕ → Byte) (str size : ℕ) (fmt : List Byte)
    (ap : List Word) : Except Fault (ℤ × (ℕ → Byte)) := do
  cAssert (size ≤ intMax) "size <= INT_MAX"
  vsnprintf strings memory str size fmt ap

def sprintf (memory : ℕ → Byte) (str : ℕ) (fmt : List Byte)
    (ap : List Word) : Except Fault (ℤ × (ℕ → Byte)) :=
  vsprintf strings memory str fmt ap

/-- The size which `vsprintf` passes on is more than an `int` can count, so no
text at all is formatted without a size. -/
theorem sprintf_stops (memory : ℕ → Byte) (str : ℕ) (fmt : List Byte)
    (ap : List Word) :
    sprintf strings memory str fmt ap =
      .error (.assertion "size <= INT_MAX") := by
  have hlong : ¬sizeMax ≤ intMax := by
    unfold sizeMax intMax
    omega
  unfold sprintf vsprintf vsnprintf
  rw [decide_eq_false hlong, cAssert_false]
  rfl

end Vsnprintf

/-! ## One byte -/

theorem vsnprintfPut_full (dest : ℕ) (memory : ℕ → Byte) (c : Byte) :
    (vsnprintfPut ⟨⟨dest, 0⟩, memory⟩ c).1 = 0 := rfl

theorem vsnprintfPut_room {dest room : ℕ} (hroom : 0 < room)
    (hword : room < 4294967296) (memory : ℕ → Byte) (c : Byte) :
    vsnprintfPut ⟨⟨dest, room⟩, memory⟩ c =
      (1, ⟨⟨dest + 1, room - 1⟩,
        storeBytes (storeBytes memory dest [c]) (dest + 1) [0]⟩) := by
  have hsub : wrapSub room 1 = room - 1 := wrapSub_of_le hroom hword
  have hlen : ¬room < [c].length := by
    rw [List.length_singleton]
    omega
  unfold vsnprintfPut vsnprintfStreamOpWrite
  dsimp only
  rw [if_neg hlen, List.length_singleton, hsub]
  rfl

theorem single_answers (start : Target) :
    Single (answers vsnprintfPut start) := by
  intro sent c
  unfold answers
  obtain ⟨⟨dest, room⟩, memory⟩ := replay vsnprintfPut start sent
  by_cases hroom : room < 1
  · right
    have hempty : room = 0 := by omega
    rw [hempty, vsnprintfPut_full]
  · left
    unfold vsnprintfPut vsnprintfStreamOpWrite
    dsimp only
    rw [List.length_singleton, if_neg hroom]
    rfl

/-! ## A string -/

/-- The memory with a string and its NUL; of an empty string nothing is
stored. -/
def stored (memory : ℕ → Byte) (str : ℕ) (text : List Byte) : ℕ → Byte :=
  if text = [] then memory else storeBytes memory str (text ++ [0])

/-- What `vsnprintf` returns behind a text which it has stored. -/
def storedText (stop : Option Fault) (memory : ℕ → Byte) (str : ℕ)
    (text : List Byte) : Except Fault (ℤ × (ℕ → Byte)) :=
  match stop with
  | none => .ok (toSigned (toSize text.length), stored memory str text)
  | some fault => .error fault

theorem stored_outside (memory : ℕ → Byte) {str : ℕ} {text : List Byte}
    {a : ℕ} (hout : a < str ∨ str + text.length < a) :
    stored memory str text a = memory a := by
  unfold stored storeBytes
  split
  · rfl
  · apply if_neg
    rw [List.length_append, List.length_singleton]
    omega

theorem stored_inside (memory : ℕ → Byte) {str : ℕ} {text : List Byte}
    {i : ℕ} (hi : i < text.length) :
    stored memory str text (str + i) = text.getD i 0 := by
  have hnonempty : text ≠ [] := List.ne_nil_of_length_pos (by omega)
  unfold stored storeBytes
  rw [if_neg hnonempty, if_pos, Nat.add_sub_cancel_left,
    List.getD_append _ _ _ _ hi]
  rw [List.length_append, List.length_singleton]
  omega

theorem stored_nul (memory : ℕ → Byte) {str : ℕ} {text : List Byte}
    (hnonempty : text ≠ []) :
    stored memory str text (str + text.length) = 0 := by
  unfold stored storeBytes
  rw [if_neg hnonempty, if_pos, Nat.add_sub_cancel_left,
    List.getD_append_right _ _ _ _ le_rfl, Nat.sub_self]
  · rfl
  · rw [List.length_append, List.length_singleton]
    omega

theorem storeBytes_singleton (memory : ℕ → Byte) (dest : ℕ) (c : Byte)
    (a : ℕ) :
    storeBytes memory dest [c] a = if a = dest then c else memory a := by
  unfold storeBytes
  rw [List.length_singleton]
  by_cases heq : a = dest
  · rw [if_pos (by omega), if_pos heq, heq, Nat.sub_self]
    rfl
  · rw [if_neg (by omega), if_neg heq]

theorem storeBytes_snoc (memory : ℕ → Byte) (str : ℕ) (text : List Byte)
    (c : Byte) :
    storeBytes (storeBytes (stored memory str text) (str + text.length) [c])
        (str + text.length + 1) [0] =
      stored memory str (text ++ [c]) := by
  have hne : text ++ [c] ≠ [] := List.append_ne_nil_of_right_ne_nil _ (by simp)
  have hlen : (text ++ [c]).length = text.length + 1 := by
    rw [List.length_append, List.length_singleton]
  funext a
  rw [storeBytes_singleton, storeBytes_singleton]
  by_cases hlast : a = str + text.length + 1
  · have hnul := @stored_nul memory str _ hne
    rw [hlen, ← add_assoc] at hnul
    rw [if_pos hlast, hlast, hnul]
  · rw [if_neg hlast]
    by_cases hin : str ≤ a ∧ a < str + (text.length + 1)
    · obtain ⟨i, rfl⟩ := Nat.exists_eq_add_of_le hin.1
      have hnew : stored memory str (text ++ [c]) (str + i) =
          (text ++ [c]).getD i 0 := stored_inside memory (by omega)
      rw [hnew]
      by_cases hc : i = text.length
      · rw [if_pos (by omega), hc, List.getD_append_right _ _ _ _ le_rfl,
          Nat.sub_self]
        rfl
      · rw [if_neg (by omega), stored_inside memory (by omega),
          List.getD_append _ _ _ _ (by omega)]
    · rw [if_neg (by omega), stored_outside memory (by omega),
        stored_outside memory (by omega)]

/-- Behind as many bytes as there is room for. -/
theorem replay_vsnprintfPut (memory : ℕ → Byte) (str : ℕ) {room : ℕ}
    (hword : room < 4294967296) (sent : List Byte)
    (hfits : sent.length ≤ room) :
    replay vsnprintfPut ⟨⟨str, room⟩, memory⟩ sent =
      ⟨⟨str + sent.length, room - sent.length⟩, stored memory str sent⟩ := by
  induction sent using List.reverseRecOn with
  | nil => rfl
  | append_singleton sent c ih =>
      rw [List.length_append, List.length_singleton] at hfits ⊢
      rw [replay_snoc, ih (by omega),
        vsnprintfPut_room (by omega) (by omega), storeBytes_snoc]
      rfl

theorem answers_vsnprintfPut (memory : ℕ → Byte) (str : ℕ) {room : ℕ}
    (hword : room < 4294967296) (sent : List Byte) (c : Byte)
    (hfits : sent.length ≤ room) :
    answers vsnprintfPut ⟨⟨str, room⟩, memory⟩ sent c =
      if sent.length < room then 1 else 0 := by
  unfold answers
  rw [replay_vsnprintfPut memory str hword sent hfits]
  split
  · rw [vsnprintfPut_room (by omega) (by omega)]
  · rw [show room - sent.length = 0 by omega]
    exact vsnprintfPut_full _ _ _

/-! ## Texts -/

section Texts

variable (memory : ℕ → Byte) (str : ℕ) {room : ℕ} {text : List Byte}

theorem takes_of_room (hword : room < 4294967296)
    (hfits : text.length ≤ room) :
    TakesAll (answers vsnprintfPut ⟨⟨str, room⟩, memory⟩) [] text := by
  intro s c t heq
  have hlen : text.length = s.length + (t.length + 1) := by
    rw [heq, List.length_append, List.length_cons]
  rw [List.nil_append, answers_vsnprintfPut memory str hword s c (by omega),
    if_pos (by omega)]
  exact Int.one_pos

theorem vsnprintf_of_room {strings : Word → Option (List Byte)}
    {fmt : List Byte} {ap : List Word} {stop : Option Fault} {size : ℕ}
    (hformat : FormatsTo strings fmt ap text stop) (hsize : size ≤ intMax)
    (hroom : wrapSub size 1 = room) (hfits : text.length ≤ room) :
    vsnprintf strings memory str size fmt ap =
      storedText stop memory str text := by
  have hword : room < 4294967296 := by
    rw [← hroom]
    exact wrap_lt _
  unfold vsnprintf
  rw [cAssert_of (decide_eq_true hsize), ok_bind, hroom]
  dsimp only
  rw [(hformat _ (single_answers _) []).1
    (takes_of_room memory str hword hfits)]
  cases stop with
  | none =>
      simp only [returned, storedText, ok_bind, List.nil_append,
        replay_vsnprintfPut memory str hword text hfits]
  | some fault => rfl

theorem vsnprintf_of_no_room {strings : Word → Option (List Byte)}
    {fmt : List Byte} {ap : List Word} {stop : Option Fault} {size : ℕ}
    (hformat : FormatsTo strings fmt ap text stop) (hsize : size ≤ intMax)
    (hroom : wrapSub size 1 = room) (hlong : room < text.length) :
    vsnprintf strings memory str size fmt ap =
      .error (.assertion "result != 0") := by
  have hword : room < 4294967296 := by
    rw [← hroom]
    exact wrap_lt _
  have hlen : (text.take room).length = room := by
    rw [List.length_take]
    omega
  have hanswer : answers vsnprintfPut ⟨⟨str, room⟩, memory⟩
      ([] ++ text.take room) text[room] = 0 := by
    rw [List.nil_append, answers_vsnprintfPut memory str hword _ _ hlen.le,
      hlen, if_neg (lt_irrefl room)]
  have hsplit :
      text = text.take room ++ text[room] :: text.drop (room + 1) := by
    rw [← List.drop_eq_getElem_cons hlong, List.take_append_drop]
  unfold vsnprintf
  rw [cAssert_of (decide_eq_true hsize), ok_bind, hroom]
  dsimp only
  rw [(hformat _ (single_answers _) []).2 _ _ _ hsplit
    (takes_of_room memory str hword hlen.le) hanswer.le, hanswer]
  rfl

end Texts

/-- In a buffer which has room for the text and its NUL the text is stored as
a whole and nothing else is touched; in a shorter buffer the assertion fails;
and a buffer of size 0 is written to as if it had no end. -/
theorem vsnprintf_text (strings : Word → Option (List Byte))
    (fmt : List Byte) (ap : List Word) :
    ∃ text stop, FormatsTo strings fmt ap text stop ∧
      ∀ memory str size, size ≤ intMax →
        (text.length < size ∨ size = 0 ∧ text.length ≤ sizeMax →
          vsnprintf strings memory str size fmt ap =
            storedText stop memory str text) ∧
        (0 < size → size ≤ text.length →
          vsnprintf strings memory str size fmt ap =
            .error (.assertion "result != 0")) := by
  obtain ⟨text, stop, htext⟩ := percentorchar_prints strings fmt ap
  have hformat := formatsTo_of_prints htext
  refine ⟨text, stop, hformat, fun memory str size hsize =>
    ⟨fun hroom => ?_, fun hpos hlong => ?_⟩⟩
  · apply vsnprintf_of_room memory str hformat hsize rfl
    unfold intMax at hsize
    unfold wrapSub wrap sizeMax at *
    omega
  · apply vsnprintf_of_no_room memory str hformat hsize rfl
    rw [wrapSub_of_le hpos (by unfold intMax at hsize; omega)]
    omega

end Printf
end Yjkos
