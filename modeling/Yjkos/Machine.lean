import Mathlib.Tactic

/-!
# Machine words and faults

The kernel is built for i586: `size_t`, `uintptr_t` and `UINT` have 32 bits,
`long` is a 32-bit signed integer.  Unsigned machine words are natural numbers
here, and every operation which can leave the range is wrapped explicitly.

A failed `assert`, a `panic`, a wild memory access and a loop which runs out
of its analysis fuel all end the call, so fallible code returns
`Except Fault`.
-/

namespace Yjkos

/-- The ways in which a kernel routine can fail to return. -/
inductive Fault where
  | assertion (condition : String)
  | panic (message : String)
  | outOfBounds
  | nullDereference
  | wildPointer
  | divideByZero
  | outOfFuel
deriving DecidableEq, Repr

/-- The error numbers which the modelled routines return, negated in the
source. -/
inductive Errno where
  | eperm
  | enoent
  | eio
  | enomem
  | efault
  | einval
  | enametoolong
  | enodev
  | eexist
  | enotdir
  | eisdir
deriving DecidableEq, Repr

/-- Reduction of an unsigned result to 32 bits. -/
def wrap (x : ℕ) : ℕ := x % 4294967296

/-- Subtraction of 32-bit words. -/
def wrapSub (x y : ℕ) : ℕ := wrap (x + (4294967296 - y))

/-- Conversion of `size_t` to `ssize_t`. -/
def toSigned (x : ℕ) : ℤ :=
  if x < 2147483648 then x else (x : ℤ) - 4294967296

/-- `SIZE_MAX`, also `UINTPTR_MAX`. -/
def sizeMax : ℕ := 4294967295

/-- Conversion of a `long` to `size_t`. -/
def toSize (x : ℤ) : ℕ := (x % 4294967296).toNat

/-- A shortcut, so that looking for a byte in a list is decided by the same
term wherever it is written. -/
instance lawfulBEqByte : LawfulBEq (BitVec 8) := inferInstance

/-- `ARCH_PAGESIZE` of the i586 port. -/
def archPageSize : ℕ := 4096

theorem wrap_lt (x : ℕ) : wrap x < 4294967296 :=
  Nat.mod_lt _ (by decide)

theorem wrap_of_lt {x : ℕ} (hx : x < 4294967296) : wrap x = x :=
  Nat.mod_eq_of_lt hx

theorem wrapSub_wrap_add {s k : ℕ} (hs : s < 4294967296)
    (hk : k < 4294967296) : wrapSub (wrap (s + k)) s = k := by
  unfold wrapSub wrap
  omega

theorem wrapSub_wrap_wrap {s j k : ℕ} (hjk : j ≤ k) (hk : k < 4294967296) :
    wrapSub (wrap (s + k)) (wrap (s + j)) = k - j := by
  unfold wrapSub wrap
  omega

theorem wrapSub_of_le {x y : ℕ} (hle : y ≤ x) (hx : x < 4294967296) :
    wrapSub x y = x - y := by
  unfold wrapSub wrap
  omega

theorem toSigned_eq_iff {x : ℕ} (hx : x < 4294967296) :
    toSigned x = x ↔ x < 2147483648 := by
  unfold toSigned
  split
  next h => simp [h]
  next h => omega

theorem toSize_natCast {x : ℕ} (hx : x < 4294967296) :
    toSize (x : ℤ) = x := by
  unfold toSize
  omega

@[simp]
theorem ok_bind {ε α β : Type _} (a : α) (f : α → Except ε β) :
    (Except.ok a >>= f) = f a := rfl

@[simp]
theorem error_bind {ε α β : Type _} (e : ε) (f : α → Except ε β) :
    (Except.error e >>= f) = Except.error e := rfl

theorem bind_eq_ok {ε α β : Type _} {x : Except ε α} {f : α → Except ε β}
    {b : β} (h : (x >>= f) = .ok b) : ∃ a, x = .ok a ∧ f a = .ok b := by
  cases x with
  | error e => simp at h
  | ok a => exact ⟨a, rfl, h⟩

/-- A computation returns normally with a value which satisfies `P`. -/
def Returns {α : Type _} (P : α → Prop) (x : Except Fault α) : Prop :=
  ∃ a, x = .ok a ∧ P a

/-- `assert(condition)`. -/
def cAssert (condition : Bool) (text : String) : Except Fault Unit :=
  if condition then .ok () else .error (.assertion text)

@[simp]
theorem cAssert_true (text : String) : cAssert true text = .ok () := rfl

@[simp]
theorem cAssert_false (text : String) :
    cAssert false text = .error (.assertion text) := rfl

theorem cAssert_eq_ok {condition : Bool} {text : String}
    (h : cAssert condition text = .ok ()) : condition = true := by
  cases condition with
  | true => rfl
  | false => simp at h

/-- A failed assertion is the only error of `cAssert`. -/
theorem cAssert_error {condition : Bool} {text : String} {e : Fault}
    (h : cAssert condition text = .error e) : e = .assertion text := by
  cases condition with
  | true => simp at h
  | false => simpa using h.symm

theorem bind_eq_error {ε α β : Type _} {x : Except ε α} {f : α → Except ε β}
    {e : ε} (h : (x >>= f) = .error e) :
    x = .error e ∨ ∃ a, x = .ok a ∧ f a = .error e := by
  cases x with
  | error e' => exact Or.inl (by simpa using h)
  | ok a => exact Or.inr ⟨a, rfl, h⟩

theorem cAssert_of {condition : Bool} {text : String}
    (h : condition = true) : cAssert condition text = .ok () := by
  simp [h]

end Yjkos
