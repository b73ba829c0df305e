import Yjkos.Getopt

/-!
# What commands leave to later ones

A history of commands leaves three things behind: the place in an argument
where the last call stopped, the last option argument which a call took, and
the last bad option which a call met.  They are read off the arguments and the
option strings of the commands.
-/

namespace Yjkos
namespace Getopt

open Vfs (Text kstrcmp)

/-! ## The calls of a command -/

/-- What a call does which finds an option: the position behind it, the option
argument it takes, and the bad option it meets. -/
structure OptionCall where
  position : ℕ
  argument : Option Text
  bad : Option ℤ
deriving DecidableEq

/-- The options in an option string. -/
def optionsIn (optstring : Text) : Text :=
  let nextOptChar :=
    if optstring.headD 0 = plus then optstring.tail else optstring
  if nextOptChar.headD 0 = colon then nextOptChar.tail else nextOptChar

/-- The calls for the characters of an element from a position on, and the
option behind them whose argument would be the next element. -/
def elementCalls (options : Text) :
    ℕ → Text → List OptionCall × Option (BitVec 8)
  | _, [] => ([], none)
  | pos, c :: rest =>
      match matchOption c 0 options with
      | some (optChar, true) =>
          if rest.headD 0 = 0 then ([], some optChar)
          else ([⟨1, some rest, none⟩], none)
      | found =>
          let bad : Option ℤ := if found.isSome then none else some c.toNat
          if rest.headD 0 = 0 then ([⟨1, none, bad⟩], none)
          else
            let behind := elementCalls options (pos + 1) rest
            (⟨pos + 1, none, bad⟩ :: behind.1, behind.2)

/-- The element is no option element. -/
def IsOperand (arg : Text) : Prop :=
  arg.headD 0 ≠ dash ∨ kstrcmp arg [dash] = 0

instance (arg : Text) : Decidable (IsOperand arg) := by
  unfold IsOperand
  infer_instance

/-- The calls up to the first operand, from a position in the first element
on.  The first element is passed over when it has been an argument. -/
def optionCalls (options : Text) : ℕ → Bool → List Text → List OptionCall
  | _, _, [] => []
  | _, true, _ :: rest => optionCalls options 1 false rest
  | pos, false, arg :: rest =>
      if IsOperand arg then []
      else if kstrcmp arg [dash, dash] = 0 then
        ⟨1, none, none⟩ :: optionCalls options 1 false rest
      else
        let element := elementCalls options pos (arg.drop pos)
        element.1 ++
          match element.2 with
          | none => optionCalls options 1 false rest
          | some optChar =>
              ⟨1, rest.head?,
                if rest.isEmpty then some optChar.toInt else none⟩ ::
                optionCalls options 1 true rest

/-- What a command calls from a position on. -/
def Command.optionCalls (command : Command) (pos : ℕ) : List OptionCall :=
  (Getopt.optionCalls (optionsIn command.optstring) pos false
    command.argv.tail).take command.calls

/-! ## What calls leave -/

/-- The last thing which calls give. -/
def lastOf {α : Type} (f : OptionCall → Option α) (calls : List OptionCall) :
    Option α :=
  (calls.filterMap f).getLast?

theorem lastOf_append {α : Type} (f : OptionCall → Option α)
    (calls more : List OptionCall) :
    lastOf f (calls ++ more) = (lastOf f more).or (lastOf f calls) := by
  rw [lastOf, List.filterMap_append, List.getLast?_append]
  rfl

theorem lastOf_singleton {α : Type} (f : OptionCall → Option α)
    (call : OptionCall) : lastOf f [call] = f call := by
  unfold lastOf
  cases h : f call <;> simp [h]

/-- Where the last call stopped. -/
def positionLeft (pos : ℕ) (calls : List OptionCall) : ℕ :=
  (lastOf (fun call => some call.position) calls).getD pos

/-- The last option argument which was taken. -/
def optargLeft (optarg : Option Text) (calls : List OptionCall) :
    Option Text :=
  (lastOf OptionCall.argument calls).or optarg

/-- The last bad option which was met. -/
def optoptLeft (optopt : ℤ) (calls : List OptionCall) : ℤ :=
  (lastOf OptionCall.bad calls).getD optopt

/-- The variables after calls. -/
structure Leaves (calls : List OptionCall) (before after : Globals) :
    Prop where
  position : after.nextCharIdx = positionLeft before.nextCharIdx calls
  optarg : after.optarg = optargLeft before.optarg calls
  optopt : after.optopt = optoptLeft before.optopt calls

theorem Leaves.nil (self : Globals) : Leaves [] self self := ⟨rfl, rfl, rfl⟩

theorem Leaves.append {calls more : List OptionCall}
    {self mid after : Globals} (h : Leaves calls self mid)
    (h' : Leaves more mid after) : Leaves (calls ++ more) self after where
  position := by
    rw [h'.position, h.position]
    unfold positionLeft
    rw [lastOf_append, Option.getD_or]
  optarg := by
    rw [h'.optarg, h.optarg]
    unfold optargLeft
    rw [lastOf_append, Option.or_assoc]
  optopt := by
    rw [h'.optopt, h.optopt]
    unfold optoptLeft
    rw [lastOf_append, Option.getD_or]

theorem Leaves.single {call : OptionCall} {self after : Globals}
    (position : after.nextCharIdx = call.position)
    (optarg : after.optarg = call.argument.or self.optarg)
    (optopt : after.optopt = call.bad.getD self.optopt) :
    Leaves [call] self after where
  position := by
    unfold positionLeft
    rw [lastOf_singleton, position]
    rfl
  optarg := by
    unfold optargLeft
    rw [lastOf_singleton, optarg]
  optopt := by
    unfold optoptLeft
    rw [lastOf_singleton, optopt]

/-! ## One call -/

section Calls

variable {self after : Globals} {argv : List Text} {arg : Text}
  {args : List Text} {result : Returned}

theorem charAt_next {pos : ℕ} {next : BitVec 8}
    (h : charAt arg (pos + 1) = .ok next) :
    ∃ c rest, arg.drop pos = c :: rest ∧ charAt arg pos = .ok c ∧
      next = rest.headD 0 := by
  unfold charAt at h
  split at h
  next hle =>
    have hlt : pos < arg.length := hle
    refine ⟨arg[pos], arg.drop (pos + 1), List.drop_eq_getElem_cons hlt, ?_, ?_⟩
    · rw [charAt, if_pos hlt.le]
      simp [hlt]
    · cases h
      rw [List.headD_eq_getD]
      simp
  next => cases h

section Element

variable {options rest : Text} {pos : ℕ} {c : BitVec 8}

end Element

end Calls

/-! ## Runs -/

end Getopt
end Yjkos
