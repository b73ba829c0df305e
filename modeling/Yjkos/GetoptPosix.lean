import Mathlib.Data.List.GetD
import Yjkos.Getopt
import Yjkos.VfsPath

/-!
# Whole argument vectors

`getopt` is called until it returns -1, and the results are compared with
those which the standard prescribes.  The prescription goes through the
elements of `argv` and the characters of each of them; it knows nothing of the
position which `getopt` keeps.
-/

namespace Yjkos
namespace Getopt

open Vfs (Text kstrcmp)

/-! ## The prescription -/

/-- An option character, and whether a colon follows it. -/
structure Opt where
  letter : BitVec 8
  hasArg : Bool

def Opt.text (o : Opt) : Text :=
  o.letter :: if o.hasArg then [colon] else []

/-- Alphanumeric characters. -/
def IsOptionLetter (c : BitVec 8) : Prop :=
  0x30 ≤ c.toNat ∧ c.toNat ≤ 0x39 ∨ 0x41 ≤ c.toNat ∧ c.toNat ≤ 0x5a ∨
    0x61 ≤ c.toNat ∧ c.toNat ≤ 0x7a

instance (c : BitVec 8) : Decidable (IsOptionLetter c) := by
  unfold IsOptionLetter
  infer_instance

/-- An option string: an optional `+`, an optional colon, and the options. -/
structure OptString where
  hasPlus : Bool
  silent : Bool
  options : List Opt
  letters : ∀ o ∈ options, IsOptionLetter o.letter

def OptString.text (s : OptString) : Text :=
  (if s.hasPlus then [plus] else []) ++
    ((if s.silent then [colon] else []) ++ s.options.flatMap Opt.text)

def optionOf (options : List Opt) (c : BitVec 8) : Option Opt :=
  options.find? fun o => o.letter = c

/-- The results of one call, as far as they are prescribed. -/
structure Outcome where
  value : ℤ
  optarg : Option Text
  optopt : Option ℤ
  optind : ℕ
deriving DecidableEq

/-- The options of the element with index `i`, without one whose argument
would be the next element. -/
def elementOutcomes (options : List Opt) (i : ℕ) : Text → List Outcome
  | [] => []
  | c :: rest =>
      let next := if rest = [] then i + 1 else i
      match optionOf options c with
      | none =>
          ⟨question.toNat, none, some c.toNat, next⟩ ::
            elementOutcomes options i rest
      | some ⟨_, false⟩ =>
          ⟨c.toNat, none, none, next⟩ :: elementOutcomes options i rest
      | some ⟨_, true⟩ =>
          if rest = [] then [] else [⟨c.toNat, some rest, none, i + 1⟩]

/-- The last character of an element when it takes an argument. -/
def wanting (options : List Opt) : Text → Option (BitVec 8)
  | [] => none
  | c :: rest =>
      match optionOf options c with
      | some ⟨_, true⟩ => if rest = [] then some c else none
      | _ => wanting options rest

def IsOptions (arg : Text) : Prop :=
  arg.headD 0 = dash ∧ arg ≠ [dash] ∧ arg ≠ [dash, dash]

instance (arg : Text) : Decidable (IsOptions arg) := by
  unfold IsOptions
  infer_instance

/-- The results of the calls for the elements from index `i` on; `missing` is
returned for a missing argument. -/
def outcomes (options : List Opt) (missing : ℤ) :
    ℕ → List Text → List Outcome
  | i, [] => [⟨-1, none, none, i⟩]
  | i, arg :: rest =>
      if IsOptions arg then
        elementOutcomes options i arg.tail ++
          match wanting options arg.tail, rest with
          | none, rest => outcomes options missing (i + 1) rest
          | some c, [] =>
              [⟨missing, none, some c.toNat, i + 1⟩,
                ⟨-1, none, none, i + 1⟩]
          | some c, value :: rest =>
              ⟨c.toNat, some value, none, i + 2⟩ ::
                outcomes options missing (i + 2) rest
      else
        [⟨-1, none, none, if arg = [dash, dash] then i + 1 else i⟩]

/-- What the standard prescribes for a whole vector. -/
def prescribed (s : OptString) (argv : List Text) : List Outcome :=
  outcomes s.options (if s.silent then colon.toNat else question.toNat) 1
    argv.tail

/-- The last element ends with an option whose argument is missing. -/
def MissesArgument (options : List Opt) : List Text → Prop
  | [] => False
  | arg :: rest =>
      IsOptions arg ∧
        match wanting options arg.tail, rest with
        | none, rest => MissesArgument options rest
        | some _, [] => True
        | some _, _ :: rest => MissesArgument options rest

/-- The characters of the elements behind the first ones. -/
def optionCharacters (args : List Text) : ℕ :=
  (args.map fun arg => arg.length - 1).sum

section Elements

variable {options : List Opt} {missing : ℤ} {i : ℕ} {arg : Text}
  {rest : List Text} {c : BitVec 8}

theorem outcomes_next (hoptions : IsOptions arg)
    (hwanting : wanting options arg.tail = none) :
    outcomes options missing i (arg :: rest) =
      elementOutcomes options i arg.tail ++
        outcomes options missing (i + 1) rest := by
  rw [outcomes.eq_def]
  dsimp only
  rw [if_pos hoptions, hwanting]

theorem outcomes_missing (hoptions : IsOptions arg)
    (hwanting : wanting options arg.tail = some c) :
    outcomes options missing i [arg] =
      elementOutcomes options i arg.tail ++
        [⟨missing, none, some c.toNat, i + 1⟩, ⟨-1, none, none, i + 1⟩] := by
  unfold outcomes
  rw [if_pos hoptions, hwanting]

theorem outcomes_separate (hoptions : IsOptions arg)
    (hwanting : wanting options arg.tail = some c) (value : Text) :
    outcomes options missing i (arg :: value :: rest) =
      elementOutcomes options i arg.tail ++
        ⟨c.toNat, some value, none, i + 2⟩ ::
          outcomes options missing (i + 2) rest := by
  rw [outcomes.eq_def]
  dsimp only
  rw [if_pos hoptions, hwanting]

theorem outcomes_operand (hoptions : ¬IsOptions arg) :
    outcomes options missing i (arg :: rest) =
      [⟨-1, none, none, if arg = [dash, dash] then i + 1 else i⟩] := by
  unfold outcomes
  rw [if_neg hoptions]

/-- The elements are gone through like the calls do it. -/
theorem elements_induction {motive : ℕ → List Text → Prop}
    (options : List Opt) (nil : ∀ i, motive i [])
    (next : ∀ i arg rest, IsOptions arg → wanting options arg.tail = none →
      motive (i + 1) rest → motive i (arg :: rest))
    (missing : ∀ i arg c, IsOptions arg →
      wanting options arg.tail = some c → motive i [arg])
    (separate : ∀ i arg c value rest, IsOptions arg →
      wanting options arg.tail = some c → motive (i + 2) rest →
        motive i (arg :: value :: rest))
    (operand : ∀ i arg rest, ¬IsOptions arg → motive i (arg :: rest))
    (i : ℕ) (args : List Text) : motive i args := by
  induction i, args using outcomes.induct options with
  | case1 i => exact nil i
  | case2 i arg rest hoptions ih =>
      match hwanting : wanting options arg.tail, rest with
      | none, rest =>
          rw [hwanting] at ih
          exact next i arg rest hoptions hwanting ih
      | some c, [] => exact missing i arg c hoptions hwanting
      | some c, value :: rest =>
          rw [hwanting] at ih
          exact separate i arg c value rest hoptions hwanting ih
  | case3 i arg rest hoptions => exact operand i arg rest hoptions

end Elements

/-! ## The calls -/

/-- Calls `getopt` up to the first -1, with a bound. -/
def getoptCalls (argv : List Text) (optstring : Text) :
    ℕ → Globals → Except Fault (List (ℤ × Globals))
  | 0, _ => .error .outOfFuel
  | calls + 1, self => do
      let (result, self) ← getopt self argv optstring
      if result.value = -1 then .ok [(result.value, self)]
      else do
        let rest ← getoptCalls argv optstring calls self
        .ok ((result.value, self) :: rest)

/-- A call gives what is prescribed. -/
structure Agrees (call : ℤ × Globals) (o : Outcome) : Prop where
  value_eq : call.1 = o.value
  optind_eq : call.2.optind = o.optind
  optarg_eq : ∀ arg, o.optarg = some arg → call.2.optarg = some arg
  optopt_eq : ∀ c, o.optopt = some c → call.2.optopt = c

/-- With a call for every option character and one more, the calls reach -1
and all of them give what is prescribed. -/
def Conforms (s : OptString) (argv : List Text) (opterr : ℤ) : Prop :=
  ∃ calls, getoptCalls argv s.text (optionCharacters argv.tail + 1)
      { initialGlobals with opterr := opterr } = .ok calls ∧
    List.Forall₂ Agrees calls (prescribed s argv)

/-! ## The option string -/

theorem IsOptionLetter.ne {c : BitVec 8} (h : IsOptionLetter c) :
    c ≠ 0 ∧ c ≠ plus ∧ c ≠ colon ∧ c ≠ question := by
  unfold IsOptionLetter at h
  refine ⟨?_, ?_, ?_, ?_⟩ <;> rintro rfl <;> revert h <;> decide

theorem IsOptionLetter.toInt_eq {c : BitVec 8} (h : IsOptionLetter c) :
    c.toInt = c.toNat := by
  unfold IsOptionLetter at h
  rw [BitVec.toInt_eq_toNat_of_lt (by omega)]

section Options

variable {options : List Opt} {c : BitVec 8}

theorem optionOf_letter {o : Opt} (h : optionOf options c = some o) :
    o ∈ options ∧ o.letter = c :=
  ⟨List.mem_of_find?_eq_some h, by simpa using List.find?_some h⟩

theorem headD_options
    (hletters : ∀ o ∈ options, IsOptionLetter o.letter) :
    (options.flatMap Opt.text).headD 0 ≠ colon ∧
      (options.flatMap Opt.text).headD 0 ≠ plus := by
  cases options with
  | nil => decide
  | cons o rest =>
      have hne := (hletters o List.mem_cons_self).ne
      exact ⟨hne.2.2.1, hne.2.1⟩

/-- The loop over the option string looks the character up. -/
theorem matchOption_options
    (hletters : ∀ o ∈ options, IsOptionLetter o.letter) :
    matchOption c 0 (options.flatMap Opt.text) =
      (optionOf options c).map fun o => (o.letter, o.hasArg) := by
  induction options with
  | nil => rfl
  | cons o rest ih =>
      have hne := (hletters o List.mem_cons_self).ne
      have hrest : ∀ o ∈ rest, IsOptionLetter o.letter :=
        fun o ho => hletters o (List.mem_cons_of_mem _ ho)
      have hcolon := (headD_options hrest).1
      have hhas : ((if o.hasArg then [colon] else []) ++
          rest.flatMap Opt.text).headD 0 = colon ↔ o.hasArg = true := by
        cases o.hasArg with
        | true => simp
        | false => simpa using hcolon
      have hskip : getoptOptCharSkipLen c (o.letter ::
          ((if o.hasArg then [colon] else []) ++ rest.flatMap Opt.text)) =
          if c = o.letter then 0 else if o.hasArg then 2 else 1 := by
        unfold getoptOptCharSkipLen
        rw [List.headD_cons, if_neg (by simp [hne]), List.getD_cons_succ,
          ← List.headD_eq_getD]
        simp only [hhas, ite_not]
      have htext : (o :: rest).flatMap Opt.text =
          o.letter :: ((if o.hasArg then [colon] else []) ++
            rest.flatMap Opt.text) := rfl
      rw [htext, matchOption, if_neg hne.1, hskip]
      by_cases hc : c = o.letter
      · have hfind : optionOf (o :: rest) c = some o := by
          simp [optionOf, hc]
        rw [if_pos hc, hfind]
        simp only [hhas, Bool.decide_eq_true, Option.map_some]
      · have hfind : optionOf (o :: rest) c = optionOf rest c := by
          simp [optionOf, Ne.symm hc]
        rw [if_neg hc, hfind, ← ih hrest]
        cases o.hasArg <;> rfl

end Options

/-! ## One call -/

section Calls

variable {s : OptString} {argv : List Text} {g after : Globals} {i : ℕ}
  {arg done rest : Text} {c : BitVec 8}

theorem charAt_append (front back : Text) :
    charAt (front ++ back) front.length = .ok (back.headD 0) := by
  rw [charAt, if_pos (by simp), List.getD_append_right _ _ _ _ le_rfl,
    Nat.sub_self, ← List.headD_eq_getD]

/-- The next option is at `c`, behind the characters `done` of the element
with index `i`. -/
structure Inside (argv : List Text) (g : Globals) (i : ℕ)
    (arg done : Text) (c : BitVec 8) (rest : Text) : Prop where
  element : argv[i]? = some arg
  split : arg = dash :: (done ++ c :: rest)
  options : IsOptions arg
  nul : 0 ∉ arg
  optind_eq : g.optind = i
  position : g.nextCharIdx = done.length + 1

theorem Inside.charAt (h : Inside argv g i arg done c rest) :
    charAt arg g.nextCharIdx = .ok c := by
  have hchar := charAt_append (dash :: done) (c :: rest)
  rw [h.position, h.split]
  exact hchar

theorem Inside.split_next (h : Inside argv g i arg done c rest) :
    arg = (dash :: (done ++ [c])) ++ rest := by
  simp [h.split]

theorem Inside.charAt_next (h : Inside argv g i arg done c rest) :
    Getopt.charAt arg (g.nextCharIdx + 1) = .ok (rest.headD 0) := by
  have hchar := charAt_append (dash :: (done ++ [c])) rest
  rw [List.length_cons, List.length_append, List.length_singleton] at hchar
  rw [h.position, h.split_next]
  exact hchar

theorem Inside.drop_next (h : Inside argv g i arg done c rest) :
    arg.drop (g.nextCharIdx + 1) = rest := by
  rw [h.split_next, List.drop_left' (by simp [h.position])]

theorem Inside.next_eq_zero (h : Inside argv g i arg done c rest) :
    rest.headD 0 = 0 ↔ rest = [] := by
  cases rest with
  | nil => simp
  | cons c' rest =>
      have hne : c' ≠ 0 := by
        rintro rfl
        exact h.nul (by simp [h.split])
      simpa using hne

theorem OptString.text_parts (s : OptString) :
    let text := s.text
    let text := if text.headD 0 = plus then text.tail else text
    (decide (text.headD 0 = colon) = s.silent) ∧
      (if text.headD 0 = colon then text.tail else text) =
        s.options.flatMap Opt.text := by
  obtain ⟨hcolon, hplus⟩ := headD_options s.letters
  unfold OptString.text
  cases s.hasPlus <;> cases s.silent <;>
    simp_all [colon, plus]

theorem getopt_eq (h : argv[g.optind]? = some arg) :
    getopt g argv s.text =
      if arg.headD 0 ≠ dash ∨ kstrcmp arg [dash] = 0 then
        .ok (⟨-1, none⟩, g)
      else if kstrcmp arg [dash, dash] = 0 then
        .ok (⟨-1, none⟩, getoptNextarg g)
      else
        getoptIn g argv arg (s.options.flatMap Opt.text)
          (!s.silent && g.opterr ≠ 0) := by
  obtain ⟨hlt, -⟩ := List.getElem?_eq_some_iff.1 h
  obtain ⟨hsilent, htext⟩ := s.text_parts
  have harg : argAt argv g.optind = .ok arg := by rw [argAt, h]
  unfold getopt
  rw [if_neg (by omega)]
  simp only [harg, ok_bind]
  simp only [htext, hsilent]

theorem Inside.getopt_eq (h : Inside argv g i arg done c rest) :
    getopt g argv s.text =
      getoptIn g argv arg (s.options.flatMap Opt.text)
        (!s.silent && g.opterr ≠ 0) := by
  have helement : argv[g.optind]? = some arg := by
    rw [h.optind_eq]
    exact h.element
  obtain ⟨hdash, hone, htwo⟩ := h.options
  have hne := Vfs.kstrcmp_eq_zero h.nul (show 0 ∉ [dash] by decide)
  have hne' := Vfs.kstrcmp_eq_zero h.nul (show 0 ∉ [dash, dash] by decide)
  have hdashed : ¬(arg.headD 0 ≠ dash ∨ kstrcmp arg [dash] = 0) :=
    fun hor => hor.elim (fun hhead => hhead hdash)
      (fun hzero => hone (hne.1 hzero))
  rw [Getopt.getopt_eq helement, if_neg hdashed,
    if_neg (fun hzero => htwo (hne'.1 hzero))]

/-- A call which gives what is prescribed and is not the last one. -/
structure Gives (s : OptString) (argv : List Text) (g after : Globals)
    (o : Outcome) : Prop where
  call_eq : ∃ printed, getopt g argv s.text = .ok (⟨o.value, printed⟩, after)
  agrees : Agrees (o.value, after) o
  value_ne : o.value ≠ -1
  opterr_eq : after.opterr = g.opterr

/-- The position behind an option character whose argument is not taken. -/
structure Proceeds (g after : Globals) (i : ℕ) (rest : Text) : Prop where
  optind_eq : after.optind = if rest = [] then i + 1 else i
  position : after.nextCharIdx =
    if rest = [] then 1 else g.nextCharIdx + 1

def proceed (g : Globals) (rest : Text) : Globals :=
  let g := { g with nextCharIdx := g.nextCharIdx + 1 }
  if rest.headD 0 = 0 then getoptNextarg g else g

theorem proceed_keeps (g : Globals) (rest : Text) :
    (proceed g rest).optarg = g.optarg ∧ (proceed g rest).optopt = g.optopt ∧
      (proceed g rest).opterr = g.opterr := by
  unfold proceed getoptNextarg
  dsimp only
  split <;> exact ⟨rfl, rfl, rfl⟩

theorem Inside.proceeds (h : Inside argv g i arg done c rest)
    (optopt : ℤ) :
    Proceeds g (proceed { g with optopt := optopt } rest) i rest := by
  unfold proceed getoptNextarg
  constructor <;> simp only [h.next_eq_zero] <;> split <;>
    simp [h.optind_eq]

theorem reportError_eq (g : Globals) (program : Text) (printErr : Bool)
    (errmsg : String) (resultOpt : ℤ) :
    ∃ printed, reportError g program printErr errmsg resultOpt =
      (⟨if printErr then question.toInt else resultOpt, printed⟩, g) := by
  cases printErr <;> exact ⟨_, rfl⟩

theorem natCast_ne_neg_one (n : ℕ) : (n : ℤ) ≠ -1 := by omega

theorem Inside.unknown (h : Inside argv g i arg done c rest)
    (hoption : optionOf s.options c = none) :
    ∃ after, Proceeds g after i rest ∧
      Gives s argv g after ⟨question.toNat, none, some c.toNat,
        if rest = [] then i + 1 else i⟩ := by
  have hmatch : matchOption c 0 (s.options.flatMap Opt.text) = none := by
    rw [matchOption_options s.letters, hoption, Option.map_none]
  have hproceeds := h.proceeds c.toNat
  obtain ⟨-, hoptopt, hopterr⟩ := proceed_keeps
    { g with optopt := c.toNat } rest
  obtain ⟨printed, hreport⟩ := reportError_eq
    (proceed { g with optopt := c.toNat } rest) (argv.headD [])
    (!s.silent && decide (g.opterr ≠ 0)) "invalid option" question.toInt
  refine ⟨_, hproceeds, ⟨printed, ?_⟩, ⟨rfl, hproceeds.optind_eq, ?_, ?_⟩,
    natCast_ne_neg_one _, hopterr⟩
  · rw [ite_self] at hreport
    rw [h.getopt_eq, getoptIn, h.charAt, ok_bind, hmatch]
    dsimp only
    rw [h.charAt_next, ok_bind]
    exact congrArg Except.ok hreport
  · intro arg harg
    cases harg
  · rintro optopt ⟨⟩
    exact hoptopt

theorem Inside.plain (h : Inside argv g i arg done c rest) {letter : BitVec 8}
    (hoption : optionOf s.options c = some ⟨letter, false⟩) :
    ∃ after, Proceeds g after i rest ∧
      Gives s argv g after ⟨c.toNat, none, none,
        if rest = [] then i + 1 else i⟩ := by
  obtain ⟨hmem, hletter⟩ := optionOf_letter hoption
  have hmatch : matchOption c 0 (s.options.flatMap Opt.text) =
      some (c, false) := by
    rw [matchOption_options s.letters, hoption, Option.map_some]
    exact congrArg (fun c => some (c, false)) hletter
  have hc : c.toInt = c.toNat := by
    rw [← hletter]
    exact (s.letters _ hmem).toInt_eq
  have hproceeds := h.proceeds g.optopt
  refine ⟨_, hproceeds, ⟨none, ?_⟩, ⟨rfl, hproceeds.optind_eq, ?_, ?_⟩,
    natCast_ne_neg_one _, (proceed_keeps g rest).2.2⟩
  · rw [h.getopt_eq, getoptIn, h.charAt, ok_bind, hmatch]
    dsimp only
    rw [h.charAt_next, ok_bind, hc]
    rfl
  · intro arg harg
    cases harg
  · intro optopt hoptopt
    cases hoptopt

/-- The globals once an argument of the option is there. -/
def taken (g : Globals) (value : Text) (elements : ℕ) : Globals :=
  ⟨some value, g.opterr, g.optind + elements, g.optopt, 1⟩

theorem Inside.withArg (h : Inside argv g i arg done c rest)
    {letter : BitVec 8}
    (hoption : optionOf s.options c = some ⟨letter, true⟩) :
    c.toInt = c.toNat ∧ getopt g argv s.text =
      (getoptGetArg g argv arg g.nextCharIdx c).bind fun (found, after) =>
        if found then .ok (⟨c.toNat, none⟩, after)
        else .ok (reportError after (argv.headD [])
          (!s.silent && g.opterr ≠ 0) "option requires an argument"
          colon.toInt) := by
  obtain ⟨hmem, hletter⟩ := optionOf_letter hoption
  have hmatch : matchOption c 0 (s.options.flatMap Opt.text) =
      some (c, true) := by
    rw [matchOption_options s.letters, hoption, Option.map_some]
    exact congrArg (fun c => some (c, true)) hletter
  have hc : c.toInt = c.toNat := by
    rw [← hletter]
    exact (s.letters _ hmem).toInt_eq
  refine ⟨hc, ?_⟩
  rw [h.getopt_eq, getoptIn, h.charAt, ok_bind, hmatch]
  dsimp only
  rw [hc]
  rfl

theorem gives_taken {value : Text} {elements : ℕ} (hi : g.optind = i)
    (hcall : getopt g argv s.text =
      .ok (⟨c.toNat, none⟩, taken g value elements)) :
    Gives s argv g (taken g value elements)
      ⟨c.toNat, some value, none, i + elements⟩ := by
  refine ⟨⟨none, hcall⟩, ⟨rfl, ?_, ?_, ?_⟩, natCast_ne_neg_one _, rfl⟩
  · exact congrArg (· + elements) hi
  · rintro value ⟨⟩
    rfl
  · intro optopt hoptopt
    cases hoptopt

theorem Inside.attached (h : Inside argv g i arg done c rest)
    {letter : BitVec 8}
    (hoption : optionOf s.options c = some ⟨letter, true⟩)
    (hrest : rest ≠ []) :
    Gives s argv g (taken g rest 1) ⟨c.toNat, some rest, none, i + 1⟩ := by
  obtain ⟨-, hcall⟩ := h.withArg hoption
  refine gives_taken h.optind_eq (hcall.trans ?_)
  have hnext : rest.headD 0 ≠ 0 := fun hzero => hrest (h.next_eq_zero.1 hzero)
  have hget : getoptGetArg g argv arg g.nextCharIdx c =
      .ok (true, taken g rest 1) := by
    unfold getoptGetArg
    rw [h.charAt_next, ok_bind, if_neg hnext, h.drop_next]
    rfl
  rw [hget]
  rfl

theorem Inside.separate (h : Inside argv g i arg done c [])
    {letter : BitVec 8} {value : Text}
    (hoption : optionOf s.options c = some ⟨letter, true⟩)
    (hvalue : argv[i + 1]? = some value) :
    Gives s argv g (taken g value 2) ⟨c.toNat, some value, none, i + 2⟩ := by
  obtain ⟨-, hcall⟩ := h.withArg hoption
  refine gives_taken h.optind_eq (hcall.trans ?_)
  obtain ⟨hlt, -⟩ := List.getElem?_eq_some_iff.1 hvalue
  have hroom : ¬argv.length < g.optind + 2 := by
    rw [h.optind_eq]
    omega
  have harg : argAt argv (g.optind + 1) = .ok value := by
    rw [argAt, h.optind_eq, hvalue]
  have hget : getoptGetArg g argv arg g.nextCharIdx c =
      .ok (true, taken g value 2) := by
    unfold getoptGetArg
    rw [h.charAt_next, ok_bind, List.headD_nil, if_pos rfl, if_neg hroom, harg]
    rfl
  rw [hget]
  rfl

/-- The standard wants a question mark when the colon in the option string is
missing; `getopt` gives one only when it prints a message too. -/
def missingValue (s : OptString) (opterr : ℤ) : ℤ :=
  if !s.silent && opterr ≠ 0 then question.toNat else colon.toNat

theorem Inside.missing (h : Inside argv g i arg done c [])
    {letter : BitVec 8}
    (hoption : optionOf s.options c = some ⟨letter, true⟩)
    (hend : argv.length = i + 1) :
    ∃ after, after.nextCharIdx = 1 ∧
      Gives s argv g after
        ⟨missingValue s g.opterr, none, some c.toNat, i + 1⟩ := by
  obtain ⟨hc, hcall⟩ := h.withArg hoption
  have hroom : argv.length < g.optind + 2 := by
    rw [h.optind_eq]
    omega
  have hget : getoptGetArg g argv arg g.nextCharIdx c =
      .ok (false, { getoptNextarg g with optopt := c.toInt }) := by
    unfold getoptGetArg
    rw [h.charAt_next, ok_bind, List.headD_nil, if_pos rfl, if_pos hroom]
  obtain ⟨printed, hreport⟩ := reportError_eq
    { getoptNextarg g with optopt := c.toInt } (argv.headD [])
    (!s.silent && decide (g.opterr ≠ 0)) "option requires an argument"
    colon.toInt
  refine ⟨{ getoptNextarg g with optopt := c.toInt }, rfl, ⟨printed, ?_⟩,
    ⟨rfl, ?_, ?_, ?_⟩, ?_, rfl⟩
  · rw [hcall, hget]
    exact congrArg Except.ok hreport
  · exact congrArg (· + 1) h.optind_eq
  · intro arg harg
    cases harg
  · rintro optopt ⟨⟩
    exact hc
  · unfold missingValue
    split <;> exact natCast_ne_neg_one _

theorem getopt_end (h : argv.length ≤ g.optind) :
    getopt g argv s.text = .ok (⟨-1, none⟩, g) := by
  unfold getopt
  rw [if_pos h]

theorem getopt_operand (h : argv[g.optind]? = some arg) (hnul : 0 ∉ arg)
    (hoptions : ¬IsOptions arg) :
    getopt g argv s.text = .ok (⟨-1, none⟩,
      if arg = [dash, dash] then getoptNextarg g else g) := by
  have hone := Vfs.kstrcmp_eq_zero hnul (show 0 ∉ [dash] by decide)
  have htwo := Vfs.kstrcmp_eq_zero hnul (show 0 ∉ [dash, dash] by decide)
  rw [getopt_eq h]
  by_cases hdashes : arg = [dash, dash]
  · have hzero := htwo.2 hdashes
    subst hdashes
    rfl
  · have hfirst : arg.headD 0 ≠ dash ∨ kstrcmp arg [dash] = 0 := by
      rw [hone]
      by_contra hnot
      rw [not_or, not_not] at hnot
      exact hoptions ⟨hnot.1, hnot.2, hdashes⟩
    rw [if_pos hfirst, if_neg hdashes]

end Calls

/-! ## All calls -/

section Runs

variable {s : OptString} {argv : List Text} {g after : Globals} {i : ℕ}
  {arg done rest : Text} {c : BitVec 8} {o : Outcome} {os : List Outcome}

/-- The calls from here on give what is prescribed, and end. -/
def Runs (s : OptString) (argv : List Text) (g : Globals)
    (os : List Outcome) : Prop :=
  ∃ calls, List.Forall₂ Agrees calls os ∧
    ∀ n, calls.length ≤ n → getoptCalls argv s.text n g = .ok calls

theorem Gives.runs (h : Gives s argv g after o) (hrest : Runs s argv after os) :
    Runs s argv g (o :: os) := by
  obtain ⟨printed, hcall⟩ := h.call_eq
  obtain ⟨calls, hagrees, hcalls⟩ := hrest
  refine ⟨(o.value, after) :: calls, .cons h.agrees hagrees, ?_⟩
  intro n hn
  cases n with
  | zero => exact absurd hn (Nat.not_succ_le_zero _)
  | succ n =>
      rw [getoptCalls, hcall, ok_bind]
      dsimp only
      rw [if_neg h.value_ne, hcalls n (Nat.le_of_succ_le_succ hn)]
      rfl

theorem runs_last (hcall : getopt g argv s.text = .ok (⟨-1, none⟩, after))
    (hi : after.optind = i) : Runs s argv g [⟨-1, none, none, i⟩] := by
  refine ⟨[(-1, after)], .cons ⟨rfl, hi, ?_, ?_⟩ .nil, ?_⟩
  · intro arg harg
    cases harg
  · intro optopt hoptopt
    cases hoptopt
  · intro n hn
    cases n with
    | zero => exact absurd hn (Nat.not_succ_le_zero _)
    | succ n =>
        rw [getoptCalls, hcall, ok_bind]
        rfl

/-- The next character of the same element. -/
theorem Inside.next {c' : BitVec 8}
    (h : Inside argv g i arg done c (c' :: rest))
    (hafter : Proceeds g after i (c' :: rest)) :
    Inside argv after i arg (done ++ [c]) c' rest where
  element := h.element
  split := by simp [h.split]
  options := h.options
  nul := h.nul
  optind_eq := by rw [hafter.optind_eq, if_neg (List.cons_ne_nil _ _)]
  position := by
    rw [hafter.position, if_neg (List.cons_ne_nil _ _), h.position,
      List.length_append, List.length_singleton]

/-- An option whose argument is not taken is passed. -/
theorem Inside.passes (h : Inside argv g i arg done c rest)
    (hoption : ∀ letter, optionOf s.options c ≠ some ⟨letter, true⟩) :
    ∃ o after, Proceeds g after i rest ∧ Gives s argv g after o ∧
      elementOutcomes s.options i (c :: rest) =
        o :: elementOutcomes s.options i rest ∧
      wanting s.options (c :: rest) = wanting s.options rest := by
  match hfound : optionOf s.options c with
  | none =>
      obtain ⟨after, hafter, hgives⟩ := h.unknown hfound
      exact ⟨_, after, hafter, hgives, by rw [elementOutcomes, hfound],
        by rw [wanting, hfound]⟩
  | some ⟨letter, false⟩ =>
      obtain ⟨after, hafter, hgives⟩ := h.plain hfound
      exact ⟨_, after, hafter, hgives, by rw [elementOutcomes, hfound],
        by rw [wanting, hfound]⟩
  | some ⟨letter, true⟩ => exact absurd hfound (hoption letter)

/-- An option which takes its argument, when it is attached or looked for in
the next element. -/
theorem Inside.runs_withArg {letter : BitVec 8}
    (h : Inside argv g i arg done c rest)
    (hoption : optionOf s.options c = some ⟨letter, true⟩)
    (hnext : wanting s.options (c :: rest) = none → ∀ after,
      after.optind = i + 1 → after.nextCharIdx = 1 →
        after.opterr = g.opterr → Runs s argv after os)
    (hwant : rest = [] → wanting s.options [c] = some c →
      Runs s argv g os) :
    Runs s argv g (elementOutcomes s.options i (c :: rest) ++ os) := by
  rw [elementOutcomes, hoption]
  dsimp only
  split
  next hrest =>
    refine hwant hrest ?_
    rw [wanting, hoption]
    rfl
  next hrest =>
    have hgives := h.attached hoption hrest
    refine hgives.runs (hnext ?_ _ (congrArg (· + 1) h.optind_eq) rfl rfl)
    rw [wanting, hoption]
    exact if_neg hrest

/-- The calls for one element, up to the next element or to a last option
which takes an argument. -/
theorem Inside.runs (h : Inside argv g i arg done c rest)
    (hnext : wanting s.options (c :: rest) = none → ∀ after,
      after.optind = i + 1 → after.nextCharIdx = 1 →
        after.opterr = g.opterr → Runs s argv after os)
    (hwant : ∀ last, wanting s.options (c :: rest) = some last →
      ∀ g' done' letter, Inside argv g' i arg done' last [] →
        optionOf s.options last = some ⟨letter, true⟩ →
          g'.opterr = g.opterr → Runs s argv g' os) :
    Runs s argv g (elementOutcomes s.options i (c :: rest) ++ os) := by
  induction rest generalizing g done c with
  | nil =>
      by_cases hoption : ∃ letter, optionOf s.options c = some ⟨letter, true⟩
      · obtain ⟨letter, hoption⟩ := hoption
        refine h.runs_withArg hoption hnext fun _ hlast => ?_
        exact hwant c hlast g done letter h hoption rfl
      · rw [not_exists] at hoption
        obtain ⟨o, after, hafter, hgives, houtcomes, hwanting⟩ :=
          h.passes hoption
        rw [houtcomes]
        exact hgives.runs (hnext hwanting after hafter.optind_eq
          hafter.position hgives.opterr_eq)
  | cons c' rest ih =>
      by_cases hoption : ∃ letter, optionOf s.options c = some ⟨letter, true⟩
      · obtain ⟨letter, hoption⟩ := hoption
        exact h.runs_withArg hoption hnext fun hrest =>
          absurd hrest (List.cons_ne_nil c' rest)
      · rw [not_exists] at hoption
        obtain ⟨o, after, hafter, hgives, houtcomes, hwanting⟩ :=
          h.passes hoption
        rw [houtcomes]
        rw [hwanting, ← hgives.opterr_eq] at hnext
        rw [hwanting, ← hgives.opterr_eq] at hwant
        exact hgives.runs (ih (h.next hafter) hnext hwant)

theorem IsOptions.eq_cons (h : IsOptions arg) :
    ∃ c rest, arg = dash :: c :: rest := by
  obtain ⟨hdash, hone, -⟩ := h
  match arg with
  | [] => exact absurd hdash (by decide)
  | [first] => exact absurd (congrArg (fun c => [c]) hdash) hone
  | first :: c :: rest =>
      have hfirst : first = dash := hdash
      exact ⟨c, rest, by rw [hfirst]⟩

/-- The calls from the start of an element on. -/
theorem runs_outcomes {args : List Text} (hargs : argv.drop i = args)
    (hnul : ∀ arg ∈ args, 0 ∉ arg) (hi : g.optind = i)
    (hposition : g.nextCharIdx = 1) :
    Runs s argv g
      (outcomes s.options (missingValue s g.opterr) i args) := by
  have helement : ∀ {j arg rest}, argv.drop j = arg :: rest →
      argv[j]? = some arg ∧ argv.drop (j + 1) = rest := by
    intro j arg rest hdrop
    rw [← List.head?_drop, ← List.tail_drop, hdrop]
    exact ⟨rfl, rfl⟩
  have hinside : ∀ {j arg rest} {g : Globals}, argv.drop j = arg :: rest →
      0 ∉ arg → IsOptions arg → g.optind = j → g.nextCharIdx = 1 →
        ∃ c tail, arg.tail = c :: tail ∧ Inside argv g j arg [] c tail := by
    intro j arg rest g hdrop hnul hoptions hj hposition
    obtain ⟨c, tail, hsplit⟩ := hoptions.eq_cons
    exact ⟨c, tail, by rw [hsplit, List.tail_cons], (helement hdrop).1, hsplit,
      hoptions, hnul, hj, hposition⟩
  induction i, args using elements_induction s.options generalizing g with
  | nil i =>
      have hend : argv.length ≤ g.optind := by
        rw [hi]
        exact List.drop_eq_nil_iff.1 hargs
      exact runs_last (getopt_end hend) hi
  | next i arg rest hoptions hwanting ih =>
      rw [List.forall_mem_cons] at hnul
      obtain ⟨c, tail, htail, hin⟩ :=
        hinside hargs hnul.1 hoptions hi hposition
      rw [outcomes_next hoptions hwanting]
      rw [htail] at hwanting ⊢
      refine hin.runs ?_ ?_
      · intro _ after hafter hpos hopterr
        rw [← hopterr]
        exact ih (helement hargs).2 hnul.2 hafter hpos
      · intro last hlast
        rw [hwanting] at hlast
        cases hlast
  | missing i arg c' hoptions hwanting =>
      obtain ⟨c, tail, htail, hin⟩ :=
        hinside hargs (hnul arg List.mem_cons_self) hoptions hi hposition
      have hend : argv.length = i + 1 := by
        have hlt := (List.getElem?_eq_some_iff.1 (helement hargs).1).1
        have hle := List.drop_eq_nil_iff.1 (helement hargs).2
        omega
      rw [outcomes_missing hoptions hwanting]
      rw [htail] at hwanting ⊢
      refine hin.runs ?_ ?_
      · intro hnone
        rw [hwanting] at hnone
        cases hnone
      · rintro last hlast g' done' letter hinside' hoption hopterr
        obtain rfl : c' = last := Option.some.inj (hwanting.symm.trans hlast)
        obtain ⟨after, hpos, hgives⟩ := hinside'.missing hoption hend
        have hlast := hgives.agrees.optind_eq
        rw [← hopterr]
        exact hgives.runs (runs_last (getopt_end (hend.le.trans hlast.ge))
          hlast)
  | separate i arg c' value rest hoptions hwanting ih =>
      rw [List.forall_mem_cons, List.forall_mem_cons] at hnul
      obtain ⟨c, tail, htail, hin⟩ :=
        hinside hargs hnul.1 hoptions hi hposition
      obtain ⟨hvalue, hrest⟩ := helement (helement hargs).2
      rw [outcomes_separate hoptions hwanting]
      rw [htail] at hwanting ⊢
      refine hin.runs ?_ ?_
      · intro hnone
        rw [hwanting] at hnone
        cases hnone
      · rintro last hlast g' done' letter hinside' hoption hopterr
        obtain rfl : c' = last := Option.some.inj (hwanting.symm.trans hlast)
        have hgives := hinside'.separate hoption hvalue
        rw [← hopterr, ← hgives.opterr_eq]
        rw [← hgives.opterr_eq] at hopterr
        exact hgives.runs (ih hrest hnul.2.2 hgives.agrees.optind_eq rfl)
  | operand i arg rest hoptions =>
      have harg : argv[g.optind]? = some arg := by
        rw [hi]
        exact (helement hargs).1
      rw [outcomes_operand hoptions]
      refine runs_last (getopt_operand harg
        (hnul arg List.mem_cons_self) hoptions) ?_
      split
      · exact congrArg (· + 1) hi
      · exact hi

end Runs

/-! ## The missing argument -/

section Missing

variable {options : List Opt} {missing missing' : ℤ} {i : ℕ}
  {args : List Text}

theorem length_elementOutcomes (options : List Opt) (i : ℕ) (cs : Text) :
    (elementOutcomes options i cs).length +
      (if wanting options cs = none then 0 else 1) ≤ cs.length := by
  induction cs with
  | nil => rfl
  | cons c rest ih =>
      unfold elementOutcomes wanting
      match optionOf options c with
      | none =>
          dsimp only
          rw [List.length_cons, List.length_cons]
          omega
      | some ⟨_, false⟩ =>
          dsimp only
          rw [List.length_cons, List.length_cons]
          omega
      | some ⟨_, true⟩ =>
          dsimp only
          by_cases hrest : rest = []
          · simp [hrest]
          · simp [hrest]

/-- There is a call for each option character at most, and one more. -/
theorem length_outcomes (options : List Opt) (missing : ℤ) (i : ℕ)
    (args : List Text) :
    (outcomes options missing i args).length ≤ optionCharacters args + 1 := by
  have hcons : ∀ arg rest, optionCharacters (arg :: rest) =
      arg.tail.length + optionCharacters rest := by
    intro arg rest
    rw [List.length_tail]
    rfl
  induction i, args using elements_induction options with
  | nil i => exact le_rfl
  | next i arg rest hoptions hwanting ih =>
      have hlength := length_elementOutcomes options i arg.tail
      rw [outcomes_next hoptions hwanting, List.length_append, hcons]
      omega
  | missing i arg c hoptions hwanting =>
      have hlength := length_elementOutcomes options i arg.tail
      rw [hwanting, if_neg (Option.some_ne_none c)] at hlength
      rw [outcomes_missing hoptions hwanting, List.length_append, hcons]
      simp only [List.length_cons, List.length_nil]
      omega
  | separate i arg c value rest hoptions hwanting ih =>
      have hlength := length_elementOutcomes options i arg.tail
      rw [hwanting, if_neg (Option.some_ne_none c)] at hlength
      rw [outcomes_separate hoptions hwanting, List.length_append, hcons,
        hcons, List.length_cons]
      omega
  | operand i arg rest hoptions =>
      rw [outcomes_operand hoptions]
      exact Nat.le_add_left 1 _

theorem outcomes_of_not_missing (h : ¬MissesArgument options args) :
    outcomes options missing i args = outcomes options missing' i args := by
  induction i, args using elements_induction options with
  | nil i => rfl
  | next i arg rest hoptions hwanting ih =>
      have hrest : ¬MissesArgument options rest := by
        simpa [MissesArgument, hoptions, hwanting] using h
      rw [outcomes_next hoptions hwanting, outcomes_next hoptions hwanting,
        ih hrest]
  | missing i arg c hoptions hwanting =>
      simp [MissesArgument, hoptions, hwanting] at h
  | separate i arg c value rest hoptions hwanting ih =>
      have hrest : ¬MissesArgument options rest := by
        simpa [MissesArgument, hoptions, hwanting] using h
      rw [outcomes_separate hoptions hwanting,
        outcomes_separate hoptions hwanting, ih hrest]
  | operand i arg rest hoptions =>
      rw [outcomes_operand hoptions, outcomes_operand hoptions]

/-- A missing argument is seen in the returned values. -/
theorem missing_eq_of_values (h : MissesArgument options args)
    (hvalues : (outcomes options missing i args).map Outcome.value =
      (outcomes options missing' i args).map Outcome.value) :
    missing = missing' := by
  induction i, args using elements_induction options with
  | nil i => cases h
  | next i arg rest hoptions hwanting ih =>
      have hrest : MissesArgument options rest := by
        simpa [MissesArgument, hoptions, hwanting] using h
      rw [outcomes_next hoptions hwanting, outcomes_next hoptions hwanting,
        List.map_append, List.map_append] at hvalues
      exact ih hrest (List.append_cancel_left hvalues)
  | missing i arg c hoptions hwanting =>
      rw [outcomes_missing hoptions hwanting,
        outcomes_missing hoptions hwanting, List.map_append,
        List.map_append] at hvalues
      exact (List.cons_eq_cons.1 (List.append_cancel_left hvalues)).1
  | separate i arg c value rest hoptions hwanting ih =>
      have hrest : MissesArgument options rest := by
        simpa [MissesArgument, hoptions, hwanting] using h
      rw [outcomes_separate hoptions hwanting,
        outcomes_separate hoptions hwanting, List.map_append,
        List.map_append] at hvalues
      have htail := List.append_cancel_left hvalues
      exact ih hrest (List.cons_eq_cons.1 htail).2
  | operand i arg rest hoptions =>
      unfold MissesArgument at h
      exact absurd h.1 hoptions

theorem values_eq {calls : List (ℤ × Globals)} {os : List Outcome}
    (h : List.Forall₂ Agrees calls os) :
    os.map Outcome.value = calls.map Prod.fst := by
  induction h with
  | nil => rfl
  | cons hagrees _ ih => rw [List.map_cons, List.map_cons, hagrees.value_eq, ih]

/-- The calls give what the standard prescribes, except that a missing
argument gives a colon where no message is printed. -/
theorem conforms_iff (s : OptString) (argv : List Text)
    (hnul : ∀ arg ∈ argv, 0 ∉ arg) (opterr : ℤ) :
    Conforms s argv opterr ↔
      (opterr ≠ 0 ∨ s.silent = true ∨
        ¬MissesArgument s.options argv.tail) := by
  have hargs : argv.drop 1 = argv.tail := List.drop_one
  have hnul' : ∀ arg ∈ argv.tail, 0 ∉ arg :=
    fun arg harg => hnul arg (List.mem_of_mem_tail harg)
  obtain ⟨calls, hagrees, hcalls⟩ := runs_outcomes
    (g := { initialGlobals with opterr := opterr }) hargs hnul' rfl rfl
  have hlength : calls.length ≤ optionCharacters argv.tail + 1 := by
    rw [hagrees.length_eq]
    exact length_outcomes ..
  have hrun := hcalls _ hlength
  constructor
  · rintro ⟨calls', hrun', hagrees'⟩
    obtain rfl : calls = calls' := Except.ok.inj (hrun.symm.trans hrun')
    by_contra hnot
    simp only [not_or, not_not, Bool.not_eq_true] at hnot
    obtain ⟨rfl, hsilent, hmisses⟩ := hnot
    have hvalues := (values_eq hagrees).trans (values_eq hagrees').symm
    have hmissing := missing_eq_of_values hmisses hvalues
    rw [missingValue, hsilent] at hmissing
    exact absurd hmissing (by decide)
  · intro h
    refine ⟨calls, hrun, ?_⟩
    by_cases hmisses : MissesArgument s.options argv.tail
    · have hmissing : missingValue s opterr =
          if s.silent then (colon.toNat : ℤ) else question.toNat := by
        unfold missingValue
        cases hsilent : s.silent with
        | true => rfl
        | false =>
            have hopterr : opterr ≠ 0 := by simpa [hsilent, hmisses] using h
            simp [hopterr]
      rw [prescribed, ← hmissing]
      exact hagrees
    · rw [prescribed, outcomes_of_not_missing hmisses]
      exact hagrees

/-- The options `ab:`. -/
def plainOptions : OptString :=
  ⟨false, false, [⟨0x61, false⟩, ⟨0x62, true⟩], by decide⟩

/-- `p -ab x y`, with messages. -/
theorem conforms_clustered :
    Conforms plainOptions [[0x70], [0x2d, 0x61, 0x62], [0x78], [0x79]] 1 :=
  (conforms_iff plainOptions _ (by decide) 1).2 (Or.inl (by decide))

/-- `p -b` without messages gives a colon. -/
theorem not_conforms_silenced :
    ¬Conforms plainOptions [[0x70], [0x2d, 0x62]] 0 := by
  rintro ⟨calls, hrun, hagrees⟩
  have hcalls : getoptCalls [[0x70], [0x2d, 0x62]] plainOptions.text 2
      { initialGlobals with opterr := 0 } =
        .ok [(58, ⟨none, 0, 2, 0x62, 1⟩), (-1, ⟨none, 0, 2, 0x62, 1⟩)] := by
    decide
  obtain rfl := Except.ok.inj (hrun.symm.trans hcalls)
  exact absurd (values_eq hagrees) (by decide)

end Missing

end Getopt
end Yjkos
