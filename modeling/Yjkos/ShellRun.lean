import Yjkos.ShellArgv
import Yjkos.VfsPath

/-!
# Runs of command lines

The loop of the parser takes the words of a line one by one.  A line runs its
program and leaves the heap as it was, unless it starts with a semicolon or
has more words than an array can hold.
-/

namespace Yjkos
namespace ShellCmd

open Vfs (Text kstrcmp kstrncmp)
open Smatcher Smatcher.Matcher

/-! ## The matcher on words -/

def isWordChar (c : BitVec 8) : Bool := !isspace c

theorem drop_takeWhile_length (p : BitVec 8 → Bool) (s : Text) :
    s.drop (s.takeWhile p).length = s.dropWhile p := by
  have hdrop : (s.takeWhile p ++ s.dropWhile p).drop
      (s.takeWhile p).length = s.dropWhile p := List.drop_left
  rwa [List.takeWhile_append_dropWhile] at hdrop

theorem skipWhitespacesLoop_eq (s : Text) (i : ℕ) :
    skipWhitespacesLoop s i = i + (s.takeWhile isspace).length := by
  induction s generalizing i with
  | nil => rfl
  | cons c s ih =>
      rw [skipWhitespacesLoop]
      by_cases h : isspace c
      · rw [if_pos h, ih, List.takeWhile_cons_of_pos h, List.length_cons]
        omega
      · rw [if_neg h, List.takeWhile_cons_of_neg h]
        rfl

theorem consumeWordLoop_eq (s : Text) :
    consumeWordLoop s.length s = (s.takeWhile isWordChar).length := by
  induction s with
  | nil => rfl
  | cons c s ih =>
      rw [List.length_cons, consumeWordLoop, List.headD_cons, List.tail_cons]
      by_cases h : isspace c
      · rw [if_pos h, List.takeWhile_cons_of_neg (by simp [isWordChar, h])]
        rfl
      · rw [if_neg h, ih, List.takeWhile_cons_of_pos (by simp [isWordChar, h])]
        rfl

variable {m : Matcher}

theorem skipWhitespaces_whole (h : m.Whole) :
    (smatcherSkipWhitespaces m).Whole ∧
      (smatcherSkipWhitespaces m).rest = m.rest.dropWhile isspace := by
  have hskip : smatcherSkipWhitespaces m = { m with
      currentindex := m.currentindex + (m.rest.takeWhile isspace).length } := by
    rw [smatcherSkipWhitespaces, skipWhitespacesLoop_eq]
  rw [hskip]
  refine ⟨h.advance (List.takeWhile_prefix _).length_le, ?_⟩
  rw [← drop_takeWhile_length, Matcher.rest, Matcher.rest, List.drop_drop]

theorem rest_eq_nil_iff (h : m.Whole) :
    m.rest = [] ↔ m.currentindex = m.len := by
  have hlength := h.rest_length
  have hindex := h.index_le
  rw [← List.length_eq_zero_iff]
  omega

theorem kstrncmp_semicolon (c : BitVec 8) (r : Text) :
    kstrncmp (c :: r) [semicolon] 1 = 0 ↔ c = semicolon := by
  have hinj : c.toInt - semicolon.toInt = 0 ↔ c = semicolon := by
    rw [sub_eq_zero, BitVec.toInt_inj]
  rw [kstrncmp, List.headD_cons, List.headD_cons]
  by_cases h : c = semicolon
  · subst h
    simp [kstrncmp]
  · simp [h, hinj]

theorem consumeSemicolon_eq (h : m.Whole) {c : BitVec 8} {r : Text}
    (hrest : m.rest = c :: r) :
    smatcherConsumeStrIfMatch m [semicolon] =
      if c = semicolon then
        (true, { m with currentindex := m.currentindex + 1 })
      else (false, m) := by
  have hlen : ¬m.rest.length < kstrlen [semicolon] := by
    rw [hrest]
    simp [kstrlen, semicolon]
  rw [smatcherConsumeStrIfMatch, h.wrapSub_eq]
  simp only [if_neg hlen]
  rw [hrest]
  change (if kstrncmp (c :: r) [semicolon] 1 ≠ 0 then (false, m)
    else (true, { m with currentindex := m.currentindex + 1 })) = _
  simp only [ne_eq, kstrncmp_semicolon, ite_not]

theorem consumeWord_eq (h : m.Whole) {c : BitVec 8} {r : Text}
    (hrest : m.rest = c :: r) (hc : isspace c = false) :
    smatcherConsumeWord m =
      (some (m.currentindex, (m.rest.takeWhile isWordChar).length),
        { m with currentindex :=
          m.currentindex + (m.rest.takeWhile isWordChar).length }) := by
  have hne : m.currentindex ≠ m.len := by
    rw [Ne, ← rest_eq_nil_iff h, hrest]
    exact List.cons_ne_nil _ _
  have hhead : ¬(m.currentindex = m.len ∨ isspace (m.rest.headD 0) = true) := by
    rw [hrest, List.headD_cons, hc]
    simpa using hne
  rw [smatcherConsumeWord, if_neg hhead, ← h.rest_length, consumeWordLoop_eq]

/-! ## Arguments -/

theorem words_cons {c : BitVec 8} {r : Text} (hc : isspace c = false) :
    words (c :: r) = (c :: r).takeWhile isWordChar ::
      words ((c :: r).dropWhile isWordChar) := by
  have hchar : isWordChar c = true := by simp [isWordChar, hc]
  conv_lhs => rw [← List.takeWhile_append_dropWhile (p := isWordChar)
    (l := c :: r)]
  refine words_append ?_ ?_ ?_
  · rw [List.takeWhile_cons_of_pos hchar]
    exact List.cons_ne_nil _ _
  · intro d hd
    have hword := List.all_eq_true.1 List.all_takeWhile d hd
    simpa [isWordChar] using hword
  · intro d hd
    have hstop := List.head?_dropWhile_not isWordChar (c :: r)
    rw [hd] at hstop
    simpa [isWordChar] using hstop

theorem arguments_of_words {line : Text} {first : Text} {rest : List Text}
    (h : words line = first :: rest) :
    arguments line = if first.head? = some semicolon then []
      else first :: rest.takeWhile (fun word => word.head? ≠ some semicolon) := by
  rw [arguments, h, List.takeWhile_cons]
  by_cases hfirst : first.head? = some semicolon
  · simp [hfirst]
  · simp [hfirst]

theorem arguments_cons {line r : Text} {c : BitVec 8}
    (hline : line.dropWhile isspace = c :: r) :
    arguments line = if c = semicolon then []
      else (c :: r).takeWhile isWordChar ::
        arguments ((c :: r).dropWhile isWordChar) := by
  have hc : isspace c = false := by
    have hstop := List.head?_dropWhile_not isspace line
    rw [hline] at hstop
    simpa using hstop
  have hchar : isWordChar c = true := by simp [isWordChar, hc]
  have hwords := words_dropWhile line
  rw [hline, words_cons hc] at hwords
  rw [arguments_of_words hwords.symm]
  simp only [List.takeWhile_cons_of_pos hchar, List.head?_cons,
    Option.some_inj]
  rfl

theorem arguments_nil {line : Text} (hline : line.dropWhile isspace = []) :
    arguments line = [] := by
  rw [arguments, ← words_dropWhile, hline, words_nil]
  rfl

/-! ## Parsing -/

variable {allocator : Allocator} {before heap : Heap} {argv : ℕ}
  {ptrs : List ℕ} {args : List Text}

/-- How the loop leaves the vector: all arguments are in it, or there were
too many of them and the vector is lost. -/
inductive Parsed (before : Heap) (args : List Text) :
    LoopEnd × Matcher × Heap → Prop
  | done {heap : Heap} {argv : ℕ} {ptrs : List ℕ} {m : Matcher}
      (hcount : args.length < 1073741824)
      (hbuilt : Built before heap argv ptrs args) :
      Parsed before args (.done argv args.length, m, heap)
  | lost {heap : Heap} {argv count : ℕ} {ptrs : List ℕ} {m : Matcher}
      {kept : List Text} (hcount : 1073741824 ≤ args.length)
      (hholds : Holds before heap argv ptrs [] kept) :
      Parsed before args (.failAlloc 0 count, m, heap)

section Words

variable {fuel : ℕ} {c : BitVec 8} {r : Text}

/-- The loop body from a word on, when the rest of the loop does what it
should. -/
theorem parse_word (allocator : Allocator)
    (ih : ∀ {m : Matcher} {heap : Heap} {argv : ℕ} {ptrs : List ℕ}
      {args : List Text}, m.Whole → m.len + 1 < 4294967296 →
      m.rest.length < fuel → Built before heap argv ptrs args →
      args.length < 1073741824 →
      Returns (Parsed before (args ++ arguments m.rest))
        (parseLoop allocator fuel argv args.length m heap))
    (h : m.Whole) (hrest : m.rest = c :: r) (hc : isspace c = false)
    (hlen : m.len + 1 < 4294967296) (hfuel : (c :: r).length < fuel + 1)
    (hbuilt : Built before heap argv ptrs args)
    (hcount : args.length < 1073741824) :
    let word := (c :: r).takeWhile isWordChar
    Returns (Parsed before
        (args ++ word :: arguments ((c :: r).dropWhile isWordChar)))
      (do
        let (pushed, argv, heap) ← pushWord allocator argv args.length
          (m.str.drop m.currentindex) (m.rest.takeWhile isWordChar).length heap
        if pushed then
          parseLoop allocator fuel argv (args.length + 1)
            { m with currentindex :=
              m.currentindex + (m.rest.takeWhile isWordChar).length } heap
        else .ok (.failAlloc argv args.length,
          { m with currentindex :=
              m.currentindex + (m.rest.takeWhile isWordChar).length }, heap)) := by
  intro word
  have hword : m.rest.takeWhile isWordChar = word := by rw [hrest]
  have hlead : word <+: m.rest := by
    rw [← hword]
    exact List.takeWhile_prefix _
  have hle := hlead.length_le
  have htake : m.rest.take word.length = word :=
    (List.prefix_iff_eq_take.1 hlead).symm
  have hmrest := h.rest_length
  rw [hword]
  change Returns _ (pushWord allocator argv args.length m.rest word.length heap
    >>= _)
  rcases Nat.lt_or_ge (args.length + 1) 1073741824 with hroom | hfull
  · obtain ⟨argv', heap', ptr, hpush, hholds⟩ :=
      pushWord_built allocator hbuilt hroom hle (by omega)
    rw [htake] at hholds
    have hnext : Matcher.rest
        { m with currentindex := m.currentindex + word.length } =
        (c :: r).dropWhile isWordChar := by
      rw [← drop_takeWhile_length, ← hrest, hword, Matcher.rest, Matcher.rest,
        List.drop_drop]
    have hloop := ih (h.advance hle) hlen ?_ (.vector hholds)
      (by simpa using hroom)
    · rw [hnext, List.append_assoc, List.singleton_append, List.length_append,
        List.length_singleton] at hloop
      rw [hpush, ok_bind]
      exact hloop
    · have hchar : isWordChar c = true := by simp [isWordChar, hc]
      have hshort :=
        (List.dropWhile_suffix isWordChar : r.dropWhile _ <:+ _).length_le
      rw [hnext, List.dropWhile_cons_of_pos hchar]
      rw [List.length_cons] at hfuel
      omega
  · have hholds : Holds before heap argv ptrs [] args := by
      cases hbuilt with
      | nothing => exact absurd hfull (by decide)
      | vector hholds => exact hholds
    rw [pushWord_full allocator hholds (by omega), ok_bind]
    refine ⟨_, rfl, .lost ?_ hholds⟩
    rw [List.length_append, List.length_cons]
    omega

end Words

theorem parseLoop_parsed (allocator : Allocator) {fuel : ℕ} (h : m.Whole)
    (hlen : m.len + 1 < 4294967296) (hfuel : m.rest.length < fuel)
    (hbuilt : Built before heap argv ptrs args)
    (hcount : args.length < 1073741824) :
    Returns (Parsed before (args ++ arguments m.rest))
      (parseLoop allocator fuel argv args.length m heap) := by
  induction fuel generalizing m heap argv ptrs args with
  | zero => omega
  | succ fuel ih =>
      obtain ⟨hskip, hrest⟩ := skipWhitespaces_whole h
      have hslen : (smatcherSkipWhitespaces m).len = m.len := rfl
      have hshort :=
        (List.dropWhile_suffix isspace : m.rest.dropWhile _ <:+ _).length_le
      rw [parseLoop]
      generalize smatcherSkipWhitespaces m = cmdstr at hskip hrest hslen
      cases hline : m.rest.dropWhile isspace with
      | nil =>
          rw [hline, rest_eq_nil_iff hskip] at hrest
          rw [arguments_nil hline, List.append_nil]
          simp only [if_pos hrest]
          exact ⟨_, rfl, .done hcount hbuilt⟩
      | cons c r =>
          rw [hline] at hrest hshort
          have hne : cmdstr.currentindex ≠ cmdstr.len := by
            rw [Ne, ← rest_eq_nil_iff hskip, hrest]
            exact List.cons_ne_nil c r
          have hc : isspace c = false := by
            have hstop := List.head?_dropWhile_not isspace m.rest
            rw [hline] at hstop
            simpa using hstop
          rw [arguments_cons hline]
          simp only [if_neg hne, consumeSemicolon_eq hskip hrest]
          by_cases hsemi : c = semicolon
          · simp only [if_pos hsemi, if_true, List.append_nil]
            exact ⟨_, rfl, .done hcount hbuilt⟩
          · simp only [if_neg hsemi, Bool.false_eq_true, if_false,
              consumeWord_eq hskip hrest hc]
            exact parse_word allocator ih hskip hrest hc
              (hslen ▸ hlen) (by omega) hbuilt hcount

/-! ## Execution -/

theorem mem_of_mem_words {line word : Text} (hword : word ∈ words line)
    {c : BitVec 8} (hc : c ∈ word) : c ∈ line := by
  induction hn : line.length using Nat.strong_induction_on generalizing line with
  | _ n ih =>
      rw [← words_dropWhile] at hword
      have hsuffix : line.dropWhile isspace <:+ line :=
        List.dropWhile_suffix _
      refine hsuffix.subset ?_
      cases hline : line.dropWhile isspace with
      | nil =>
          rw [hline, words_nil] at hword
          cases hword
      | cons d r =>
          have hstop := List.head?_dropWhile_not isspace line
          rw [hline] at hstop
          have hd : isspace d = false := by simpa using hstop
          have hchar : isWordChar d = true := by simp [isWordChar, hd]
          rw [hline, words_cons hd] at hword
          rcases List.mem_cons.1 hword with rfl | hrest
          · exact (List.takeWhile_prefix _).subset hc
          · have hdrop : (d :: r).dropWhile isWordChar <:+ r := by
              rw [List.dropWhile_cons_of_pos hchar]
              exact List.dropWhile_suffix _
            have hshort := hsuffix.length_le
            have hless := hdrop.length_le
            rw [hline, List.length_cons] at hshort
            refine List.mem_cons_of_mem _ (hdrop.subset ?_)
            exact ih _ (by omega) hrest rfl

theorem kstrcmp_terminator (s w : Text) :
    kstrcmp s (w ++ [0]) = kstrcmp s w := by
  induction s generalizing w with
  | nil => cases w <;> rfl
  | cons c s ih =>
      cases w with
      | nil => simp [kstrcmp]
      | cons d w =>
          rw [List.cons_append, kstrcmp, kstrcmp, List.headD_cons,
            List.headD_cons, List.tail_cons, List.tail_cons, ih]

theorem findProgram_eq {name : Text} (hname : 0 ∉ name)
    (programs : List ShellProgram) :
    findProgram (name ++ [0]) programs =
      programs.find? fun program => program.name = name := by
  induction programs with
  | nil => rfl
  | cons program rest ih =>
      have hiff : kstrcmp program.name (name ++ [0]) = 0 ↔
          program.name = name := by
        rw [kstrcmp_terminator]
        exact Vfs.kstrcmp_eq_zero program.name_nul hname
      rw [findProgram, ih, List.find?_cons]
      by_cases heq : program.name = name
      · rw [if_pos (hiff.2 heq), decide_eq_true heq]
      · rw [if_neg (heq ∘ hiff.1), decide_eq_false heq]

namespace Holds

variable {i : ℕ}

theorem readPointer_eq (h : Holds before heap argv ptrs [] args)
    (hi : i < args.length) :
    ∃ ptr, readPointer heap argv i = .ok ptr ∧
      readText heap ptr = .ok (args[i] ++ [0]) := by
  have hlt : i < ptrs.length := h.length_eq ▸ hi
  have harray : heap argv = some (.pointers ptrs) := by
    rw [h.array, List.append_nil]
  refine ⟨ptrs[i], ShellCmd.readPointer_eq harray hlt, ?_⟩
  have hstring := congrArg (·[i]?) h.strings
  simp only [List.getElem?_map, List.getElem?_eq_getElem hlt,
    List.getElem?_eq_getElem hi, Option.map_some, Option.some_inj] at hstring
  rw [readText, hstring]

theorem readArgv_eq (h : Holds before heap argv ptrs [] args)
    (hnul : ∀ word ∈ args, 0 ∉ word) {left : ℕ} (hi : i + left = args.length) :
    readArgv heap argv left i = .ok (args.drop i) := by
  induction left generalizing i with
  | zero => rw [readArgv, List.drop_of_length_le (by omega)]
  | succ left ih =>
      have hlt : i < args.length := by omega
      obtain ⟨ptr, hptr, htext⟩ := h.readPointer_eq hlt
      have hword := hnul _ (List.getElem_mem hlt)
      have htake : (args[i] ++ [0]).takeWhile (· ≠ 0) = args[i] := by
        rw [List.takeWhile_append_of_pos]
        · simp
        · intro c hc
          simpa using ne_of_mem_of_not_mem hc hword
      rw [readArgv, hptr, ok_bind, htext, ok_bind, ih (by omega), ok_bind,
        htake, List.drop_eq_getElem_cons hlt]

end Holds

/-- What a line with this first word and these arguments comes to. -/
def outcomeOf (programs : List ShellProgram) (first : Text)
    (args : List Text) : Outcome :=
  match programs.find? fun program => program.name = first with
  | none => ⟨127, none⟩
  | some program => ⟨program.main args, some (first, args)⟩

/-- The line runs what it says, and gives back all memory. -/
def RunsLine (allocator : Allocator) (programs : List ShellProgram)
    (heap : Heap) (line : Text) : Prop :=
  ∃ outcome, shellExecCmd allocator programs line heap = .ok (outcome, heap) ∧
    match words line with
    | [] => outcome = ⟨0, none⟩
    | first :: _ => outcome = outcomeOf programs first (arguments line)

/-- The first word does not start with a semicolon, and the arguments fit
into an array. -/
structure GoodLine (line : Text) : Prop where
  first : ∀ word, (words line).head? = some word →
    word.head? ≠ some semicolon
  count : (arguments line).length < 1073741824

theorem cmdExec_eq (h : Holds before heap argv ptrs [] args)
    {first : Text} {rest : List Text} (hargs : args = first :: rest)
    (hnul : ∀ word ∈ args, 0 ∉ word) (programs : List ShellProgram) :
    cmdExec programs (.runprogram argv args.length) heap =
      .ok (outcomeOf programs first args) := by
  have hzero : argv ≠ 0 := (h.fresh argv List.mem_cons_self).1
  have hlt : 0 < args.length := by
    rw [hargs]
    exact Nat.succ_pos _
  obtain ⟨ptr, hptr, htext⟩ := h.readPointer_eq hlt
  have hread := h.readArgv_eq hnul (Nat.zero_add args.length)
  have hhead : args[0] = first := by simp [hargs]
  have hfirst : 0 ∉ first := hnul first (by simp [hargs])
  rw [hhead] at htext
  rw [cmdExec, cAssert_of (decide_eq_true hlt.ne'), ok_bind,
    cAssert_of (decide_eq_true hzero), ok_bind, hptr, ok_bind, htext, ok_bind,
    findProgram_eq hfirst, outcomeOf, hread]
  cases hfind : programs.find? fun program => program.name = first with
  | none => rfl
  | some program =>
      have hname : program.name = first := by
        simpa using List.find?_some hfind
      simp only [ok_bind, List.drop_zero, hname]

theorem kstrlen_eq {line : Text} (hnul : 0 ∉ line) :
    kstrlen line = line.length := by
  induction line with
  | nil => rfl
  | cons c line ih =>
      rw [List.mem_cons, not_or] at hnul
      rw [kstrlen, if_neg (Ne.symm hnul.1), ih hnul.2, List.length_cons]

section Lines

variable {line : Text} {c : BitVec 8} {r : Text}

theorem parseCmd_blank (hnul : 0 ∉ line) (hfits : line.length + 1 < 4294967296)
    (hline : line.dropWhile isspace = []) (allocator : Allocator)
    (heap : Heap) :
    parseCmd allocator (smatcherInit line) heap = .ok (0, .empty, heap) := by
  have hwhole : (smatcherInit line).Whole := by
    rw [smatcherInit, kstrlen_eq hnul]
    exact smatcherInitWithLen_whole (Nat.lt_of_succ_lt hfits)
  obtain ⟨hskip, hrest⟩ := skipWhitespaces_whole hwhole
  have hend := (rest_eq_nil_iff hskip).1 (hrest.trans hline)
  rw [parseCmd]
  simp only [if_pos hend]

/-- What `parse_cmd` makes of a line which is not blank. -/
theorem parseCmd_words (hnul : 0 ∉ line) (hfits : line.length + 1 < 4294967296)
    (hline : line.dropWhile isspace = c :: r) (allocator : Allocator)
    (heap : Heap) :
    ((arguments line).length < 1073741824 ∧ ∃ argv ptrs heap',
      parseCmd allocator (smatcherInit line) heap =
          .ok (0, .runprogram argv (arguments line).length, heap') ∧
        Built heap heap' argv ptrs (arguments line)) ∨
    (1073741824 ≤ (arguments line).length ∧ ∃ argv ptrs kept heap',
      parseCmd allocator (smatcherInit line) heap = .ok (0, .empty, heap') ∧
        Holds heap heap' argv ptrs [] kept) := by
  have hwhole : (smatcherInit line).Whole := by
    rw [smatcherInit, kstrlen_eq hnul]
    exact smatcherInitWithLen_whole (Nat.lt_of_succ_lt hfits)
  have hlen : (smatcherSkipWhitespaces (smatcherInit line)).len =
      line.length := kstrlen_eq hnul
  obtain ⟨hskip, hrest⟩ := skipWhitespaces_whole hwhole
  have hlrest : (smatcherSkipWhitespaces (smatcherInit line)).rest =
      line.dropWhile isspace := hrest
  have hne : ¬(smatcherSkipWhitespaces (smatcherInit line)).currentindex =
      (smatcherSkipWhitespaces (smatcherInit line)).len := by
    rw [← rest_eq_nil_iff hskip, hlrest, hline]
    exact List.cons_ne_nil c r
  have hshort := hskip.rest_length
  have hparsed := parseLoop_parsed allocator hskip (hlen ▸ hfits)
    (show _ < (smatcherSkipWhitespaces (smatcherInit line)).len + 1 by omega)
    (.nothing : Built heap heap 0 [] []) (by decide)
  rw [hlrest, List.nil_append, arguments, words_dropWhile] at hparsed
  rw [parseCmd]
  simp only [if_neg hne, parseCmdRunprogram]
  obtain ⟨result, hloop, hend⟩ := hparsed
  rw [List.length_nil] at hloop
  rw [hloop]
  cases hend with
  | done hcount hbuilt => exact Or.inl ⟨hcount, _, _, _, rfl, hbuilt⟩
  | lost hcount hholds => exact Or.inr ⟨hcount, _, _, _, _, rfl, hholds⟩

theorem words_of_blank (hline : line.dropWhile isspace = []) :
    words line = [] := by
  rw [← words_dropWhile, hline, words_nil]

theorem words_of_cons (hline : line.dropWhile isspace = c :: r) :
    ∃ first rest, words line = first :: rest ∧ first.head? = some c := by
  have hstop := List.head?_dropWhile_not isspace line
  rw [hline] at hstop
  have hc : isspace c = false := by simpa using hstop
  refine ⟨(c :: r).takeWhile isWordChar,
    words ((c :: r).dropWhile isWordChar), ?_, ?_⟩
  · rw [← words_dropWhile, hline, words_cons hc]
  · rw [List.takeWhile_cons_of_pos (by simp [isWordChar, hc])]
    rfl

/-- A line runs what it says exactly when it does not start with a semicolon
and its arguments fit into an array. -/
theorem runsLine_iff (allocator : Allocator) (programs : List ShellProgram)
    (heap : Heap) {line : Text} (hnul : 0 ∉ line)
    (hfits : line.length + 1 < 4294967296) :
    RunsLine allocator programs heap line ↔ GoodLine line := by
  cases hline : line.dropWhile isspace with
  | nil =>
      have hwords := words_of_blank hline
      constructor
      · intro _
        refine ⟨?_, ?_⟩
        · rw [hwords]
          intro word hword
          cases hword
        · rw [arguments_nil hline]
          decide
      · intro _
        refine ⟨⟨0, none⟩, ?_, ?_⟩
        · rw [shellExecCmd, parseCmd_blank hnul hfits hline, ok_bind]
          rfl
        · rw [hwords]
  | cons c r =>
      obtain ⟨first, rest, hwords, hfirst⟩ := words_of_cons hline
      have hargs := arguments_of_words hwords
      simp only [hfirst, Option.some_inj] at hargs
      rcases parseCmd_words hnul hfits hline allocator heap with
        ⟨hcount, argv, ptrs, heap', hparse, hbuilt⟩ |
        ⟨hcount, argv, ptrs, kept, heap', hparse, hholds⟩
      · have hexec : shellExecCmd allocator programs line heap = (do
            let outcome ← cmdExec programs
              (.runprogram argv (arguments line).length) heap'
            let heap ← cmdDestroy
              (.runprogram argv (arguments line).length) heap'
            .ok (outcome, heap)) := by
          rw [shellExecCmd, hparse, ok_bind]
          rfl
        by_cases hsemi : c = semicolon
        · rw [if_pos hsemi] at hargs
          have hfail : shellExecCmd allocator programs line heap =
              .error (.assertion "cmd->runprogram.argc != 0") := by
            rw [hexec, hargs]
            rfl
          constructor
          · rintro ⟨outcome, hrun, -⟩
            rw [hfail] at hrun
            cases hrun
          · intro hgood
            refine absurd (hsemi ▸ hfirst) (hgood.first first ?_)
            rw [hwords, List.head?_cons]
        · rw [if_neg hsemi] at hargs
          have hholds : Holds heap heap' argv ptrs [] (arguments line) := by
            generalize arguments line = args at hargs hbuilt ⊢
            cases hbuilt with
            | nothing => cases hargs
            | vector h => exact h
          have hargsnul : ∀ word ∈ arguments line, 0 ∉ word := by
            intro word hword hzero
            have hmem := (List.takeWhile_prefix _).subset hword
            exact hnul (mem_of_mem_words hmem hzero)
          constructor
          · intro _
            refine ⟨?_, hcount⟩
            rw [hwords, List.head?_cons]
            rintro word ⟨⟩
            rw [hfirst, Ne, Option.some_inj]
            exact hsemi
          · intro _
            refine ⟨outcomeOf programs first (arguments line), ?_, ?_⟩
            · rw [hexec, cmdExec_eq hholds hargs hargsnul, ok_bind, cmdDestroy,
                freeArgv_eq hholds, ok_bind]
            · rw [hwords]
      · have hexec : shellExecCmd allocator programs line heap =
            .ok (⟨0, none⟩, heap') := by
          rw [shellExecCmd, hparse, ok_bind]
          rfl
        constructor
        · rintro ⟨outcome, hrun, -⟩
          rw [hexec] at hrun
          cases hrun
          have hmem : argv ∈ argv :: ptrs := List.mem_cons_self
          exact absurd (hholds.fresh argv hmem).2 (hholds.live hmem)
        · intro hgood
          exact absurd hgood.count (Nat.not_lt.2 hcount)

end Lines

theorem exists_free (heap : Heap) : ∃ ptr, ptr ≠ 0 ∧ heap ptr = none := by
  obtain ⟨bound, hbound⟩ := heap.finite.bddAbove
  refine ⟨bound + 1, Nat.succ_ne_zero bound, ?_⟩
  by_contra hlive
  exact absurd (hbound hlive) (Nat.not_succ_le_self bound)

/-- New blocks go to the lowest free address. -/
def lowest : Allocator where
  pick heap _ := Nat.find (exists_free heap)
  pick_ne_zero heap _ := (Nat.find_spec (exists_free heap)).1
  pick_free heap _ := (Nat.find_spec (exists_free heap)).2

def emptyHeap : Heap := ⟨fun _ => none, by simp⟩

/-- A program with the name `"a"` which gives the number of its arguments. -/
def countArguments : ShellProgram := ⟨[0x61], (·.length), by decide⟩

theorem command_runs : RunsLine lowest [countArguments] emptyHeap
    [0x20, 0x61, 0x20, 0x62, 0x3b, 0x20, 0x3b, 0x63] := by
  refine (runsLine_iff _ _ _ (by decide) (by decide)).2 ⟨?_, by decide⟩
  decide

/-- The line `";"`. -/
theorem semicolon_fails_assertion :
    shellExecCmd lowest [countArguments] [0x3b] emptyHeap =
        .error (.assertion "cmd->runprogram.argc != 0") ∧
      ¬RunsLine lowest [countArguments] emptyHeap [0x3b] := by
  have hfail : shellExecCmd lowest [countArguments] [0x3b] emptyHeap =
      .error (.assertion "cmd->runprogram.argc != 0") := rfl
  refine ⟨hfail, ?_⟩
  rintro ⟨outcome, hrun, -⟩
  rw [hfail] at hrun
  cases hrun

end ShellCmd
end Yjkos
