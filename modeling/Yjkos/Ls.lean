import Yjkos.LineFill
import Yjkos.Snprintf

/-!
# The lines of ls

`program_ls.c` formats every entry into a buffer of 81 bytes and prints the
buffer.  With `-m` a line is filled as far as the pieces fit into 80 columns.
A piece which does not fit into the buffer does not reach the screen at all:
`snprintf` stops the kernel.  What is printed is the list of the bytes which
have gone to the consoles.
-/

namespace Yjkos
namespace Ls

open Printf

structure Opts where
  all : Bool
  allAlt : Bool
  streamFormat : Bool
deriving DecidableEq, Repr

/-- `COLUMNS` -/
def columns : ℕ := 80

def dot : Byte := 0x2e

def newline : Byte := 0x0a

def shouldHideDirent (dName : List Byte) (opts : Opts) : Bool :=
  if (!opts.all || opts.allAlt) && (dName = [dot] || dName = [dot, dot]) then
    true
  else if !opts.all && !opts.allAlt then dName.head? = some dot
  else false

/-- The formats `"%s"`, `"%s, "` and `"%s "`. -/
def formatString (opts : Opts) (isLastEntry : Bool) : List Byte :=
  if opts.streamFormat then
    if isLastEntry then [0x25, 0x73] else [0x25, 0x73, 0x2c, 0x20]
  else [0x25, 0x73, 0x20]

section Show

-- The string at an address; the name of an entry is one.
variable (strings : Word → Option (List Byte))

def format (memory : ℕ → Byte) (buf size : ℕ) (name : Word) (opts : Opts)
    (isLastEntry : Bool) : Except Fault (ℤ × (ℕ → Byte)) :=
  snprintf strings memory buf size (formatString opts isLastEntry) [name]

/-- The string in a buffer of this size. -/
def stringIn (memory : ℕ → Byte) (buf size : ℕ) :
    Except Fault (List Byte) :=
  let bytes := (List.range size).map fun i => memory (buf + i)
  if 0 ∈ bytes then .ok (bytes.takeWhile (· ≠ 0)) else .error .outOfBounds

/-- The variables of the loop, with what has been printed. -/
structure Line where
  memory : ℕ → Byte
  lineLen : ℤ
  out : List Byte

def showEntry (buf : ℕ) (opts : Opts) (isFirst isLastEntry : Bool)
    (name : Word) (s : Line) : Except Fault Line := do
  let (len, memory) ←
    format strings s.memory buf (columns + 1) name opts isLastEntry
  let ishorizontal := opts.streamFormat
  let breaks := (ishorizontal && decide ((columns : ℤ) - s.lineLen < len)) ||
    (!ishorizontal && !isFirst)
  let text ← stringIn memory buf (columns + 1)
  let out := if breaks then s.out ++ [newline] else s.out
  let lineLen := if breaks then 0 else s.lineLen
  .ok ⟨memory, lineLen + len, out ++ text⟩

def showLoop (buf : ℕ) (opts : Opts) :
    Bool → List Word → Line → Except Fault Line
  | _, [], s => .ok s
  | isFirst, name :: names, s => do
      let s ← showEntry strings buf opts isFirst names.isEmpty name s
      showLoop buf opts false names s

/-- `show_dir` with the entries which it has collected. -/
def showEntries (memory : ℕ → Byte) (buf : ℕ) (opts : Opts)
    (names : List Word) : Except Fault (List Byte) := do
  let s ← showLoop strings buf opts true names ⟨memory, 0, []⟩
  .ok (s.out ++ [newline])

end Show

/-! ## One piece -/

/-- What stands behind a name. -/
def behind (opts : Opts) (isLastEntry : Bool) : List Byte :=
  if opts.streamFormat then if isLastEntry then [] else [0x2c, 0x20]
  else [0x20]

theorem formatString_eq (opts : Opts) (isLastEntry : Bool) :
    formatString opts isLastEntry = 0x25 :: 0x73 :: behind opts isLastEntry := by
  unfold formatString behind
  split
  · split <;> rfl
  · rfl

theorem behind_plain (opts : Opts) (isLastEntry : Bool) :
    0x25 ∉ behind opts isLastEntry ∧ 0 ∉ behind opts isLastEntry := by
  unfold behind
  split
  · split <;> decide
  · decide

section Piece

variable {strings : Word → Option (List Byte)}

/-- The pointer leads to a name: a string which is not empty. -/
structure Names (strings : Word → Option (List Byte)) (p : Word)
    (name : List Byte) : Prop where
  string : strings p = some name
  nonempty : name ≠ []
  noNul : 0 ∉ name

variable {p : Word} {name : List Byte}

theorem format_eq (hname : Names strings p name) (memory : ℕ → Byte)
    (buf : ℕ) (opts : Opts) (isLastEntry : Bool) :
    format strings memory buf (columns + 1) p opts isLastEntry =
      if (name ++ behind opts isLastEntry).length ≤ columns then
        .ok (((name ++ behind opts isLastEntry).length : ℕ),
          stored memory buf (name ++ behind opts isLastEntry))
      else .error (.assertion "result != 0") := by
  have hformat := formatsTo_string strings hname.string
    (behind_plain opts isLastEntry).1
  have hsize : columns + 1 ≤ intMax := by decide
  have hroom : wrapSub (columns + 1) 1 = columns := by decide
  rw [← formatString_eq] at hformat
  unfold format snprintf
  rw [cAssert_of (decide_eq_true hsize), ok_bind]
  by_cases hfits : (name ++ behind opts isLastEntry).length ≤ columns
  · have hlen : (name ++ behind opts isLastEntry).length < 2147483648 := by
      unfold columns at hfits
      omega
    rw [if_pos hfits, vsnprintf_of_room memory buf hformat hsize hroom hfits,
      storedText, toSize_natCast (by omega), toSigned, if_pos hlen]
  · rw [if_neg hfits]
    exact vsnprintf_of_no_room memory buf hformat hsize hroom (by omega)

/-- What is read back from a buffer is what has been stored there. -/
theorem stringIn_stored (memory : ℕ → Byte) (buf : ℕ) {text : List Byte}
    {size : ℕ} (hnonempty : text ≠ []) (hnoNul : 0 ∉ text)
    (hfits : text.length < size) :
    stringIn (stored memory buf text) buf size = .ok text := by
  obtain ⟨more, rfl⟩ := Nat.exists_eq_add_of_lt hfits
  have htext : (List.range text.length).map
      (fun i => stored memory buf text (buf + i)) = text := by
    apply List.ext_getElem
    · simp
    · intro i _ hi
      rw [List.getElem_map, List.getElem_range, stored_inside memory hi,
        List.getD_eq_getElem _ _ hi]
  have hbytes : (List.range (text.length + more + 1)).map
      (fun i => stored memory buf text (buf + i)) =
        text ++ 0 :: (List.range more).map
          (fun i => stored memory buf text (buf + (text.length + 1 + i))) := by
    rw [add_assoc, List.range_add, List.map_append, htext, add_comm more 1,
      List.range_add, List.map_append, List.map_append]
    congr 1
    have hnul : stored memory buf text (buf + text.length) = 0 :=
      stored_nul memory hnonempty
    simp [List.map_map, Function.comp_def, hnul, add_assoc]
  unfold stringIn
  dsimp only
  rw [hbytes, if_pos (by simp)]
  congr 1
  rw [List.takeWhile_append_of_pos]
  · simp
  · intro c hc
    have hne : c ≠ 0 := fun heq => hnoNul (heq ▸ hc)
    simpa using hne

/-- An entry is printed behind a newline or behind what is on the line. -/
theorem showEntry_eq (hname : Names strings p name) (buf : ℕ) (opts : Opts)
    (isFirst isLastEntry : Bool) (s : Line) {text : List Byte}
    (htext : name ++ behind opts isLastEntry = text) {breaks : Bool}
    (hbreaks : ((opts.streamFormat &&
        decide ((columns : ℤ) - s.lineLen < text.length)) ||
      (!opts.streamFormat && !isFirst)) = breaks) :
    showEntry strings buf opts isFirst isLastEntry p s =
      if text.length ≤ columns then
        .ok ⟨stored s.memory buf text,
          (if breaks then 0 else s.lineLen) + text.length,
          (if breaks then s.out ++ [newline] else s.out) ++ text⟩
      else .error (.assertion "result != 0") := by
  have hnonempty : text ≠ [] := by
    rw [← htext]
    exact List.append_ne_nil_of_left_ne_nil hname.nonempty _
  have hnoNul : 0 ∉ text := by
    rw [← htext, List.mem_append]
    exact fun h => h.elim hname.noNul (behind_plain opts isLastEntry).2
  unfold showEntry
  rw [format_eq hname, htext]
  by_cases hfits : text.length ≤ columns
  · rw [if_pos hfits, if_pos hfits, ok_bind]
    dsimp only
    rw [stringIn_stored s.memory buf hnonempty hnoNul (by omega), ok_bind,
      hbreaks]
  · rw [if_neg hfits, if_neg hfits]
    rfl

end Piece

/-! ## The lines -/

/-- What is made of the names. -/
def pieces (opts : Opts) : List (List Byte) → List (List Byte)
  | [] => []
  | name :: names =>
      (name ++ behind opts names.isEmpty) :: pieces opts names

/-- The lines which `show_dir` prints. -/
def lines (opts : Opts) (names : List (List Byte)) : List (List Byte) :=
  if opts.streamFormat then LineFill.fill columns [] (pieces opts names)
  else pieces opts names

section Lines

variable {strings : Word → Option (List Byte)} {ps : List Word}
  {names : List (List Byte)} {opts : Opts}

/-- Every piece fits into the buffer. -/
def fits (opts : Opts) (names : List (List Byte)) : Bool :=
  (pieces opts names).all fun text => decide (text.length ≤ columns)

theorem fits_cons (opts : Opts) (name : List Byte) (names : List (List Byte)) :
    fits opts (name :: names) =
      (decide ((name ++ behind opts names.isEmpty).length ≤ columns) &&
        fits opts names) := by
  unfold fits
  rw [pieces, List.all_cons]

/-- With `-m`, from a line which is partly filled. -/
theorem showLoop_stream (hnames : List.Forall₂ (Names strings) ps names)
    (hstream : opts.streamFormat = true) (buf : ℕ) (isFirst : Bool)
    (memory : ℕ → Byte) (front line : List Byte) :
    (showLoop strings buf opts isFirst ps
        ⟨memory, line.length, front ++ line⟩).map Line.out =
      if fits opts names then
        .ok (front ++ [newline].intercalate
          (LineFill.fill columns line (pieces opts names)))
      else .error (.assertion "result != 0") := by
  induction hnames generalizing isFirst memory front line with
  | nil => simp [showLoop, fits, pieces, LineFill.fill, Except.map]
  | @cons p name ps names hname hnames ih =>
      have hlast : ps.isEmpty = names.isEmpty := by
        cases hnames <;> rfl
      have hentry := showEntry_eq hname buf opts isFirst ps.isEmpty
        ⟨memory, line.length, front ++ line⟩ rfl rfl
      rw [hlast] at hentry
      rw [showLoop, fits_cons, pieces, hlast, hentry]
      generalize name ++ behind opts names.isEmpty = text
      by_cases hlen : text.length ≤ columns
      · rw [if_pos hlen, ok_bind, LineFill.fill]
        simp only [hlen, hstream, decide_true, Bool.true_and, Bool.not_true,
          Bool.false_and, Bool.or_false, decide_eq_true_eq]
        by_cases hbreaks : columns < line.length + text.length
        · have hstep := ih false (stored memory buf text)
            (front ++ line ++ [newline]) text
          rw [if_pos (by omega), if_pos (by omega), if_pos hbreaks,
            zero_add, hstep,
            List.intercalate_cons_of_ne_nil (LineFill.fill_ne_nil _ _)]
          simp only [List.append_assoc]
        · have hstep := ih false (stored memory buf text) front (line ++ text)
          rw [if_neg (by omega), if_neg (by omega), if_neg hbreaks,
            List.append_assoc]
          rw [List.length_append, Nat.cast_add] at hstep
          exact hstep
      · rw [if_neg hlen, decide_eq_false hlen]
        rfl

/-- Without `-m`, behind a line. -/
theorem showLoop_lines (hnames : List.Forall₂ (Names strings) ps names)
    (hstream : opts.streamFormat = false) (buf : ℕ) (memory : ℕ → Byte)
    (lineLen : ℤ) (front line : List Byte) :
    (showLoop strings buf opts false ps
        ⟨memory, lineLen, front ++ line⟩).map Line.out =
      if fits opts names then
        .ok (front ++ [newline].intercalate (line :: pieces opts names))
      else .error (.assertion "result != 0") := by
  induction hnames generalizing memory lineLen front line with
  | nil => simp [showLoop, fits, pieces, Except.map]
  | @cons p name ps names hname hnames ih =>
      have hlast : ps.isEmpty = names.isEmpty := by
        cases hnames <;> rfl
      have hentry := showEntry_eq hname buf opts false ps.isEmpty
        ⟨memory, lineLen, front ++ line⟩ rfl rfl
      rw [hlast] at hentry
      rw [showLoop, fits_cons, pieces, hlast, hentry]
      generalize name ++ behind opts names.isEmpty = text
      by_cases hlen : text.length ≤ columns
      · have hstep := ih (stored memory buf text) (0 + text.length)
          (front ++ line ++ [newline]) text
        rw [if_pos hlen, ok_bind, List.intercalate_cons_cons]
        simp only [hlen, hstream, decide_true, Bool.true_and, Bool.not_false,
          Bool.false_and, Bool.false_or, if_true]
        rw [hstep]
        simp only [List.append_assoc]
      · rw [if_neg hlen, decide_eq_false hlen]
        rfl

/-- The first entry stands on the line which is there. -/
theorem showLoop_first (hnames : List.Forall₂ (Names strings) ps names)
    (hstream : opts.streamFormat = false) (buf : ℕ) (memory : ℕ → Byte) :
    (showLoop strings buf opts true ps ⟨memory, 0, []⟩).map Line.out =
      if fits opts names then
        .ok ([newline].intercalate (pieces opts names))
      else .error (.assertion "result != 0") := by
  cases hnames with
  | nil => simp [showLoop, fits, pieces, Except.map]
  | @cons p name ps names hname hnames =>
      have hlast : ps.isEmpty = names.isEmpty := by
        cases hnames <;> rfl
      have hentry := showEntry_eq hname buf opts true ps.isEmpty
        ⟨memory, 0, []⟩ rfl rfl
      rw [hlast] at hentry
      rw [showLoop, fits_cons, pieces, hlast, hentry]
      generalize name ++ behind opts names.isEmpty = text
      by_cases hlen : text.length ≤ columns
      · have hrest := showLoop_lines hnames hstream buf
          (stored memory buf text) (0 + text.length) [] text
        rw [if_pos hlen, ok_bind]
        simp only [hlen, hstream, decide_true, Bool.true_and, Bool.not_false,
          Bool.false_and, Bool.false_or, Bool.not_true, if_false,
          Bool.false_eq_true]
        exact hrest
      · rw [if_neg hlen, decide_eq_false hlen]
        rfl

theorem showEntries_eq (hnames : List.Forall₂ (Names strings) ps names)
    (memory : ℕ → Byte) (buf : ℕ) :
    showEntries strings memory buf opts ps =
      if fits opts names then
        .ok ([newline].intercalate (lines opts names) ++ [newline])
      else .error (.assertion "result != 0") := by
  have hloop : (showLoop strings buf opts true ps ⟨memory, 0, []⟩).map
      Line.out =
        if fits opts names then .ok ([newline].intercalate (lines opts names))
        else .error (.assertion "result != 0") := by
    unfold lines
    by_cases hstream : opts.streamFormat = true
    · rw [if_pos hstream]
      exact showLoop_stream hnames hstream buf true memory [] []
    · rw [if_neg hstream]
      exact showLoop_first hnames (Bool.eq_false_of_not_eq_true hstream) buf
        memory
  unfold showEntries
  cases hrun : showLoop strings buf opts true ps ⟨memory, 0, []⟩ with
  | error e =>
      rw [hrun] at hloop
      split at hloop
      · cases hloop
      · cases hloop
        next hfits => rw [if_neg hfits]; rfl
  | ok s =>
      rw [hrun] at hloop
      split at hloop
      · next hfits =>
          rw [if_pos hfits, ok_bind]
          injection hloop with hout
          rw [hout]
      · cases hloop

end Lines

/-- `ls` prints the pieces in the order of the entries.  With `-m` it cuts them
into lines of at most 80 characters, and there is no way to do so with fewer
lines; otherwise every piece has a line of its own.  One name which is too long
for the buffer stops the kernel. -/
theorem showEntries_lines {strings : Word → Option (List Byte)}
    {ps : List Word} {names : List (List Byte)}
    (hnames : List.Forall₂ (Names strings) ps names) (opts : Opts)
    (memory : ℕ → Byte) (buf : ℕ) :
    ((∃ text ∈ pieces opts names, columns < text.length) →
      showEntries strings memory buf opts ps =
        .error (.assertion "result != 0")) ∧
    ((∀ text ∈ pieces opts names, text.length ≤ columns) →
      showEntries strings memory buf opts ps =
        .ok ([newline].intercalate (lines opts names) ++ [newline]) ∧
      (lines opts names).flatten = (pieces opts names).flatten ∧
      (∀ line ∈ lines opts names, line.length ≤ columns) ∧
      (opts.streamFormat = false → lines opts names = pieces opts names) ∧
      (opts.streamFormat = true → ∀ groups : List (List (List Byte)),
        groups ≠ [] → groups.flatten = pieces opts names →
          (∀ group ∈ groups, group.flatten.length ≤ columns) →
            (lines opts names).length ≤ groups.length)) := by
  rw [showEntries_eq hnames]
  constructor
  · rintro ⟨text, hmem, hlong⟩
    have hfits : ¬fits opts names = true := by
      intro hall
      have hlen := of_decide_eq_true (List.all_eq_true.1 hall text hmem)
      omega
    rw [if_neg hfits]
  · intro hall
    have hfits : fits opts names = true :=
      List.all_eq_true.2 fun text hmem => decide_eq_true (hall text hmem)
    refine ⟨if_pos hfits, ?_, ?_, ?_, ?_⟩
    · unfold lines
      split
      · rw [LineFill.fill_flatten, List.nil_append]
      · rfl
    · unfold lines
      split
      · exact LineFill.fill_length_le (Nat.zero_le _) hall
      · exact hall
    · intro hstream
      unfold lines
      rw [if_neg (by rw [hstream]; exact Bool.false_ne_true)]
    · intro hstream groups hnonempty hflatten hgroups
      unfold lines
      rw [if_pos hstream, ← hflatten]
      exact LineFill.fill_minimal hgroups hnonempty

/-- Two names of 40 letters and a short one. -/
def sampleNames : List (List Byte) :=
  [List.replicate 40 0x61, List.replicate 40 0x62, [0x63, 0x63, 0x63]]

/-- The names stand at the addresses 1, 2 and 3. -/
def sampleStrings (p : Word) : Option (List Byte) :=
  sampleNames[p.toNat - 1]?

/-- The second name does not fit behind the first one with its comma, the
third one fits behind the second, and one line is not enough. -/
theorem showEntries_lines_sample :
    showEntries sampleStrings (fun _ => 0) 0 ⟨false, false, true⟩ [1, 2, 3] =
      .ok (List.replicate 40 0x61 ++ [0x2c, 0x20, 0x0a] ++
        (List.replicate 40 0x62 ++ [0x2c, 0x20, 0x63, 0x63, 0x63, 0x0a])) ∧
    ∀ groups : List (List (List Byte)), groups ≠ [] →
      groups.flatten = pieces ⟨false, false, true⟩ sampleNames →
      (∀ group ∈ groups, group.flatten.length ≤ 80) → 2 ≤ groups.length := by
  have hnames : List.Forall₂ (Names sampleStrings) [1, 2, 3] sampleNames :=
    .cons ⟨rfl, by decide, by decide⟩ (.cons ⟨rfl, by decide, by decide⟩
      (.cons ⟨rfl, by decide, by decide⟩ .nil))
  have hfits : ∀ text ∈ pieces ⟨false, false, true⟩ sampleNames,
      text.length ≤ columns := by decide
  obtain ⟨hprinted, -, -, -, hminimal⟩ :=
    (showEntries_lines hnames ⟨false, false, true⟩ (fun _ => 0) 0).2 hfits
  exact ⟨hprinted, hminimal rfl⟩

end Ls
end Yjkos
