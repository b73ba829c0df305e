import Yjkos.TransitionRun
import Yjkos.Vfs

/-!
# String matcher

`struct smatcher` of `kernel/lib/strutil.c` walks over the first `len` bytes
of a buffer.  The buffer is the list of the bytes from its start on, and
memory behind the list reads as a terminator.  `currentindex` and `len` are
`size_t`, so their difference wraps.
-/

namespace Yjkos
namespace Smatcher

open Vfs (Text kstrncmp)

/-! ## Characters -/

def cclassMaxChar : ℤ := 127

/-- `CHARS[c] & CCLASS_FLAG_SPACE`: only tab and blank have the flag. -/
def isspace (c : BitVec 8) : Bool :=
  if c.toInt < 0 ∨ cclassMaxChar ≤ c.toInt then false
  else c = 0x09 ∨ c = 0x20

def kstrlen : Text → ℕ
  | [] => 0
  | c :: s => if c = 0 then 0 else kstrlen s + 1

/-! ## Matcher -/

structure Matcher where
  str : Text
  len : ℕ
  currentindex : ℕ

namespace Matcher

/-- What `&self->str[self->currentindex]` points to. -/
def rest (self : Matcher) : Text := self.str.drop self.currentindex

/-- The part of it which belongs to the matcher. -/
def window (self : Matcher) : Text :=
  self.rest.take (self.len - self.currentindex)

end Matcher

def smatcherInitWithLen (str : Text) (len : ℕ) : Matcher := ⟨str, len, 0⟩

def smatcherInit (str : Text) : Matcher :=
  smatcherInitWithLen str (kstrlen str)

def smatcherConsumeStrIfMatch (self : Matcher) (str : Text) : Bool × Matcher :=
  let len := kstrlen str
  if wrapSub self.len self.currentindex < len then (false, self)
  else if kstrncmp self.rest str len ≠ 0 then (false, self)
  else (true, { self with currentindex := self.currentindex + len })

def smatcherConsumeWordIfMatch (self : Matcher) (str : Text) :
    Bool × Matcher :=
  let len := kstrlen str
  if wrapSub self.len self.currentindex < len then (false, self)
  else if kstrncmp self.rest str len ≠ 0 then (false, self)
  else
    let nextchar := (self.rest.drop len).headD 0
    if self.currentindex + len ≠ self.len ∧ isspace nextchar = false then
      (false, self)
    else
      (true, { self with currentindex := self.currentindex + len })

/-- The loop does not look at `len`. -/
def skipWhitespacesLoop : Text → ℕ → ℕ
  | [], i => i
  | c :: rest, i => if isspace c then skipWhitespacesLoop rest (i + 1) else i

def smatcherSkipWhitespaces (self : Matcher) : Matcher :=
  { self with
    currentindex := skipWhitespacesLoop self.rest self.currentindex }

/-- The number of characters counted by the loop of `smatcher_consume_word`,
with the passes which `len` allows. -/
def consumeWordLoop : ℕ → Text → ℕ
  | 0, _ => 0
  | passes + 1, rest =>
      if isspace (rest.headD 0) then 0
      else consumeWordLoop passes rest.tail + 1

/-- The word is told by where it starts in the buffer, and by its length. -/
def smatcherConsumeWord (self : Matcher) : Option (ℕ × ℕ) × Matcher :=
  if self.currentindex = self.len ∨ isspace (self.rest.headD 0) then
    (none, self)
  else
    let len := consumeWordLoop (self.len - self.currentindex) self.rest
    (some (self.currentindex, len),
      { self with currentindex := self.currentindex + len })

/-! ## Runs -/

inductive Call where
  | consumeStrIfMatch (str : Text)
  | consumeWordIfMatch (str : Text)
  | skipWhitespaces
  | consumeWord

inductive Result where
  | matched (value : Bool)
  | skipped
  | word (value : Option (ℕ × ℕ))
  deriving DecidableEq

def call (self : Matcher) : Call → Result × Matcher
  | .consumeStrIfMatch str =>
      let (value, self) := smatcherConsumeStrIfMatch self str
      (.matched value, self)
  | .consumeWordIfMatch str =>
      let (value, self) := smatcherConsumeWordIfMatch self str
      (.matched value, self)
  | .skipWhitespaces => (.skipped, smatcherSkipWhitespaces self)
  | .consumeWord =>
      let (value, self) := smatcherConsumeWord self
      (.word value, self)

/-- The results of the calls, and the matcher after them. -/
def run : Matcher → List Call → List Result × Matcher
  | self, [] => ([], self)
  | self, c :: rest =>
      let (result, self) := call self c
      let (results, self) := run self rest
      (result :: results, self)

/-- Whitespace is skipped only while a character which stops the loop is
left in the matcher. -/
def Good (self : Matcher) : Call → Prop
  | .skipWhitespaces => ∃ c ∈ self.window, isspace c = false
  | _ => True

def GoodRun : Matcher → List Call → Prop
  | _, [] => True
  | self, c :: rest => Good self c ∧ GoodRun (call self c).2 rest

/-! ## What lies behind the matcher -/

theorem kstrncmp_append {n : ℕ} {s1 : Text} (h : n ≤ s1.length)
    (s2 more : Text) : kstrncmp (s1 ++ more) s2 n = kstrncmp s1 s2 n := by
  induction n generalizing s1 s2 with
  | zero => rfl
  | succ n ih =>
      obtain ⟨c, s1, rfl⟩ := List.exists_cons_of_length_pos
        (Nat.lt_of_lt_of_le n.succ_pos h)
      have hlength : n ≤ s1.length := by simpa using h
      rw [List.cons_append, kstrncmp, kstrncmp, List.headD_cons,
        List.headD_cons, List.tail_cons, List.tail_cons, ih hlength]

theorem skipWhitespacesLoop_append {s : Text}
    (h : ∃ c ∈ s, isspace c = false) (more : Text) (i : ℕ) :
    skipWhitespacesLoop (s ++ more) i = skipWhitespacesLoop s i := by
  induction s generalizing i with
  | nil =>
      obtain ⟨c, hc, -⟩ := h
      cases hc
  | cons c s ih =>
      rw [List.cons_append, skipWhitespacesLoop, skipWhitespacesLoop]
      split
      next hspace =>
        refine ih ?_ (i + 1)
        obtain ⟨d, hd, hstop⟩ := h
        rcases List.mem_cons.1 hd with rfl | hd
        · rw [hspace] at hstop
          cases hstop
        · exact ⟨d, hd, hstop⟩
      next => rfl

theorem skipWhitespacesLoop_le (s : Text) (i : ℕ) :
    skipWhitespacesLoop s i ≤ i + s.length := by
  induction s generalizing i with
  | nil => exact le_rfl
  | cons c s ih =>
      rw [skipWhitespacesLoop, List.length_cons]
      split
      next =>
        have hle := ih (i + 1)
        omega
      next => omega

theorem skipWhitespacesLoop_all {s : Text} (h : ∀ c ∈ s, isspace c = true)
    (i : ℕ) : skipWhitespacesLoop s i = i + s.length := by
  induction s generalizing i with
  | nil => rfl
  | cons c s ih =>
      rw [List.forall_mem_cons] at h
      rw [skipWhitespacesLoop, if_pos h.1, ih h.2, List.length_cons]
      omega

theorem consumeWordLoop_append {passes : ℕ} {s : Text}
    (h : passes ≤ s.length) (more : Text) :
    consumeWordLoop passes (s ++ more) = consumeWordLoop passes s := by
  induction passes generalizing s with
  | zero => rfl
  | succ passes ih =>
      obtain ⟨c, s, rfl⟩ := List.exists_cons_of_length_pos
        (Nat.lt_of_lt_of_le passes.succ_pos h)
      have hlength : passes ≤ s.length := by simpa using h
      rw [List.cons_append, consumeWordLoop, consumeWordLoop,
        List.headD_cons, List.headD_cons, List.tail_cons, List.tail_cons,
        ih hlength]

theorem consumeWordLoop_le (passes : ℕ) (s : Text) :
    consumeWordLoop passes s ≤ passes := by
  induction passes generalizing s with
  | zero => exact le_rfl
  | succ passes ih =>
      rw [consumeWordLoop]
      split
      next => omega
      next => exact Nat.succ_le_succ (ih s.tail)

theorem headD_append {s : Text} (h : s ≠ []) (more : Text) :
    (s ++ more).headD 0 = s.headD 0 := by
  cases s with
  | nil => exact absurd rfl h
  | cons c s => rfl

namespace Matcher

/-- More bytes behind the buffer. -/
def extend (self : Matcher) (more : Text) : Matcher :=
  { self with str := self.str ++ more }

@[simp]
theorem extend_len (self : Matcher) (more : Text) :
    (self.extend more).len = self.len := rfl

@[simp]
theorem extend_currentindex (self : Matcher) (more : Text) :
    (self.extend more).currentindex = self.currentindex := rfl

/-- The matcher has the whole buffer, and is inside of it. -/
structure Whole (matcher : Matcher) : Prop where
  len_eq : matcher.len = matcher.str.length
  len_lt : matcher.len < 4294967296
  index_le : matcher.currentindex ≤ matcher.len

namespace Whole

variable {m : Matcher}

theorem rest_length (h : m.Whole) :
    m.rest.length = m.len - m.currentindex := by
  rw [rest, List.length_drop, h.len_eq]

theorem window_eq (h : m.Whole) : m.window = m.rest :=
  List.take_of_length_le h.rest_length.le

theorem rest_extend (h : m.Whole) (more : Text) :
    (m.extend more).rest = m.rest ++ more :=
  List.drop_append_of_le_length (h.len_eq ▸ h.index_le)

theorem wrapSub_eq (h : m.Whole) :
    wrapSub m.len m.currentindex = m.rest.length := by
  rw [wrapSub_of_le h.index_le h.len_lt, h.rest_length]

theorem advance (h : m.Whole) {n : ℕ} (hn : n ≤ m.rest.length) :
    Whole { m with currentindex := m.currentindex + n } where
  len_eq := h.len_eq
  len_lt := h.len_lt
  index_le := by
    have hlength := h.rest_length
    have hindex := h.index_le
    change m.currentindex + n ≤ m.len
    omega

end Whole

end Matcher

open Matcher

variable {m : Matcher} {α : Type*}

/-- What is done to a matcher gives the same whatever lies behind it, and
stays inside of it. -/
def Blind (m : Matcher) (f : Matcher → α × Matcher) : Prop :=
  ∃ result after, Whole after ∧ after.len = m.len ∧
    ∀ more, f (m.extend more) = (result, after.extend more)

theorem consumeStrIfMatch_blind (h : m.Whole) (str : Text) :
    Blind m (smatcherConsumeStrIfMatch · str) := by
  by_cases hlen : m.rest.length < kstrlen str
  · refine ⟨false, m, h, rfl, fun more => ?_⟩
    simp only [smatcherConsumeStrIfMatch, extend_len, extend_currentindex,
      h.wrapSub_eq, if_pos hlen]
  · have hle := Nat.le_of_not_lt hlen
    have hcmp : ∀ more, kstrncmp (m.extend more).rest str (kstrlen str) =
        kstrncmp m.rest str (kstrlen str) := by
      intro more
      rw [h.rest_extend, kstrncmp_append hle]
    by_cases heq : kstrncmp m.rest str (kstrlen str) = 0
    · refine ⟨true, _, h.advance hle, rfl, fun more => ?_⟩
      simp only [smatcherConsumeStrIfMatch, extend_len, extend_currentindex,
        h.wrapSub_eq, if_neg hlen, hcmp, heq]
      rfl
    · refine ⟨false, m, h, rfl, fun more => ?_⟩
      simp only [smatcherConsumeStrIfMatch, extend_len, extend_currentindex,
        h.wrapSub_eq, if_neg hlen, hcmp, ne_eq, heq, not_false_eq_true,
        if_true]

theorem consumeWordIfMatch_blind (h : m.Whole) (str : Text) :
    Blind m (smatcherConsumeWordIfMatch · str) := by
  by_cases hlen : m.rest.length < kstrlen str
  · refine ⟨false, m, h, rfl, fun more => ?_⟩
    simp only [smatcherConsumeWordIfMatch, extend_len, extend_currentindex,
      h.wrapSub_eq, if_pos hlen]
  · have hle := Nat.le_of_not_lt hlen
    have hcmp : ∀ more, kstrncmp (m.extend more).rest str (kstrlen str) =
        kstrncmp m.rest str (kstrlen str) := by
      intro more
      rw [h.rest_extend, kstrncmp_append hle]
    -- the byte behind the buffer is read, but then it does not count
    have hstop : ∀ more, (m.currentindex + kstrlen str ≠ m.len ∧
        isspace (((m.extend more).rest.drop (kstrlen str)).headD 0) = false ↔
        m.currentindex + kstrlen str ≠ m.len ∧
          isspace ((m.rest.drop (kstrlen str)).headD 0) = false) := by
      refine fun more => and_congr_right fun hne => ?_
      have hlength := h.rest_length
      have hindex := h.index_le
      rw [h.rest_extend, List.drop_append_of_le_length hle, headD_append]
      refine List.ne_nil_of_length_pos ?_
      rw [List.length_drop]
      omega
    by_cases heq : kstrncmp m.rest str (kstrlen str) = 0
    · by_cases hne : m.currentindex + kstrlen str ≠ m.len ∧
          isspace ((m.rest.drop (kstrlen str)).headD 0) = false
      · refine ⟨false, m, h, rfl, fun more => ?_⟩
        simp only [smatcherConsumeWordIfMatch, extend_len,
          extend_currentindex, h.wrapSub_eq, if_neg hlen, hcmp,
          if_neg (not_not_intro heq)]
        exact if_pos ((hstop more).2 hne)
      · refine ⟨true, _, h.advance hle, rfl, fun more => ?_⟩
        simp only [smatcherConsumeWordIfMatch, extend_len,
          extend_currentindex, h.wrapSub_eq, if_neg hlen, hcmp,
          if_neg (not_not_intro heq)]
        exact if_neg (hne ∘ (hstop more).1)
    · refine ⟨false, m, h, rfl, fun more => ?_⟩
      simp only [smatcherConsumeWordIfMatch, extend_len, extend_currentindex,
        h.wrapSub_eq, if_neg hlen, hcmp, ne_eq, heq, not_false_eq_true,
        if_true]

theorem skipWhitespaces_blind (h : m.Whole)
    (hgood : ∃ c ∈ m.window, isspace c = false) :
    Blind m (fun self => (Result.skipped, smatcherSkipWhitespaces self)) := by
  rw [h.window_eq] at hgood
  have hle := skipWhitespacesLoop_le m.rest m.currentindex
  have hlength := h.rest_length
  have hindex := h.index_le
  refine ⟨.skipped, smatcherSkipWhitespaces m, ⟨h.len_eq, h.len_lt, ?_⟩, rfl,
    fun more => ?_⟩
  · change skipWhitespacesLoop m.rest m.currentindex ≤ m.len
    omega
  · simp only [smatcherSkipWhitespaces, h.rest_extend, extend_currentindex,
      skipWhitespacesLoop_append hgood]
    rfl

theorem consumeWord_blind (h : m.Whole) : Blind m smatcherConsumeWord := by
  have hlength := h.rest_length
  have hindex := h.index_le
  by_cases hend : m.currentindex = m.len
  · refine ⟨none, m, h, rfl, fun more => ?_⟩
    rw [smatcherConsumeWord, extend_len, extend_currentindex,
      if_pos (Or.inl hend)]
  · have hhead : ∀ more, (m.extend more).rest.headD 0 = m.rest.headD 0 := by
      intro more
      rw [h.rest_extend]
      refine headD_append (List.ne_nil_of_length_pos ?_) more
      omega
    by_cases hspace : isspace (m.rest.headD 0)
    · refine ⟨none, m, h, rfl, fun more => ?_⟩
      rw [smatcherConsumeWord, hhead, if_pos (Or.inr hspace)]
    · have hle := consumeWordLoop_le (m.len - m.currentindex) m.rest
      rw [← hlength] at hle
      refine ⟨some (m.currentindex, consumeWordLoop m.rest.length m.rest), _,
        h.advance hle, rfl, fun more => ?_⟩
      rw [smatcherConsumeWord, hhead, extend_len, extend_currentindex,
        if_neg (not_or.2 ⟨hend, hspace⟩)]
      simp only [h.rest_extend, ← hlength, consumeWordLoop_append le_rfl]
      rfl

theorem call_blind (h : m.Whole) {c : Call} (hgood : Good m c) :
    Blind m (call · c) := by
  cases c with
  | consumeStrIfMatch str =>
      obtain ⟨value, after, hafter, hlen, heq⟩ := consumeStrIfMatch_blind h str
      refine ⟨.matched value, after, hafter, hlen, fun more => ?_⟩
      simp only [call, heq]
  | consumeWordIfMatch str =>
      obtain ⟨value, after, hafter, hlen, heq⟩ := consumeWordIfMatch_blind h str
      refine ⟨.matched value, after, hafter, hlen, fun more => ?_⟩
      simp only [call, heq]
  | skipWhitespaces => exact skipWhitespaces_blind h hgood
  | consumeWord =>
      obtain ⟨value, after, hafter, hlen, heq⟩ := consumeWord_blind h
      refine ⟨.word value, after, hafter, hlen, fun more => ?_⟩
      simp only [call, heq]

theorem extend_nil (m : Matcher) : m.extend [] = m := by
  rw [Matcher.extend, List.append_nil]

theorem run_blind (h : m.Whole) {calls : List Call} (hgood : GoodRun m calls) :
    Blind m (run · calls) := by
  induction calls generalizing m with
  | nil => exact ⟨[], m, h, rfl, fun _ => rfl⟩
  | cons c rest ih =>
      obtain ⟨result, next, hnext, hlen, hcall⟩ := call_blind h hgood.1
      have hbare : call m c = (result, next) := by
        have hnil := hcall []
        rwa [extend_nil, extend_nil] at hnil
      have hrest := hgood.2
      rw [hbare] at hrest
      obtain ⟨results, after, hafter, hlen', hrun⟩ := ih hnext hrest
      refine ⟨result :: results, after, hafter, hlen'.trans hlen, ?_⟩
      intro more
      simp only [run, hcall, hrun]

theorem goodRun_initial {calls done : List Call} (hdone : done <+: calls)
    (hgood : GoodRun m calls) : GoodRun m done := by
  induction done generalizing m calls with
  | nil => exact trivial
  | cons c done ih =>
      obtain ⟨rest, rfl⟩ := hdone
      exact ⟨hgood.1, ih (List.prefix_append _ _) hgood.2⟩

theorem goodRun_of_bounded (h : m.Whole) {calls : List Call}
    (hbound : ∀ done, done <+: calls →
      (run (m.extend [0x20]) done).2.currentindex ≤ m.len) :
    GoodRun m calls := by
  induction calls generalizing m with
  | nil => exact trivial
  | cons c rest ih =>
      have hgood : Good m c := by
        cases c with
        | skipWhitespaces =>
            by_contra hnot
            have hall : ∀ d ∈ m.rest ++ [0x20], isspace d = true := by
              rw [Good, h.window_eq] at hnot
              intro d hd
              rcases List.mem_append.1 hd with hd | hd
              · by_contra hspace
                exact hnot ⟨d, hd, by simpa using hspace⟩
              · rw [List.mem_singleton.1 hd]
                rfl
            have hskip := hbound [.skipWhitespaces] ⟨rest, rfl⟩
            have hlength := h.rest_length
            have hindex := h.index_le
            change skipWhitespacesLoop (m.extend [0x20]).rest
              m.currentindex ≤ m.len at hskip
            rw [h.rest_extend, skipWhitespacesLoop_all hall,
              List.length_append, List.length_singleton] at hskip
            omega
        | consumeStrIfMatch str => exact trivial
        | consumeWordIfMatch str => exact trivial
        | consumeWord => exact trivial
      refine ⟨hgood, ?_⟩
      obtain ⟨result, next, hnext, hlen, hcall⟩ := call_blind h hgood
      have hbare : call m c = (result, next) := by
        have hnil := hcall []
        rwa [extend_nil, extend_nil] at hnil
      rw [hbare]
      refine ih hnext fun done hdone => ?_
      have hrun := hbound (c :: done) (List.cons_prefix_cons.2 ⟨rfl, hdone⟩)
      simp only [run, hcall] at hrun
      rw [hlen]
      exact hrun

theorem smatcherInitWithLen_whole {text : Text} (h : text.length < 4294967296) :
    (smatcherInitWithLen text text.length).Whole :=
  ⟨rfl, h, Nat.zero_le _⟩

/-- For the bytes of a matcher and any calls, the index stays within the
matcher and all is the same whatever lies behind it, exactly when the calls
never skip whitespace up to the end. -/
theorem bounded_and_blind_iff (text : Text) (hlen : text.length + 1 < 4294967296)
    (calls : List Call) :
    (∀ more more' : Text, (text ++ more).length < 4294967296 →
      (text ++ more').length < 4294967296 →
      let m := smatcherInitWithLen (text ++ more) text.length
      let m' := smatcherInitWithLen (text ++ more') text.length
      (∀ done, done <+: calls →
        (run m done).2.currentindex ≤ text.length) ∧
      (run m calls).1 = (run m' calls).1 ∧
      (run m calls).2.currentindex = (run m' calls).2.currentindex) ↔
    GoodRun (smatcherInitWithLen text text.length) calls := by
  have hfits : text.length < 4294967296 := by omega
  have hwhole := smatcherInitWithLen_whole hfits
  constructor
  · intro h
    refine goodRun_of_bounded hwhole fun done hdone => ?_
    have hfits : (text ++ [(0x20 : BitVec 8)]).length < 4294967296 := by
      rwa [List.length_append]
    exact (h [0x20] [0x20] hfits hfits).1 done hdone
  · intro hgood more more' _ _
    refine ⟨fun done hdone => ?_, ?_⟩
    · obtain ⟨results, after, hafter, hsame, hrun⟩ :=
        run_blind hwhole (goodRun_initial hdone hgood)
      have hmore := hrun more
      change run (smatcherInitWithLen (text ++ more) text.length) done = _
        at hmore
      have hindex : after.currentindex ≤ after.len := hafter.index_le
      rw [hsame] at hindex
      rw [hmore]
      exact hindex
    · obtain ⟨results, after, hafter, hsame, hrun⟩ := run_blind hwhole hgood
      have hmore := hrun more
      have hmore' := hrun more'
      change run (smatcherInitWithLen (text ++ more) text.length) calls = _
        at hmore
      change run (smatcherInitWithLen (text ++ more') text.length) calls = _
        at hmore'
      rw [hmore, hmore']
      exact ⟨rfl, rfl⟩

theorem two_words_blind :
    let calls := [Call.consumeWord, .skipWhitespaces, .consumeWord]
    (run (smatcherInitWithLen [0x61, 0x20, 0x62] 3) calls).1 =
      (run (smatcherInitWithLen [0x61, 0x20, 0x62, 0x20] 3) calls).1 := by
  intro calls
  have hgood : GoodRun (smatcherInitWithLen [0x61, 0x20, 0x62] 3) calls :=
    ⟨trivial, ⟨0x62, by decide, rfl⟩, trivial, trivial⟩
  have hblind := (bounded_and_blind_iff [0x61, 0x20, 0x62] (by simp) calls).2
    hgood [] [0x20] (by simp) (by simp)
  exact hblind.2.1

/-- The matcher has the first byte of `"a "`. -/
theorem skip_leaves_matcher :
    ¬∀ (str : Text) (len : ℕ) (calls : List Call), len ≤ str.length →
      (run (smatcherInitWithLen str len) calls).2.currentindex ≤ len := by
  intro h
  have hskip := h [0x61, 0x20] 1 [.consumeWord, .skipWhitespaces] (by decide)
  exact absurd hskip (by decide)

end Smatcher
end Yjkos
