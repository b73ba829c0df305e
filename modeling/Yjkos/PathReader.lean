import Yjkos.VfsResolve

/-!
# The path reader

`kernel/lib/pathreader.c` with the buffer of the reader.  A name in front of a
slash is copied to the buffer, after a look at its length; the name behind the
last slash is the rest of the caller's string, whatever its length.  So the
reader splits a path as it should unless only this name is too long.
-/

namespace Yjkos
namespace Vfs

open SlashPath

/-- A `struct path_reader`. -/
structure PathReader where
  remainingPath : Text
  nameBuf : Text

def pathreaderInit (nameBuf path : Text) : PathReader where
  remainingPath := path
  nameBuf := nameBuf

/-- The loop of `pathreader_next`.  Gives the string behind `name_out`. -/
def PathReader.nextLoop :
    ℕ → PathReader → Except Fault (Except Errno Text × PathReader)
  | 0, _ => .error .outOfFuel
  | fuel + 1, self =>
      if self.remainingPath.headD 0 = 0 then .ok (.error .enoent, self)
      else
        match kstrchr self.remainingPath slash with
        | none =>
            let name := self.remainingPath
            let self := { self with remainingPath := [] }
            if name.headD 0 = 0 then nextLoop fuel self
            else .ok (.ok name, self)
        | some len =>
            if nameMax < len then .ok (.error .enametoolong, self)
            else do
              let nameBuf ← store (nameMax + 1) self.nameBuf 0
                (self.remainingPath.take len)
              let nameBuf ← store (nameMax + 1) nameBuf len [0]
              let self : PathReader :=
                { remainingPath := self.remainingPath.drop (len + 1)
                  nameBuf := nameBuf }
              if nameBuf.headD 0 = 0 then nextLoop fuel self
              else .ok (.ok (textAt nameBuf), self)

/-- `pathreader_next`. -/
def PathReader.next (self : PathReader) :
    Except Fault (Except Errno Text × PathReader) :=
  self.nextLoop (self.remainingPath.length + 1)

/-- One call after `n` other calls. -/
def PathReader.call :
    ℕ → PathReader → Except Fault (Except Errno Text × PathReader)
  | 0, self => self.next
  | n + 1, self => do
      let (_, self) ← self.next
      self.call n

/-- What the calls return. -/
def PathReader.results (self : PathReader) (n : ℕ) :
    Except Fault (Except Errno Text) :=
  (self.call n).map Prod.fst

/-! ## What the calls should return -/

/-- The names one after the other and then `-ENOENT`, but `-ENAMETOOLONG` at
the first name which is too long. -/
structure Yields (list : List Text)
    (results : ℕ → Except Fault (Except Errno Text)) : Prop where
  returns : ∀ n, ∃ result, results n = .ok result
  names : ∀ n name, (fitting list)[n]? = some name →
    results n = .ok (.ok name)
  tooLong : fitting list ≠ list →
    results (fitting list).length = .ok (.error .enametoolong)
  ended : fitting list = list → ∀ n, list.length ≤ n →
    results n = .ok (.error .enoent)

theorem yields_nil_iff {results : ℕ → Except Fault (Except Errno Text)} :
    Yields [] results ↔ ∀ n, results n = .ok (.error .enoent) := by
  constructor
  · intro h n
    exact h.ended rfl n (Nat.zero_le n)
  · intro h
    exact
      { returns := fun n => ⟨_, h n⟩
        names := by
          intro n name hname
          simp at hname
        tooLong := fun hne => absurd rfl hne
        ended := fun _ n _ => h n }

theorem yields_cons_iff {name : Text} {list : List Text}
    {results : ℕ → Except Fault (Except Errno Text)}
    (hname : name.length ≤ nameMax) :
    Yields (name :: list) results ↔
      results 0 = .ok (.ok name) ∧ Yields list (fun n => results (n + 1)) := by
  have hcons := fitting_cons_of_le list hname
  constructor
  · intro h
    refine ⟨h.names 0 name (by rw [hcons]; rfl), ?_, ?_, ?_, ?_⟩
    · exact fun n => h.returns (n + 1)
    · intro n other hother
      exact h.names (n + 1) other (by rw [hcons]; exact hother)
    · intro hne
      have htoo := h.tooLong (by rw [hcons]; simpa using hne)
      rw [hcons] at htoo
      exact htoo
    · intro heq n hn
      exact h.ended (by rw [hcons, heq]) (n + 1) (Nat.succ_le_succ hn)
  · rintro ⟨hzero, h⟩
    refine ⟨?_, ?_, ?_, ?_⟩
    · intro n
      cases n with
      | zero => exact ⟨_, hzero⟩
      | succ n => exact h.returns n
    · intro n other hother
      rw [hcons] at hother
      cases n with
      | zero =>
          cases hother
          exact hzero
      | succ n => exact h.names n other hother
    · intro hne
      rw [hcons] at hne ⊢
      exact h.tooLong (fun heq => hne (by rw [heq]))
    · intro heq n hn
      rw [hcons] at heq
      cases n with
      | zero => exact absurd hn (Nat.not_succ_le_zero _)
      | succ n =>
          exact h.ended (List.cons.inj heq).2 n (Nat.le_of_succ_le_succ hn)

theorem Yields.head_tooLong {name : Text} {list : List Text}
    {results : ℕ → Except Fault (Except Errno Text)}
    (h : Yields (name :: list) results) (hname : nameMax < name.length) :
    results 0 = .ok (.error .enametoolong) := by
  have hnil := fitting_cons_of_lt list hname
  have htoo := h.tooLong (by rw [hnil]; simp)
  rwa [hnil] at htoo

theorem yields_tooLong {name : Text} {list : List Text}
    {results : ℕ → Except Fault (Except Errno Text)}
    (hname : nameMax < name.length)
    (hreturns : ∀ n, ∃ result, results n = .ok result)
    (hzero : results 0 = .ok (.error .enametoolong)) :
    Yields (name :: list) results := by
  have hnil := fitting_cons_of_lt list hname
  refine ⟨hreturns, ?_, ?_, ?_⟩
  · intro n other hother
    rw [hnil] at hother
    simp at hother
  · intro _
    rw [hnil]
    exact hzero
  · intro heq
    rw [hnil] at heq
    cases heq

/-! ## The name behind the last slash -/

def lastName (path : Text) : Text := (path.splitOn slash).getLastD []

theorem lastName_name {name : Text} (rest : Text) (hname : slash ∉ name) :
    lastName (name ++ slash :: rest) = lastName rest := by
  unfold lastName
  rw [splitOn_name slash hname]
  cases h : rest.splitOn slash with
  | nil => exact absurd h (List.splitOn_ne_nil slash rest)
  | cons first more => rfl

theorem lastName_last {name : Text} (hname : slash ∉ name) :
    lastName name = name := by
  unfold lastName
  rw [List.splitOn_eq_singleton hname]
  rfl

/-- The name behind the last slash is not the first one which is too long. -/
def LastFits (path : Text) : Prop :=
  NamesFit path → (lastName path).length ≤ nameMax

instance (path : Text) : Decidable (LastFits path) :=
  inferInstanceAs (Decidable (_ → _))

theorem lastFits_nil : LastFits [] := by
  intro _
  rw [lastName_last List.not_mem_nil]
  exact Nat.zero_le _

theorem lastFits_name {name : Text} (rest : Text) (hname : slash ∉ name)
    (hlength : name.length ≤ nameMax) :
    LastFits (name ++ slash :: rest) ↔ LastFits rest := by
  unfold LastFits
  rw [namesFit_name rest hname, lastName_name rest hname, and_iff_right hlength]

theorem lastFits_last {name : Text} (hname : slash ∉ name) :
    LastFits name ↔ name.length ≤ nameMax := by
  unfold LastFits
  rw [lastName_last hname]
  exact forall_prop_of_true (namesFit_last hname)

/-! ## One call -/

/-- How a call ends, for the path in front of it and the path behind it. -/
inductive NextCall (path : Text) : Except Errno Text → Text → Prop where
  | done (hnames : names slash path = []) (hlast : LastFits path) :
      NextCall path (.error .enoent) []
  | tooLong {name rest : Text} {list : List Text}
      (hnames : names slash path = name :: list)
      (hlong : nameMax < name.length) (hlast : LastFits path) :
      NextCall path (.error .enametoolong) rest
  | name {name rest : Text}
      (hnames : names slash path = name :: names slash rest)
      (hshort : name.length ≤ nameMax)
      (hlast : LastFits path ↔ LastFits rest) :
      NextCall path (.ok name) rest
  | last {name : Text} (hnames : names slash path = [name])
      (hlast : LastFits path ↔ name.length ≤ nameMax) :
      NextCall path (.ok name) []

theorem lastFits_cons_slash (rest : Text) :
    LastFits (slash :: rest) ↔ LastFits rest :=
  lastFits_name rest List.not_mem_nil (Nat.zero_le _)

theorem NextCall.cons_slash {path rest : Text} {result : Except Errno Text}
    (h : NextCall path result rest) : NextCall (slash :: path) result rest := by
  have hsame := names_cons_sep slash path
  have hfits := lastFits_cons_slash path
  cases h with
  | done hnames hlast => exact .done (hsame.trans hnames) (hfits.2 hlast)
  | tooLong hnames hlong hlast =>
      exact .tooLong (hsame.trans hnames) hlong (hfits.2 hlast)
  | name hnames hshort hlast =>
      exact .name (hsame.trans hnames) hshort (hfits.trans hlast)
  | last hnames hlast =>
      exact .last (hsame.trans hnames) (hfits.trans hlast)

/-- What a call does to the reader. -/
structure Reads (reader : PathReader) (result : Except Errno Text)
    (reader' : PathReader) : Prop where
  next : NextCall reader.remainingPath result reader'.remainingPath
  buffer : reader'.nameBuf.length = nameMax + 1
  suffix : reader'.remainingPath <:+ reader.remainingPath
  agrees : pathreaderNext reader.remainingPath =
    result.map (fun name => (name, reader'.remainingPath))

theorem length_store {size pos : ℕ} {memory bytes memory' : Text}
    (hlength : memory.length = size)
    (h : store size memory pos bytes = .ok memory') :
    memory'.length = size := by
  unfold store at h
  split at h
  next hroom =>
    cases h
    simp only [List.length_append, List.length_take, List.length_drop]
    omega
  next => cases h

/-- The copy of a name to the buffer. -/
theorem store_name {nameBuf : Text} (name : Text)
    (hbuf : nameBuf.length = nameMax + 1) (hshort : name.length ≤ nameMax) :
    ∃ first rest, store (nameMax + 1) nameBuf 0 name = .ok first ∧
      store (nameMax + 1) first name.length [0] = .ok (name ++ 0 :: rest) ∧
      (name ++ 0 :: rest).length = nameMax + 1 := by
  have hfirst := @store_at (nameMax + 1) [] nameBuf [] name
    (by simpa using hbuf) (by omega)
  have hsize : name.length + (nameBuf.drop name.length).length =
      nameMax + 1 := by
    rw [List.length_drop]
    omega
  have hsecond := store_at [] [0] hsize
    (by rw [List.length_singleton, List.length_drop]; omega)
  simp only [List.append_nil, List.nil_append, List.length_nil,
    List.length_singleton, List.cons_append] at hfirst hsecond
  exact ⟨_, _, hfirst, hsecond,
    length_store (length_store hbuf hfirst) hsecond⟩

theorem textAt_nul {name : Text} (hnul : 0 ∉ name) (rest : Text) :
    textAt (name ++ 0 :: rest) = name := by
  unfold textAt
  rw [List.takeWhile_append_of_pos]
  · simp
  · intro c hc
    exact decide_eq_true (fun hzero => hnul (hzero ▸ hc))

theorem headD_append_nul {name : Text} (rest : Text) (hnul : 0 ∉ name) :
    (name ++ 0 :: rest).headD 0 = 0 ↔ name = [] := by
  cases name with
  | nil => simp
  | cons c name =>
      rw [List.mem_cons, not_or] at hnul
      exact iff_of_false (fun hc => hnul.1 (Eq.symm hc))
        (List.cons_ne_nil c name)

/-- A turn of the loop which copies a name to the buffer. -/
theorem PathReader.nextLoop_copy {fuel len : ℕ} {self : PathReader}
    (hnul : 0 ∉ self.remainingPath)
    (hbuf : self.nameBuf.length = nameMax + 1)
    (hfind : kstrchr self.remainingPath slash = some len)
    (hshort : len ≤ nameMax) :
    ∃ nameBuf, nameBuf.length = nameMax + 1 ∧
      self.nextLoop (fuel + 1) =
        if len = 0 then
          nextLoop fuel ⟨self.remainingPath.drop (len + 1), nameBuf⟩
        else
          .ok (.ok (self.remainingPath.take len),
            ⟨self.remainingPath.drop (len + 1), nameBuf⟩) := by
  obtain ⟨path, nameBuf⟩ := self
  dsimp only at hnul hbuf hfind ⊢
  obtain ⟨hslash, hsplit, hlength⟩ := kstrchr_some hfind
  have hname : 0 ∉ path.take len := fun hmem => hnul (List.mem_of_mem_take hmem)
  obtain ⟨first, rest, hfirst, hsecond, hroom⟩ :=
    store_name (path.take len) hbuf (by omega)
  rw [hlength] at hsecond
  have hhead : path.headD 0 ≠ 0 := by
    cases path with
    | nil => simp at hsplit
    | cons c path => exact fun hc => hnul (List.mem_cons.2 (.inl hc.symm))
  refine ⟨_, hroom, ?_⟩
  rw [nextLoop]
  dsimp only
  rw [if_neg hhead, hfind]
  dsimp only
  rw [if_neg (not_lt.2 hshort), hfirst]
  show (store _ first len [0] >>= _) = _
  rw [hsecond]
  show (if (path.take len ++ 0 :: rest).headD 0 = 0 then _ else _) = _
  rw [textAt_nul hname]
  have hempty : path.take len = [] ↔ len = 0 := by
    rw [← List.length_eq_zero_iff, hlength]
  simp only [headD_append_nul rest hname, hempty]

theorem PathReader.nextLoop_spec {fuel : ℕ} {self : PathReader}
    (hnul : 0 ∉ self.remainingPath)
    (hbuf : self.nameBuf.length = nameMax + 1)
    (hfuel : self.remainingPath.length < fuel) :
    ∃ result self', self.nextLoop fuel = .ok (result, self') ∧
      Reads self result self' := by
  induction fuel generalizing self with
  | zero => omega
  | succ fuel ih =>
      obtain ⟨path, nameBuf⟩ := self
      cases path with
      | nil =>
          exact ⟨_, _, rfl, .done (names_nil slash) lastFits_nil, hbuf,
            List.suffix_rfl, rfl⟩
      | cons c path =>
          have hc : c ≠ 0 := fun hc => hnul (by simp [hc])
          cases hfind : kstrchr (c :: path) slash with
          | none =>
              have hslash := kstrchr_none hfind
              refine ⟨.ok (c :: path), ⟨[], nameBuf⟩, ?_,
                .last (names_last slash hslash (List.cons_ne_nil c path))
                  (lastFits_last hslash), hbuf, List.nil_suffix, ?_⟩
              · rw [nextLoop]
                dsimp only
                rw [List.headD_cons, if_neg hc, hfind]
                exact if_neg hc
              · rw [pathreaderNext, hfind]
                rfl
          | some len =>
              obtain ⟨hslash, hsplit, hlength⟩ := kstrchr_some hfind
              by_cases hlong : nameMax < len
              · refine ⟨.error .enametoolong, ⟨c :: path, nameBuf⟩, ?_, ?_,
                  hbuf, List.suffix_rfl, ?_⟩
                · rw [nextLoop]
                  dsimp only
                  rw [List.headD_cons, if_neg hc, hfind]
                  exact if_pos hlong
                · have hnames := names_name slash
                    ((c :: path).drop (len + 1)) hslash (by
                      rw [← List.length_pos_iff]
                      omega)
                  rw [← hsplit] at hnames
                  refine .tooLong hnames (by omega) (fun hfit => ?_)
                  rw [hsplit, namesFit_name _ hslash, hlength] at hfit
                  exact absurd hlong (not_lt.2 hfit.1)
                · rw [pathreaderNext, hfind]
                  dsimp only
                  rw [if_pos hlong]
                  rfl
              · obtain ⟨nameBuf', hbuf', hcopy⟩ :=
                  nextLoop_copy hnul hbuf hfind (not_lt.1 hlong)
                have hagree : pathreaderNext (c :: path) =
                    if len = 0 then pathreaderNext path
                    else .ok ((c :: path).take len,
                      (c :: path).drop (len + 1)) := by
                  rw [pathreaderNext, hfind]
                  exact if_neg hlong
                have hshort : ((c :: path).take len).length ≤ nameMax := by
                  omega
                rw [hcopy]
                by_cases hzero : len = 0
                · subst hzero
                  have hslash' : c = slash := (List.cons.inj hsplit).1
                  obtain ⟨result, self', hcall, hreads⟩ :=
                    @ih ⟨path, nameBuf'⟩
                      (fun hmem => hnul (List.mem_cons_of_mem c hmem)) hbuf'
                      (Nat.lt_of_succ_lt_succ hfuel)
                  refine ⟨result, self', hcall, ?_, hreads.buffer,
                    hreads.suffix.trans (List.suffix_cons c path), ?_⟩
                  · show NextCall (c :: path) result self'.remainingPath
                    rw [hslash']
                    exact hreads.next.cons_slash
                  · exact (hagree.trans (if_pos rfl)).trans hreads.agrees
                · rw [if_neg hzero]
                  refine ⟨_, _, rfl, .name ?_ hshort ?_, hbuf',
                    List.drop_suffix _ _, hagree.trans (if_neg hzero)⟩
                  · have hnames := names_name slash
                      ((c :: path).drop (len + 1)) hslash (by
                        rw [← List.length_pos_iff]
                        omega)
                    rwa [← hsplit] at hnames
                  · have hlast := lastFits_name
                      ((c :: path).drop (len + 1)) hslash (by omega)
                    rwa [← hsplit] at hlast

theorem PathReader.next_spec {self : PathReader}
    (hnul : 0 ∉ self.remainingPath)
    (hbuf : self.nameBuf.length = nameMax + 1) :
    ∃ result self', self.next = .ok (result, self') ∧
      Reads self result self' :=
  nextLoop_spec hnul hbuf (Nat.lt_succ_self _)

/-! ## One call after the other -/

theorem PathReader.results_zero {self self' : PathReader}
    {result : Except Errno Text} (h : self.next = .ok (result, self')) :
    self.results 0 = .ok result := by
  unfold results call
  rw [h]
  rfl

theorem PathReader.results_succ {self self' : PathReader}
    {result : Except Errno Text} (h : self.next = .ok (result, self'))
    (n : ℕ) : self.results (n + 1) = self'.results n := by
  unfold results
  rw [call, h]
  rfl

theorem PathReader.results_return {self : PathReader}
    (hnul : 0 ∉ self.remainingPath)
    (hbuf : self.nameBuf.length = nameMax + 1) (n : ℕ) :
    ∃ result, self.results n = .ok result := by
  induction n generalizing self with
  | zero =>
      obtain ⟨result, self', hnext, -⟩ := next_spec hnul hbuf
      exact ⟨result, results_zero hnext⟩
  | succ n ih =>
      obtain ⟨result, self', hnext, hreads⟩ := next_spec hnul hbuf
      rw [results_succ hnext]
      exact ih (fun hmem => hnul (hreads.suffix.subset hmem)) hreads.buffer

theorem PathReader.results_ended {self : PathReader}
    (hpath : self.remainingPath = []) (n : ℕ) :
    self.results n = .ok (.error .enoent) := by
  have hnext : self.next = .ok (.error .enoent, self) := by
    obtain ⟨path, nameBuf⟩ := self
    cases hpath
    rfl
  induction n with
  | zero => exact results_zero hnext
  | succ n ih => exact (results_succ hnext n).trans ih

theorem PathReader.yields_iff {self : PathReader}
    (hnul : 0 ∉ self.remainingPath)
    (hbuf : self.nameBuf.length = nameMax + 1) :
    Yields (names slash self.remainingPath) self.results ↔
      LastFits self.remainingPath := by
  induction hlength : self.remainingPath.length using Nat.strong_induction_on
    generalizing self with
  | _ length ih =>
      obtain ⟨result, self', hnext, hreads⟩ := next_spec hnul hbuf
      have hnul' : 0 ∉ self'.remainingPath :=
        fun hmem => hnul (hreads.suffix.subset hmem)
      have hzero := results_zero hnext
      have hsucc : (fun n => self.results (n + 1)) = self'.results :=
        funext (results_succ hnext)
      have hshorter : ∀ name, result = .ok name →
          self'.remainingPath.length < length := by
        intro name hname
        have hspec := pathreaderNext_spec self.remainingPath
        rw [hreads.agrees, hname] at hspec
        exact hlength ▸ NextName.length_lt hspec
      have hcall := hreads.next
      have hbuf' := hreads.buffer
      generalize hrest : self'.remainingPath = rest at hcall hnul' hshorter
      cases hcall with
      | done hnames hlast =>
          rw [hnames, yields_nil_iff]
          refine iff_of_true (fun n => ?_) hlast
          cases n with
          | zero => exact hzero
          | succ n =>
              rw [results_succ hnext]
              exact results_ended hrest n
      | tooLong hnames hlong hlast =>
          rw [hnames]
          exact iff_of_true
            (yields_tooLong hlong (results_return hnul hbuf) hzero) hlast
      | @name name _ hnames hshort hlast =>
          have hrun := ih _ (hshorter name rfl) (by rwa [hrest]) hbuf'
            (congrArg List.length hrest)
          rw [hrest] at hrun
          rw [hnames, yields_cons_iff hshort, hsucc, hrun, hlast]
          exact and_iff_right hzero
      | @last name hnames hlast =>
          rw [hnames, hlast]
          constructor
          · intro h
            by_contra hlong
            have herror := h.head_tooLong (not_le.1 hlong)
            rw [hzero] at herror
            cases herror
          · intro hshort
            rw [yields_cons_iff hshort, yields_nil_iff]
            refine ⟨hzero, fun n => ?_⟩
            rw [results_succ hnext]
            exact results_ended hrest n

/-- The reader splits a path, unless the name behind the last slash is the
first one which is too long. -/
theorem pathreader_splits_iff (path : PathString) (nameBuf : Text)
    (hbuf : nameBuf.length = nameMax + 1) :
    Yields (names slash path.bytes)
      (pathreaderInit nameBuf path.bytes).results ↔ LastFits path.bytes :=
  @PathReader.yields_iff (pathreaderInit nameBuf path.bytes) path.noNul hbuf

theorem pathreader_splits_empty_segments :
    Yields [dot, dotdot] (pathreaderInit (List.replicate 256 0)
      (dot ++ slash :: slash :: (dotdot ++ [slash]))).results := by
  have hsplit := pathreader_splits_iff
    ⟨dot ++ slash :: slash :: (dotdot ++ [slash]), by decide, by decide⟩
    (List.replicate 256 0) List.length_replicate
  exact hsplit.2 (by decide)

/-- A single name of 256 bytes is given out. -/
theorem long_last_name_given :
    ¬Yields (names slash (List.replicate 256 0x61))
      (pathreaderInit (List.replicate 256 0)
        (List.replicate 256 0x61)).results := by
  have hslash : slash ∉ List.replicate 256 (0x61 : BitVec 8) :=
    fun hmem => absurd (List.eq_of_mem_replicate hmem) (by decide)
  have hnul : 0 ∉ List.replicate 256 (0x61 : BitVec 8) :=
    fun hmem => absurd (List.eq_of_mem_replicate hmem) (by decide)
  have hiff := @PathReader.yields_iff
    (pathreaderInit (List.replicate 256 0) (List.replicate 256 0x61)) hnul
    List.length_replicate
  intro h
  have hlast : LastFits (List.replicate 256 0x61) := hiff.1 h
  rw [lastFits_last hslash, List.length_replicate] at hlast
  exact absurd hlast (by decide)

end Vfs
end Yjkos
