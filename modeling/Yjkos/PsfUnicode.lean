import Yjkos.PsfLoad
import Yjkos.UnicodeTable

/-!
# Unicode tables of fonts

The two formats write the same entries with different bytes: the single
characters of a glyph, its sequences, each behind a mark, and a terminator.
Both loops take the characters in turn and pass over the marks, so they map
the characters of sequences as well.
-/

namespace Yjkos
namespace Psf

open UnicodeTable

/-- How a format writes characters, the mark in front of a sequence and the
end of an entry. -/
structure Encoding (α : Type) where
  code : α → ℕ
  char : α → List (BitVec 8)
  mark : List (BitVec 8)
  terminator : List (BitVec 8)
  char_pos : ∀ c, 1 ≤ (char c).length
  mark_pos : 1 ≤ mark.length
  terminator_pos : 1 ≤ terminator.length

namespace Encoding

variable {α : Type} (enc : Encoding α)

def chars (cs : List α) : List (BitVec 8) := cs.flatMap enc.char

def entry (e : Entry α) : List (BitVec 8) :=
  enc.chars e.singles ++
    (e.sequences.flatMap fun s => enc.mark ++ enc.chars s) ++ enc.terminator

def table (entries : List (Entry α)) : List (BitVec 8) :=
  entries.flatMap enc.entry

/-- A character or, without one, the mark. -/
def token : Option α → List (BitVec 8)
  | some c => enc.char c
  | none => enc.mark

/-- The entry has a character with the code, single or in a sequence. -/
def Occurs (cp : ℕ) (e : Entry α) : Prop := ∃ c ∈ e.chars, enc.code c = cp

def Listed (cp : ℕ) (e : Entry α) : Prop := ∃ c ∈ e.singles, enc.code c = cp

instance (cp : ℕ) : DecidablePred (enc.Occurs cp) := fun e => by
  unfold Occurs
  infer_instance

instance (cp : ℕ) : DecidablePred (enc.Listed cp) := fun e => by
  unfold Listed
  infer_instance

end Encoding

/-- What is in front of the terminator of an entry. -/
def tokens {α : Type} (e : Entry α) : List (Option α) :=
  e.singles.map some ++ e.sequences.flatMap fun s => none :: s.map some

/-- Little-endian words which are not a mark and not a terminator. -/
def psf1Encoding : Encoding (Fin 0xfffe) where
  code c := c
  char c := [BitVec.ofNat 8 (c % 256), BitVec.ofNat 8 (c / 256)]
  mark := [0xfe, 0xff]
  terminator := [0xff, 0xff]
  char_pos _ := by simp
  mark_pos := by decide
  terminator_pos := by decide

def utf8Bytes (cp : ℕ) : List (BitVec 8) :=
  if cp < 0x80 then [BitVec.ofNat 8 cp]
  else if cp < 0x800 then
    [BitVec.ofNat 8 (0xc0 + cp / 64), BitVec.ofNat 8 (0x80 + cp % 64)]
  else if cp < 0x10000 then
    [BitVec.ofNat 8 (0xe0 + cp / 4096),
      BitVec.ofNat 8 (0x80 + cp / 64 % 64), BitVec.ofNat 8 (0x80 + cp % 64)]
  else
    [BitVec.ofNat 8 (0xf0 + cp / 262144),
      BitVec.ofNat 8 (0x80 + cp / 4096 % 64),
      BitVec.ofNat 8 (0x80 + cp / 64 % 64), BitVec.ofNat 8 (0x80 + cp % 64)]

/-- Any characters in UTF-8; neither the mark nor the terminator is a byte of
one. -/
def psf2Encoding : Encoding Char where
  code c := c.toNat
  char c := utf8Bytes c.toNat
  mark := [0xfe]
  terminator := [0xff]
  char_pos c := by
    unfold utf8Bytes
    split_ifs <;> simp
  mark_pos := by decide
  terminator_pos := by decide

/-! ## Any of the two loops -/

/-- What both loops do with a code: one which does not fit is passed over. -/
def Reading.mapCode (r : Reading) (cp : ℕ) : Except Fault Reading :=
  if 0xffff < cp then .ok r else r.mapChar cp

/-- A loop reads a table of the encoding piece by piece. -/
structure Reads {α : Type} (enc : Encoding α) (file : List (BitVec 8))
    (numGlyph : ℕ) (read : ℕ → Reading → Except Fault Reading) : Prop where
  char : ∀ fuel r a rest, file.drop r.pos = enc.char a ++ rest →
    r.glyph < numGlyph → read (fuel + 1) r =
      (r.skip (enc.char a).length).mapCode (enc.code a) >>= read fuel
  mark : ∀ fuel r rest, file.drop r.pos = enc.mark ++ rest →
    r.glyph < numGlyph →
      read (fuel + 1) r = read fuel (r.skip enc.mark.length)
  terminator : ∀ fuel r rest, file.drop r.pos = enc.terminator ++ rest →
    r.glyph < numGlyph →
      read (fuel + 1) r = read fuel (r.eol enc.terminator.length)
  stop : ∀ fuel r, r.glyph = numGlyph → read (fuel + 1) r = .ok r

section Run

variable {α : Type} {enc : Encoding α} {file rest : List (BitVec 8)}
  {numGlyph fuel : ℕ} {read : ℕ → Reading → Except Fault Reading}
  {r r' : Reading} {ts : List (Option α)}

theorem Encoding.entry_eq (enc : Encoding α) (e : Entry α) :
    enc.entry e = (tokens e).flatMap enc.token ++ enc.terminator := by
  simp only [Encoding.entry, Encoding.chars, tokens, List.flatMap_append,
    List.flatMap_assoc, List.flatMap_cons, List.flatMap_map, Encoding.token]

theorem mem_tokens {e : Entry α} {c : α} :
    some c ∈ tokens e ↔ c ∈ e.chars := by
  simp [tokens, Entry.chars]

/-- The characters among the tokens have been stored, as far as the table
goes. -/
structure Stored (enc : Encoding α) (r r' : Reading) (ts : List (Option α)) :
    Prop where
  glyph_eq : r'.glyph = r.glyph
  stored : ∀ cp < tableEntries, (∃ c, some c ∈ ts ∧ enc.code c = cp) →
    r'.table cp = BitVec.ofNat 16 r.glyph
  kept : ∀ cp < tableEntries, (¬∃ c, some c ∈ ts ∧ enc.code c = cp) →
    r'.table cp = r.table cp

theorem Reading.mapCode_ok (r : Reading) {cp : ℕ} (hcp : cp ≠ 0xffff) :
    ∃ r', r.mapCode cp = .ok r' ∧ r'.pos = r.pos ∧ r'.glyph = r.glyph ∧
      ∀ k < tableEntries, r'.table k =
        if cp = k then BitVec.ofNat 16 r.glyph else r.table k := by
  unfold mapCode mapChar
  by_cases hbeyond : 0xffff < cp
  · refine ⟨r, if_pos hbeyond, rfl, rfl, fun k hk => (if_neg ?_).symm⟩
    unfold tableEntries at hk
    omega
  · have hroom : cp < tableEntries := by
      unfold tableEntries
      omega
    rw [if_neg hbeyond, if_pos hroom]
    refine ⟨_, rfl, rfl, rfl, fun k _ => ?_⟩
    simp only [Function.update_apply, eq_comm]

/-- The code behind the last entry of the table. -/
theorem Reading.mapCode_error (r : Reading) :
    r.mapCode 0xffff = .error .outOfBounds := rfl

/-- What a token does to the variables. -/
def Reading.take (enc : Encoding α) (r : Reading) :
    Option α → Except Fault Reading
  | some c => (r.skip (enc.char c).length).mapCode (enc.code c)
  | none => .ok (r.skip enc.mark.length)

/-- The mark changes nothing, so the characters behind it are taken like
single ones. -/
theorem Reads.step (h : Reads enc file numGlyph read) {t : Option α}
    (hdrop : file.drop r.pos = enc.token t ++ rest)
    (hglyph : r.glyph < numGlyph) (fuel : ℕ) :
    read (fuel + 1) r = r.take enc t >>= read fuel := by
  cases t with
  | some c => exact h.char fuel r c rest hdrop hglyph
  | none => exact h.mark fuel r rest hdrop hglyph

theorem Reading.take_ok (r : Reading) (enc : Encoding α) {t : Option α}
    (hcode : ∀ c, t = some c → enc.code c ≠ 0xffff) :
    ∃ r', r.take enc t = .ok r' ∧ r'.pos = r.pos + (enc.token t).length ∧
      Stored enc r r' [t] := by
  cases t with
  | none => exact ⟨_, rfl, rfl, rfl, by simp, fun _ _ _ => rfl⟩
  | some c =>
      obtain ⟨r', hmap, hpos, hglyph, htable⟩ :=
        (r.skip (enc.char c).length).mapCode_ok (hcode c rfl)
      refine ⟨r', hmap, hpos, hglyph, ?_, ?_⟩
      · intro cp hcp hstored
        rw [htable cp hcp, if_pos (by simpa using hstored)]
        rfl
      · intro cp hcp hkept
        rw [htable cp hcp, if_neg (by simpa using hkept)]
        rfl

theorem Stored.cons {t : Option α} {r₁ : Reading}
    (hfirst : Stored enc r r₁ [t]) (hrest : Stored enc r₁ r' ts) :
    Stored enc r r' (t :: ts) where
  glyph_eq := hrest.glyph_eq.trans hfirst.glyph_eq
  stored cp hcp := by
    rintro ⟨c, hc, hcode⟩
    by_cases hlater : ∃ c, some c ∈ ts ∧ enc.code c = cp
    · rw [hrest.stored cp hcp hlater, hfirst.glyph_eq]
    · rcases List.mem_cons.1 hc with hnow | hthere
      · rw [hrest.kept cp hcp hlater]
        exact hfirst.stored cp hcp ⟨c, by simp [hnow], hcode⟩
      · exact absurd ⟨c, hthere, hcode⟩ hlater
  kept cp hcp hnone := by
    have hlater : ¬∃ c, some c ∈ ts ∧ enc.code c = cp :=
      fun ⟨c, hc, hcode⟩ => hnone ⟨c, List.mem_cons_of_mem _ hc, hcode⟩
    have hnow : ¬∃ c, some c ∈ [t] ∧ enc.code c = cp := by
      rintro ⟨c, hc, hcode⟩
      rw [List.mem_singleton] at hc
      exact hnone ⟨c, by simp [hc], hcode⟩
    rw [hrest.kept cp hcp hlater, hfirst.kept cp hcp hnow]

theorem drop_token {t : Option α}
    (hdrop : file.drop r.pos = (t :: ts).flatMap enc.token ++ rest) :
    file.drop r.pos = enc.token t ++ (ts.flatMap enc.token ++ rest) ∧
      file.drop (r.pos + (enc.token t).length) =
        ts.flatMap enc.token ++ rest := by
  rw [List.flatMap_cons, List.append_assoc] at hdrop
  refine ⟨hdrop, ?_⟩
  rw [← List.drop_drop, hdrop, List.drop_left]

/-- The turns for tokens of which no character is behind the table. -/
theorem Reads.tokens (h : Reads enc file numGlyph read)
    (hdrop : file.drop r.pos = ts.flatMap enc.token ++ rest)
    (hglyph : r.glyph < numGlyph)
    (hcodes : ∀ c, some c ∈ ts → enc.code c ≠ 0xffff) (fuel : ℕ) :
    ∃ r', read (fuel + ts.length) r = read fuel r' ∧
      file.drop r'.pos = rest ∧ Stored enc r r' ts := by
  induction ts generalizing r with
  | nil => exact ⟨r, rfl, hdrop, rfl, by simp, fun _ _ _ => rfl⟩
  | cons t ts ih =>
      obtain ⟨hsplit, hnext⟩ := drop_token hdrop
      obtain ⟨r₁, htake, hpos, hfirst⟩ := r.take_ok enc (t := t)
        fun c hc => hcodes c (by simp [hc])
      have hread := h.step hsplit hglyph (fuel + ts.length)
      rw [htake, ok_bind] at hread
      rw [← hpos] at hnext
      obtain ⟨r', hrun, hpos', hrest⟩ := ih hnext
        (hfirst.glyph_eq.symm ▸ hglyph)
        fun c hc => hcodes c (List.mem_cons_of_mem _ hc)
      refine ⟨r', ?_, hpos', hfirst.cons hrest⟩
      rw [List.length_cons, ← Nat.add_assoc, hread, hrun]

theorem Reads.tokens_error (h : Reads enc file numGlyph read)
    (hdrop : file.drop r.pos = ts.flatMap enc.token ++ rest)
    (hglyph : r.glyph < numGlyph)
    (hcode : ∃ c, some c ∈ ts ∧ enc.code c = 0xffff) (fuel : ℕ) :
    read (fuel + ts.length) r = .error .outOfBounds := by
  induction ts generalizing r with
  | nil => simp at hcode
  | cons t ts ih =>
      obtain ⟨hsplit, hnext⟩ := drop_token hdrop
      have hread := h.step hsplit hglyph (fuel + ts.length)
      rw [List.length_cons, ← Nat.add_assoc, hread]
      by_cases hfirst : ∃ c, t = some c ∧ enc.code c = 0xffff
      · obtain ⟨c, rfl, hc⟩ := hfirst
        rw [Reading.take, hc, Reading.mapCode_error]
        rfl
      · obtain ⟨r₁, htake, hpos, hstored⟩ := r.take_ok enc (t := t)
          fun c hc hbad => hfirst ⟨c, hc, hbad⟩
        obtain ⟨c, hc, hbad⟩ := hcode
        have hmem : some c ∈ ts := by
          rcases List.mem_cons.1 hc with hnow | hlater
          · exact absurd ⟨c, hnow.symm, hbad⟩ hfirst
          · exact hlater
        rw [← hpos] at hnext
        rw [htake, ok_bind]
        exact ih hnext (hstored.glyph_eq.symm ▸ hglyph) ⟨c, hmem, hbad⟩

/-- The turns of a loop for some entries. -/
def turns (entries : List (Entry α)) : ℕ :=
  (entries.map fun e => (tokens e).length + 1).sum

theorem length_tokens_le (enc : Encoding α) (ts : List (Option α)) :
    ts.length ≤ (ts.flatMap enc.token).length := by
  induction ts with
  | nil => exact le_rfl
  | cons t ts ih =>
      have ht : 1 ≤ (enc.token t).length := by
        cases t with
        | some c => exact enc.char_pos c
        | none => exact enc.mark_pos
      rw [List.flatMap_cons, List.length_cons, List.length_append]
      omega

/-- Every turn takes a byte of the table at least. -/
theorem turns_le (enc : Encoding α) (entries : List (Entry α)) :
    turns entries ≤ (enc.table entries).length := by
  induction entries with
  | nil => exact le_rfl
  | cons e entries ih =>
      have htokens := length_tokens_le enc (tokens e)
      have hterminator := enc.terminator_pos
      have hturns : turns (e :: entries) =
          (tokens e).length + 1 + turns entries := rfl
      have htable : enc.table (e :: entries) =
          enc.entry e ++ enc.table entries := rfl
      rw [hturns, htable, List.length_append, enc.entry_eq, List.length_append]
      omega

/-- What the table holds for a code behind the entries. -/
def remembered (enc : Encoding α) (g : ℕ) (entries : List (Entry α))
    (table : ℕ → BitVec 16) (cp : ℕ) : BitVec 16 :=
  match lastFrom (enc.Occurs cp) g entries with
  | some g => BitVec.ofNat 16 g
  | none => table cp

variable {e : Entry α} {entries : List (Entry α)}

theorem drop_entry
    (hdrop : file.drop r.pos = enc.table (e :: entries) ++ rest) :
    file.drop r.pos = (tokens e).flatMap enc.token ++
      (enc.terminator ++ (enc.table entries ++ rest)) := by
  rw [hdrop, Encoding.table, List.flatMap_cons, enc.entry_eq]
  simp only [List.append_assoc]
  rfl

theorem Stored.table_eq (h : Stored enc r r' (tokens e)) {cp : ℕ}
    (hcp : cp < tableEntries) :
    r'.table cp =
      if enc.Occurs cp e then BitVec.ofNat 16 r.glyph else r.table cp := by
  have hiff : (∃ c, some c ∈ tokens e ∧ enc.code c = cp) ↔
      enc.Occurs cp e := by
    simp only [mem_tokens]
    rfl
  split
  next hoccurs => exact h.stored cp hcp (hiff.2 hoccurs)
  next hnone => exact h.kept cp hcp fun hoccurs => hnone (hiff.1 hoccurs)

theorem turns_cons (e : Entry α) (entries : List (Entry α)) (fuel : ℕ) :
    fuel + turns (e :: entries) =
      fuel + turns entries + 1 + (Psf.tokens e).length := by
  rw [turns, List.map_cons, List.sum_cons]
  unfold turns
  omega

/-- The turns for one entry. -/
theorem Reads.entry (h : Reads enc file numGlyph read)
    (hdrop : file.drop r.pos = enc.table (e :: entries) ++ rest)
    (hglyph : r.glyph < numGlyph) (hcodes : ¬enc.Occurs 0xffff e)
    (fuel : ℕ) :
    ∃ r', read (fuel + 1 + (Psf.tokens e).length) r = read fuel r' ∧
      file.drop r'.pos = enc.table entries ++ rest ∧
      r'.glyph = r.glyph + 1 ∧
      ∀ cp < tableEntries, r'.table cp =
        if enc.Occurs cp e then BitVec.ofNat 16 r.glyph else r.table cp := by
  obtain ⟨r₁, hrun, hpos, hstored⟩ := h.tokens (drop_entry hdrop) hglyph
    (fun c hc hbad => hcodes ⟨c, mem_tokens.1 hc, hbad⟩) (fuel + 1)
  have hglyph₁ : r₁.glyph < numGlyph := hstored.glyph_eq ▸ hglyph
  refine ⟨r₁.eol enc.terminator.length, ?_, ?_, ?_, ?_⟩
  · rw [hrun, h.terminator fuel r₁ _ hpos hglyph₁]
  · rw [Reading.eol, ← List.drop_drop, hpos, List.drop_left]
  · exact congrArg (· + 1) hstored.glyph_eq
  · exact fun cp hcp => hstored.table_eq hcp

/-- The turns for whole entries. -/
theorem Reads.table (h : Reads enc file numGlyph read)
    (hdrop : file.drop r.pos = enc.table entries ++ rest)
    (hglyph : r.glyph + entries.length ≤ numGlyph)
    (hcodes : ∀ e ∈ entries, ¬enc.Occurs 0xffff e) (fuel : ℕ) :
    ∃ r', read (fuel + turns entries) r = read fuel r' ∧
      r'.glyph = r.glyph + entries.length ∧
      ∀ cp < tableEntries,
        r'.table cp = remembered enc r.glyph entries r.table cp := by
  induction entries generalizing r with
  | nil => exact ⟨r, rfl, rfl, fun _ _ => rfl⟩
  | cons e entries ih =>
      rw [List.forall_mem_cons] at hcodes
      rw [List.length_cons] at hglyph
      obtain ⟨r₁, hrun, hpos₁, hglyph₁, htable₁⟩ :=
        h.entry hdrop (by omega) hcodes.1 (fuel + turns entries)
      obtain ⟨r', hrest, hglyph', htable⟩ := ih hpos₁ (by omega) hcodes.2
      refine ⟨r', ?_, by rw [hglyph', hglyph₁, List.length_cons]; omega, ?_⟩
      · rw [turns_cons, hrun, hrest]
      · intro cp hcp
        rw [htable cp hcp, hglyph₁]
        unfold remembered
        rw [lastFrom_cons]
        cases lastFrom (enc.Occurs cp) (r.glyph + 1) entries with
        | some g => rfl
        | none =>
            rw [Option.none_or]
            dsimp only
            rw [htable₁ cp hcp]
            split <;> rfl

/-- One of the entries has the code behind the table. -/
theorem Reads.table_error (h : Reads enc file numGlyph read)
    (hdrop : file.drop r.pos = enc.table entries ++ rest)
    (hglyph : r.glyph + entries.length ≤ numGlyph)
    (hcode : ∃ e ∈ entries, enc.Occurs 0xffff e) (fuel : ℕ) :
    read (fuel + turns entries) r = .error .outOfBounds := by
  induction entries generalizing r with
  | nil => simp at hcode
  | cons e entries ih =>
      rw [List.length_cons] at hglyph
      rw [turns_cons]
      by_cases hfirst : enc.Occurs 0xffff e
      · obtain ⟨c, hc, hbad⟩ := hfirst
        exact h.tokens_error (drop_entry hdrop) (by omega)
          ⟨c, mem_tokens.2 hc, hbad⟩ _
      · obtain ⟨r₁, hrun, hpos₁, hglyph₁, -⟩ :=
          h.entry hdrop (by omega) hfirst (fuel + turns entries)
        have hlater : ∃ e ∈ entries, enc.Occurs 0xffff e := by
          simpa [hfirst] using hcode
        rw [hrun]
        exact ih hpos₁ (by omega) hlater

/-- The whole run of a loop, which starts in front of the table. -/
theorem Reads.run (h : Reads enc file entries.length read) {r : Reading}
    (hdrop : file.drop r.pos = enc.table entries ++ rest)
    (hstart : r.glyph = 0)
    (hcodes : ∀ e ∈ entries, ¬enc.Occurs 0xffff e) :
    ∃ r', read (file.length + 1) r = .ok r' ∧ ∀ cp < tableEntries,
      r'.table cp = remembered enc 0 entries r.table cp := by
  have hlength := congrArg List.length hdrop
  rw [List.length_drop, List.length_append] at hlength
  have hturns := turns_le enc entries
  have hfuel : file.length + 1 =
      file.length - turns entries + 1 + turns entries := by omega
  obtain ⟨r', hrun, hglyph, htable⟩ := h.table hdrop
    (by rw [hstart, Nat.zero_add]) hcodes (file.length - turns entries + 1)
  rw [hstart] at hglyph htable
  refine ⟨r', ?_, htable⟩
  rw [hfuel, hrun, h.stop _ _ (by rw [hglyph, Nat.zero_add])]

theorem Reads.run_error (h : Reads enc file entries.length read)
    {r : Reading} (hdrop : file.drop r.pos = enc.table entries ++ rest)
    (hstart : r.glyph = 0)
    (hcode : ∃ e ∈ entries, enc.Occurs 0xffff e) :
    read (file.length + 1) r = .error .outOfBounds := by
  have hlength := congrArg List.length hdrop
  rw [List.length_drop, List.length_append] at hlength
  have hturns := turns_le enc entries
  have hfuel : file.length + 1 =
      file.length - turns entries + 1 + turns entries := by omega
  rw [hfuel]
  exact h.table_error hdrop (by rw [hstart, Nat.zero_add]) hcode _

end Run

/-! ## The loop of the first format -/

section Bytes

variable {file rest l : List (BitVec 8)} {pos k : ℕ} {b b0 b1 : BitVec 8}

theorem getElem?_of_drop (h : file.drop pos = l) (k : ℕ) :
    file[pos + k]? = l[k]? := by
  rw [← h, List.getElem?_drop]

theorem byteAt_of_drop (h : file.drop pos = l) (hk : l[k]? = some b) :
    byteAt file (pos + k) = .ok b := by
  rw [byteAt, getElem?_of_drop h, hk]

theorem lt_length_of_drop (h : file.drop pos = b :: rest) :
    pos < file.length := by
  have hlength := congrArg List.length h
  rw [List.length_drop, List.length_cons] at hlength
  omega

theorem u16At_of_drop (h : file.drop pos = b0 :: b1 :: rest) :
    u16At file pos = .ok (256 * b1.toNat + b0.toNat) := by
  have hlength := congrArg List.length h
  rw [List.length_drop, List.length_cons, List.length_cons] at hlength
  have hfirst : file.getD pos 0 = b0 := by
    rw [List.getD_eq_getElem?_getD]
    have hget := getElem?_of_drop h 0
    rw [Nat.add_zero] at hget
    rw [hget]
    rfl
  have hsecond : file.getD (pos + 1) 0 = b1 := by
    rw [List.getD_eq_getElem?_getD, getElem?_of_drop h 1]
    rfl
  rw [u16At, if_pos (by omega), u16leAt_eq, hfirst, hsecond]

theorem psf1_reads (file : List (BitVec 8)) (numGlyph : ℕ) :
    Reads psf1Encoding file numGlyph (psf1Loop file numGlyph) where
  char fuel r c rest hdrop hglyph := by
    have hlt := lt_length_of_drop hdrop
    have hc := c.isLt
    have hcode := u16At_of_drop hdrop
    have hvalue : 256 * (BitVec.ofNat 8 (c / 256)).toNat +
        (BitVec.ofNat 8 (c % 256)).toNat = c := by
      rw [BitVec.toNat_ofNat, BitVec.toNat_ofNat]
      omega
    rw [hvalue] at hcode
    have hmap : (r.skip 2).mapCode c = (r.skip 2).mapChar c :=
      if_neg (by omega)
    rw [psf1Loop, if_pos ⟨hlt, hglyph⟩, hcode, ok_bind,
      if_neg (by omega), if_neg (by omega), ← hmap]
    rfl
  mark fuel r rest hdrop hglyph := by
    rw [psf1Loop, if_pos ⟨lt_length_of_drop hdrop, hglyph⟩,
      u16At_of_drop hdrop]
    rfl
  terminator fuel r rest hdrop hglyph := by
    rw [psf1Loop, if_pos ⟨lt_length_of_drop hdrop, hglyph⟩,
      u16At_of_drop hdrop]
    rfl
  stop fuel r hglyph := by
    rw [psf1Loop, if_neg (by omega)]

end Bytes

/-! ## The loop of the second format -/

section Utf8

variable {file rest : List (BitVec 8)} {pos : ℕ}

/-- A byte behind the first one of a character. -/
theorem trailing_byte {x : ℕ} (hx : x < 64) :
    isTrailing (BitVec.ofNat 8 (0x80 + x)) = true ∧
      (BitVec.ofNat 8 (0x80 + x) &&& 0x3f).toNat = x ∧
      BitVec.ofNat 8 (0x80 + x) ≠ 0xff := by
  have hall : ∀ x : Fin 64, isTrailing (BitVec.ofNat 8 (0x80 + x)) = true ∧
      (BitVec.ofNat 8 (0x80 + x) &&& 0x3f).toNat = x ∧
      BitVec.ofNat 8 (0x80 + x) ≠ 0xff := by decide
  exact hall ⟨x, hx⟩

theorem leading_two {x : ℕ} (hx : x < 32) :
    let b := BitVec.ofNat 8 (0xc0 + x)
    ¬b.toNat < 128 ∧ b &&& 0xe0 = 0xc0 ∧ (b &&& 0x1f).toNat = x := by
  have hall : ∀ x : Fin 32, let b := BitVec.ofNat 8 (0xc0 + x)
      ¬b.toNat < 128 ∧ b &&& 0xe0 = 0xc0 ∧ (b &&& 0x1f).toNat = x := by decide
  exact hall ⟨x, hx⟩

theorem leading_three {x : ℕ} (hx : x < 16) :
    let b := BitVec.ofNat 8 (0xe0 + x)
    ¬b.toNat < 128 ∧ b &&& 0xe0 ≠ 0xc0 ∧ b &&& 0xf0 = 0xe0 ∧
      (b &&& 0x0f).toNat = x := by
  have hall : ∀ x : Fin 16, let b := BitVec.ofNat 8 (0xe0 + x)
      ¬b.toNat < 128 ∧ b &&& 0xe0 ≠ 0xc0 ∧ b &&& 0xf0 = 0xe0 ∧
        (b &&& 0x0f).toNat = x := by decide
  exact hall ⟨x, hx⟩

theorem leading_four {x : ℕ} (hx : x < 8) :
    let b := BitVec.ofNat 8 (0xf0 + x)
    ¬b.toNat < 128 ∧ b &&& 0xe0 ≠ 0xc0 ∧ b &&& 0xf0 ≠ 0xe0 ∧
      b &&& 0xf8 = 0xf0 ∧ (b &&& 0x07).toNat = x := by
  have hall : ∀ x : Fin 8, let b := BitVec.ofNat 8 (0xf0 + x)
      ¬b.toNat < 128 ∧ b &&& 0xe0 ≠ 0xc0 ∧ b &&& 0xf0 ≠ 0xe0 ∧
        b &&& 0xf8 = 0xf0 ∧ (b &&& 0x07).toNat = x := by decide
  exact hall ⟨x, hx⟩

/-- Groups of six bits put together. -/
theorem or_six (x : ℕ) {y : ℕ} (hy : y < 64) (k : ℕ) :
    x <<< (k + 6) ||| y <<< k = (64 * x + y) <<< k := by
  have hadd := Nat.two_pow_add_eq_or_of_lt (i := 6) hy x
  rw [Nat.add_comm k 6, Nat.shiftLeft_add, ← Nat.shiftLeft_or_distrib,
    Nat.shiftLeft_eq x 6, Nat.mul_comm x, ← hadd]

/-- The first byte of a character is not the mark and not the terminator, and
the character is decoded. -/
structure Decodes (file : List (BitVec 8)) (pos : ℕ) (byt : BitVec 8)
    (cp len : ℕ) : Prop where
  byte : byteAt file pos = .ok byt
  not_terminator : byt ≠ 0xff
  not_mark : byt ≠ 0xfe
  next : psf2Next file pos byt = .ok (cp, len)

theorem psf2Next_eq {byt : BitVec 8} {cp len : ℕ}
    (hlen : utf8GetBytesLen byt = len)
    (hend : willEolOrEofLoop file pos (len - 1) 1 = false)
    (hcode : utf8ToCodepoint file pos = .ok cp) :
    psf2Next file pos byt = .ok (cp, len) := by
  have hwill : psf2WillEolOrEof file pos ((len : ℤ)).toNat = false := hend
  unfold psf2Next
  dsimp only
  rw [hlen, hwill, hcode]
  rfl

/-- A byte which the loop passes. -/
theorem willEolOrEofLoop_succ {i : ℕ} {b : BitVec 8}
    (hget : file[pos + i]? = some b) (hne : b ≠ 0xff) (left : ℕ) :
    willEolOrEofLoop file pos (left + 1) i =
      willEolOrEofLoop file pos left (i + 1) := by
  rw [willEolOrEofLoop, hget]
  exact if_neg hne

theorem decodes_one {cp : ℕ} (hcp : cp < 0x80)
    (hdrop : file.drop pos = BitVec.ofNat 8 cp :: rest) :
    Decodes file pos (BitVec.ofNat 8 cp) cp 1 := by
  have hbyte : byteAt file pos = .ok (BitVec.ofNat 8 cp) :=
    byteAt_of_drop (k := 0) hdrop rfl
  have hvalue : (BitVec.ofNat 8 cp).toNat = cp := by
    rw [BitVec.toNat_ofNat]
    omega
  have hne : ∀ b : BitVec 8, 128 ≤ b.toNat → BitVec.ofNat 8 cp ≠ b := by
    rintro b hb rfl
    omega
  refine ⟨hbyte, hne _ (by decide), hne _ (by decide), psf2Next_eq ?_ rfl ?_⟩
  · rw [utf8GetBytesLen, if_pos (by omega)]
    rfl
  · rw [utf8ToCodepoint, hbyte, ok_bind, if_pos (by omega), hvalue]

theorem decodes_two {x y : ℕ} (hx : x < 32) (hy : y < 64)
    (hdrop : file.drop pos = BitVec.ofNat 8 (0xc0 + x) ::
      BitVec.ofNat 8 (0x80 + y) :: rest) :
    Decodes file pos (BitVec.ofNat 8 (0xc0 + x)) (64 * x + y) 2 := by
  have hbyte : byteAt file pos = .ok (BitVec.ofNat 8 (0xc0 + x)) :=
    byteAt_of_drop (k := 0) hdrop rfl
  have hbyte1 := byteAt_of_drop (k := 1) hdrop rfl
  obtain ⟨hlead, hmask, hbits⟩ := leading_two hx
  obtain ⟨htrail, hbits1, hne1⟩ := trailing_byte hy
  have hne : ∀ b : BitVec 8, b &&& 0xe0 ≠ 0xc0 →
      BitVec.ofNat 8 (0xc0 + x) ≠ b := by
    rintro b hb rfl
    exact hb hmask
  refine ⟨hbyte, hne _ (by decide), hne _ (by decide), psf2Next_eq ?_ ?_ ?_⟩
  · rw [utf8GetBytesLen, if_neg hlead, if_pos hmask]
    rfl
  · exact willEolOrEofLoop_succ (getElem?_of_drop hdrop 1) hne1 0
  · rw [utf8ToCodepoint, hbyte, ok_bind, if_neg hlead, if_pos hmask, hbyte1,
      ok_bind, htrail, bits, bits, hbits, hbits1, or_six x hy 0]
    rfl

theorem decodes_three {x y z : ℕ} (hx : x < 16) (hy : y < 64) (hz : z < 64)
    (hdrop : file.drop pos = BitVec.ofNat 8 (0xe0 + x) ::
      BitVec.ofNat 8 (0x80 + y) :: BitVec.ofNat 8 (0x80 + z) :: rest) :
    Decodes file pos (BitVec.ofNat 8 (0xe0 + x)) (64 * (64 * x + y) + z)
      3 := by
  have hbyte : byteAt file pos = .ok (BitVec.ofNat 8 (0xe0 + x)) :=
    byteAt_of_drop (k := 0) hdrop rfl
  have hbyte1 := byteAt_of_drop (k := 1) hdrop rfl
  have hbyte2 := byteAt_of_drop (k := 2) hdrop rfl
  obtain ⟨hlead, hmask, hmask', hbits⟩ := leading_three hx
  obtain ⟨htrail1, hbits1, hne1⟩ := trailing_byte hy
  obtain ⟨htrail2, hbits2, hne2⟩ := trailing_byte hz
  have hne : ∀ b : BitVec 8, b &&& 0xf0 ≠ 0xe0 →
      BitVec.ofNat 8 (0xe0 + x) ≠ b := by
    rintro b hb rfl
    exact hb hmask'
  refine ⟨hbyte, hne _ (by decide), hne _ (by decide), psf2Next_eq ?_ ?_ ?_⟩
  · rw [utf8GetBytesLen, if_neg hlead, if_neg hmask, if_pos hmask']
    rfl
  · exact (willEolOrEofLoop_succ (getElem?_of_drop hdrop 1) hne1 1).trans
      (willEolOrEofLoop_succ (getElem?_of_drop hdrop 2) hne2 0)
  · rw [utf8ToCodepoint, hbyte, ok_bind, if_neg hlead, if_neg hmask,
      if_pos hmask', hbyte1, ok_bind, htrail1, hbyte2, ok_bind, htrail2, bits,
      bits, bits, hbits, hbits1, hbits2, or_six x hy 6, or_six _ hz 0]
    rfl

theorem decodes_four {x y z w : ℕ} (hx : x < 8) (hy : y < 64) (hz : z < 64)
    (hw : w < 64)
    (hdrop : file.drop pos = BitVec.ofNat 8 (0xf0 + x) ::
      BitVec.ofNat 8 (0x80 + y) :: BitVec.ofNat 8 (0x80 + z) ::
        BitVec.ofNat 8 (0x80 + w) :: rest) :
    Decodes file pos (BitVec.ofNat 8 (0xf0 + x))
      (64 * (64 * (64 * x + y) + z) + w) 4 := by
  have hbyte : byteAt file pos = .ok (BitVec.ofNat 8 (0xf0 + x)) :=
    byteAt_of_drop (k := 0) hdrop rfl
  have hbyte1 := byteAt_of_drop (k := 1) hdrop rfl
  have hbyte2 := byteAt_of_drop (k := 2) hdrop rfl
  have hbyte3 := byteAt_of_drop (k := 3) hdrop rfl
  obtain ⟨hlead, hmask, hmask', hmask'', hbits⟩ := leading_four hx
  obtain ⟨htrail1, hbits1, hne1⟩ := trailing_byte hy
  obtain ⟨htrail2, hbits2, hne2⟩ := trailing_byte hz
  obtain ⟨htrail3, hbits3, hne3⟩ := trailing_byte hw
  have hne : ∀ b : BitVec 8, b &&& 0xf8 ≠ 0xf0 →
      BitVec.ofNat 8 (0xf0 + x) ≠ b := by
    rintro b hb rfl
    exact hb hmask''
  refine ⟨hbyte, hne _ (by decide), hne _ (by decide), psf2Next_eq ?_ ?_ ?_⟩
  · rw [utf8GetBytesLen, if_neg hlead, if_neg hmask, if_neg hmask',
      if_pos hmask'']
    rfl
  · exact ((willEolOrEofLoop_succ (getElem?_of_drop hdrop 1) hne1 2).trans
      (willEolOrEofLoop_succ (getElem?_of_drop hdrop 2) hne2 1)).trans
      (willEolOrEofLoop_succ (getElem?_of_drop hdrop 3) hne3 0)
  · rw [utf8ToCodepoint, hbyte, ok_bind, if_neg hlead, if_neg hmask,
      if_neg hmask', if_pos hmask'', hbyte1, ok_bind, htrail1, hbyte2, ok_bind,
      htrail2, hbyte3, ok_bind, htrail3, bits, bits, bits, bits, hbits, hbits1,
      hbits2, hbits3, or_six x hy 12, or_six _ hz 6, or_six _ hw 0]
    rfl

/-- The loop decodes what UTF-8 encodes. -/
theorem decodes_utf8Bytes {cp : ℕ} (hcp : cp < 0x110000)
    (hdrop : file.drop pos = utf8Bytes cp ++ rest) :
    ∃ byt, Decodes file pos byt cp (utf8Bytes cp).length := by
  unfold utf8Bytes at hdrop ⊢
  split_ifs at hdrop ⊢ with hone htwo hthree
  · exact ⟨_, decodes_one hone hdrop⟩
  · have h := decodes_two (x := cp / 64) (y := cp % 64) (by omega) (by omega)
      hdrop
    rw [show 64 * (cp / 64) + cp % 64 = cp by omega] at h
    exact ⟨_, h⟩
  · have h := decodes_three (x := cp / 4096) (y := cp / 64 % 64)
      (z := cp % 64) (by omega) (by omega) (by omega) hdrop
    rw [show 64 * (64 * (cp / 4096) + cp / 64 % 64) + cp % 64 = cp by
      omega] at h
    exact ⟨_, h⟩
  · have h := decodes_four (x := cp / 262144) (y := cp / 4096 % 64)
      (z := cp / 64 % 64) (w := cp % 64) (by omega) (by omega) (by omega)
      (by omega) hdrop
    rw [show 64 * (64 * (64 * (cp / 262144) + cp / 4096 % 64) +
      cp / 64 % 64) + cp % 64 = cp by omega] at h
    exact ⟨_, h⟩

theorem psf2_reads (file : List (BitVec 8)) (numGlyph : ℕ) :
    Reads psf2Encoding file numGlyph (psf2Loop file numGlyph) where
  char fuel r c rest hdrop hglyph := by
    have hcp : c.toNat < 0x110000 := by
      have hvalid := c.valid
      unfold UInt32.isValidChar Nat.isValidChar at hvalid
      have hnat : c.toNat = c.val.toNat := rfl
      omega
    obtain ⟨byt, hbyte, hterminator, hmark, hnext⟩ :=
      decodes_utf8Bytes hcp hdrop
    have hlt : r.pos < file.length := by
      by_contra hge
      rw [byteAt, List.getElem?_eq_none (by omega)] at hbyte
      cases hbyte
    rw [psf2Loop, if_pos ⟨hlt, hglyph⟩, hbyte, ok_bind, if_neg hterminator,
      if_neg hmark, hnext, ok_bind]
    dsimp only
    have hcode : psf2Encoding.code c = c.toNat := rfl
    rw [hcode, Reading.mapCode]
    split <;> rfl
  mark fuel r rest hdrop hglyph := by
    have hbyte : byteAt file r.pos = .ok 0xfe :=
      byteAt_of_drop (k := 0) hdrop rfl
    rw [psf2Loop, if_pos ⟨lt_length_of_drop hdrop, hglyph⟩, hbyte]
    rfl
  terminator fuel r rest hdrop hglyph := by
    have hbyte : byteAt file r.pos = .ok 0xff :=
      byteAt_of_drop (k := 0) hdrop rfl
    rw [psf2Loop, if_pos ⟨lt_length_of_drop hdrop, hglyph⟩, hbyte]
    rfl
  stop fuel r hglyph := by
    rw [psf2Loop, if_neg (by omega)]

end Utf8

/-! ## Single characters -/

section Singles

variable {α : Type} {enc : Encoding α} {entries : List (Entry α)}
  {file rest : List (BitVec 8)} {read : ℕ → Reading → Except Fault Reading}
  {r : Reading} {cp g : ℕ} {e : Entry α}

/-- The glyph of a code: the last one which lists it as a single character, or
the default. -/
def expected (enc : Encoding α) (entries : List (Entry α)) (cp : ℕ) : ℕ :=
  (lastFrom (enc.Listed cp) 0 entries).getD 0

def MapsSingles (enc : Encoding α) (entries : List (Entry α))
    (result : Except Fault Reading) : Prop :=
  ∃ r, result = .ok r ∧
    ∀ cp < tableEntries, (r.table cp).toNat = expected enc entries cp

/-- No entry behind this one has the code. -/
def IsLast (enc : Encoding α) (entries : List (Entry α)) (cp g : ℕ)
    (e : Entry α) : Prop :=
  entries[g]? = some e ∧ enc.Occurs cp e ∧
    ∀ g' e', g < g' → entries[g']? = some e' → ¬enc.Occurs cp e'

/-- No entry has the code behind the table, and the last entry with a code
lists it as a single character, of a glyph which fits into the table. (An
entry with the code in a sequence does no harm when the low 16 bits of its
glyph happen to be the glyph which is expected.) -/
structure Undisturbed (enc : Encoding α) (entries : List (Entry α)) :
    Prop where
  inside : ∀ e ∈ entries, ¬enc.Occurs 0xffff e
  last : ∀ cp < tableEntries, ∀ g e, IsLast enc entries cp g e →
    enc.Listed cp e ∧ g < 65536 ∨
      ¬enc.Listed cp e ∧ g % 65536 = expected enc entries cp

theorem Encoding.Listed.occurs (h : enc.Listed cp e) : enc.Occurs cp e := by
  obtain ⟨c, hc, hcode⟩ := h
  exact ⟨c, List.mem_append_left _ hc, hcode⟩

theorem lastFrom_occurs :
    lastFrom (enc.Occurs cp) 0 entries = some g ↔
      ∃ e, IsLast enc entries cp g e := by
  simp only [lastFrom_eq_some, Nat.zero_add, IsLast]
  constructor
  · rintro ⟨k, e, rfl, h⟩
    exact ⟨e, h⟩
  · rintro ⟨e, h⟩
    exact ⟨g, e, rfl, h⟩

theorem IsLast.expected (h : IsLast enc entries cp g e)
    (hlisted : enc.Listed cp e) : expected enc entries cp = g := by
  obtain ⟨hget, -, hlater⟩ := h
  have hlast : lastFrom (enc.Listed cp) 0 entries = some g :=
    lastFrom_eq_some.2 ⟨g, e, (Nat.zero_add g).symm, hget, hlisted,
      fun g' e' hlt hget' h => hlater g' e' hlt hget' h.occurs⟩
  rw [Psf.expected, hlast]
  rfl

/-- What is remembered is what is expected. -/
theorem remembered_iff :
    (remembered enc 0 entries (fun _ => 0) cp).toNat =
        expected enc entries cp ↔
      ∀ g e, IsLast enc entries cp g e →
        enc.Listed cp e ∧ g < 65536 ∨
          ¬enc.Listed cp e ∧ g % 65536 = expected enc entries cp := by
  unfold remembered
  cases hlast : lastFrom (enc.Occurs cp) 0 entries with
  | none =>
      have hnone := lastFrom_eq_none.1 hlast
      have hlisted : lastFrom (enc.Listed cp) 0 entries = none :=
        lastFrom_eq_none.2 fun e he h => hnone e he h.occurs
      have hexpected : expected enc entries cp = 0 := by
        rw [expected, hlisted]
        rfl
      refine iff_of_true hexpected.symm fun g e h => ?_
      exact absurd h.2.1 (hnone e (List.mem_of_getElem? h.1))
  | some g =>
      obtain ⟨e, he⟩ := lastFrom_occurs.1 hlast
      have hsame : ∀ g' e', IsLast enc entries cp g' e' → g' = g ∧ e' = e := by
        intro g' e' he'
        have hg : g = g' := Option.some.inj
          (hlast.symm.trans (lastFrom_occurs.2 ⟨e', he'⟩))
        subst hg
        exact ⟨rfl, Option.some.inj (he'.1.symm.trans he.1)⟩
      dsimp only
      rw [BitVec.toNat_ofNat]
      constructor
      · rintro hvalue g' e' he'
        obtain ⟨rfl, rfl⟩ := hsame g' e' he'
        by_cases hlisted : enc.Listed cp e'
        · rw [he'.expected hlisted] at hvalue
          exact Or.inl ⟨hlisted, by omega⟩
        · exact Or.inr ⟨hlisted, hvalue⟩
      · intro h
        rcases h g e he with ⟨hlisted, hlt⟩ | ⟨-, hvalue⟩
        · rw [he.expected hlisted]
          omega
        · exact hvalue

theorem Reads.mapsSingles_iff (h : Reads enc file entries.length read)
    (hdrop : file.drop r.pos = enc.table entries ++ rest)
    (hstart : r.glyph = 0) (hzero : r.table = fun _ => 0) :
    MapsSingles enc entries (read (file.length + 1) r) ↔
      Undisturbed enc entries := by
  by_cases hinside : ∃ e ∈ entries, enc.Occurs 0xffff e
  · rw [h.run_error hdrop hstart hinside]
    refine iff_of_false ?_ fun hundisturbed => ?_
    · rintro ⟨r', hrun, -⟩
      cases hrun
    · obtain ⟨e, he, hbad⟩ := hinside
      exact hundisturbed.inside e he hbad
  · have hcodes : ∀ e ∈ entries, ¬enc.Occurs 0xffff e :=
      fun e he hbad => hinside ⟨e, he, hbad⟩
    obtain ⟨r', hrun, htable⟩ := h.run hdrop hstart hcodes
    rw [hzero] at htable
    rw [hrun]
    constructor
    · rintro ⟨r'', hrun', hmaps⟩
      obtain rfl := Except.ok.inj hrun'
      refine ⟨hcodes, fun cp hcp => remembered_iff.1 ?_⟩
      rw [← htable cp hcp]
      exact hmaps cp hcp
    · intro hundisturbed
      refine ⟨r', rfl, fun cp hcp => ?_⟩
      rw [htable cp hcp]
      exact remembered_iff.2 (hundisturbed.last cp hcp)

/-- Two letters, of which the first one comes with an accent as well. -/
def accentedFirst (a b accent : α) : List (Entry α) :=
  [⟨[a], [[a, accent]]⟩, ⟨[b], []⟩]

/-- A sequence of the first glyph leaves the zero of the cleared table. -/
theorem undisturbed_of_first {a b accent : α} (ha : enc.code a < 0xffff)
    (hb : enc.code b < 0xffff) (haccent : enc.code accent < 0xffff) :
    Undisturbed enc (accentedFirst a b accent) where
  inside := by
    simp only [accentedFirst, Encoding.Occurs, Entry.chars]
    simp
    omega
  last := by
    rintro cp - g e ⟨hget, hoccurs, hlater⟩
    match g with
    | 0 =>
        cases hget
        by_cases hlisted : enc.Listed cp ⟨[a], [[a, accent]]⟩
        · exact Or.inl ⟨hlisted, by decide⟩
        · have hsecond : ¬enc.Listed cp ⟨[b], []⟩ := fun h =>
            hlater 1 _ Nat.zero_lt_one rfl h.occurs
          have hnone : lastFrom (enc.Listed cp) 0
              (accentedFirst a b accent) = none := by
            rw [lastFrom_eq_none]
            simp [accentedFirst, hlisted, hsecond]
          refine Or.inr ⟨hlisted, ?_⟩
          rw [expected, hnone]
          rfl
    | 1 =>
        cases hget
        refine Or.inl ⟨?_, by decide⟩
        simpa [Encoding.Occurs, Encoding.Listed, Entry.chars] using hoccurs
    | g + 2 => cases hget

/-- Both formats map the single characters of a table exactly when its
sequences do not disturb them. -/
theorem singles_mapped_iff (file rest : List (BitVec 8))
    (glyphs bytesPerGlyph : ℕ) :
    (∀ entries : List (Entry (Fin 0xfffe)),
      file.drop (glyphs + wrap (bytesPerGlyph * entries.length)) =
        psf1Encoding.table entries ++ rest →
      (MapsSingles psf1Encoding entries
          (readPsf1Utf16Entries file glyphs bytesPerGlyph entries.length
            fun _ => 0) ↔
        Undisturbed psf1Encoding entries)) ∧
    ∀ entries : List (Entry Char),
      file.drop (glyphs + wrap (bytesPerGlyph * entries.length)) =
        psf2Encoding.table entries ++ rest →
      (MapsSingles psf2Encoding entries
          (readPsf2Utf8Entries file glyphs bytesPerGlyph entries.length
            fun _ => 0) ↔
        Undisturbed psf2Encoding entries) :=
  ⟨fun _ hdrop => (psf1_reads file _).mapsSingles_iff hdrop rfl rfl,
    fun _ hdrop => (psf2_reads file _).mapsSingles_iff hdrop rfl rfl⟩

/-- An accented letter at the first glyph, with nothing but the table in the
file. -/
theorem singles_mapped_accent :
    MapsSingles psf1Encoding (accentedFirst 0x41 0x42 0x301)
        (readPsf1Utf16Entries
          (psf1Encoding.table (accentedFirst 0x41 0x42 0x301)) 0 0 2
          fun _ => 0) ∧
      MapsSingles psf2Encoding (accentedFirst 'A' 'B' (Char.ofNat 0x301))
        (readPsf2Utf8Entries
          (psf2Encoding.table (accentedFirst 'A' 'B' (Char.ofNat 0x301))) 0 0 2
          fun _ => 0) := by
  refine ⟨?_, ?_⟩
  · refine ((singles_mapped_iff _ [] 0 0).1 _ ?_).2 ?_
    · rw [List.append_nil]
      rfl
    · exact undisturbed_of_first (by decide) (by decide) (by decide)
  · refine ((singles_mapped_iff _ [] 0 0).2 _ ?_).2 ?_
    · rw [List.append_nil]
      rfl
    · exact undisturbed_of_first (by decide) (by decide) (by decide)

/-- Two glyphs: the letter A, and nothing but a sequence of it and an
accent. -/
def accented : List (Entry Char) :=
  [⟨['A'], []⟩, ⟨[], [['A', Char.ofNat 0x301]]⟩]

/-- The letter A gets the glyph of the sequence. -/
theorem accented_disturbed :
    ¬∀ (file rest : List (BitVec 8)) (glyphs bytesPerGlyph : ℕ)
      (entries : List (Entry Char)),
      file.drop (glyphs + wrap (bytesPerGlyph * entries.length)) =
        psf2Encoding.table entries ++ rest →
      MapsSingles psf2Encoding entries
        (readPsf2Utf8Entries file glyphs bytesPerGlyph entries.length
          fun _ => 0) := by
  intro h
  have hmaps := h (psf2Encoding.table accented) [] 0 0 accented (by
    rw [List.append_nil]
    rfl)
  obtain ⟨r, hrun, htable⟩ := hmaps
  have hletter : (readPsf2Utf8Entries (psf2Encoding.table accented) 0 0 2
      fun _ => 0).map (fun r => r.table 0x41) = .ok 1 := by
    decide +kernel
  rw [show accented.length = 2 from rfl] at hrun
  rw [hrun] at hletter
  have hone : r.table 0x41 = 1 := Except.ok.inj hletter
  have hzero := htable 0x41 (by decide)
  rw [hone] at hzero
  revert hzero
  decide

end Singles

end Psf
end Yjkos
