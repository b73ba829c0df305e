import Yjkos.Vt100tty

/-!
# A terminal whose driver scrolls

With a `scroll` operation in the driver, a terminal moves the marks of its
characters along with them, and marks only what it has changed.
-/

namespace Yjkos
namespace Console
namespace Vt100tty

variable {s : Vt100tty} {columns rows : ℕ}

/-- Characters are copied over those a row before them. -/
def moveUp (first count width : ℤ) (chars : ℤ → Vt100ttyChar) :
    ℤ → Vt100ttyChar := fun i =>
  if first ≤ i ∧ i < first + count then chars (i + width) else chars i

theorem scrollLine_chars (hscroll : s.hasScroll = true) {k : ℕ}
    (hlt : (k : ℤ) + 1 < s.rows) (hcolumns : 0 < s.columns) :
    ∃ s', s.scrollLine (k + 1) = .ok s' ∧ SameCalls s s' ∧
      s'.chars = moveUp (k * s.columns) s.columns s.columns s.chars := by
  have hdest : s.charAt (k + 1 - 1) 0 = .ok (k * s.columns) := by
    rw [charAt_eq (by omega) le_rfl (by omega) hcolumns,
      add_sub_cancel_right, add_zero]
  have hsrc : s.charAt (k + 1) 0 = .ok (k * s.columns + s.columns) := by
    rw [charAt_eq (by omega) le_rfl hlt hcolumns, add_zero, add_mul, one_mul]
  have hcopied : (s.copyChars (k * s.columns) (k * s.columns + s.columns)
      s.columns).chars =
      moveUp (k * s.columns) s.columns s.columns s.chars := by
    funext i
    simp only [copyChars, moveUp]
    congr 2
    ring
  have hsame : SameCalls s (s.copyChars (k * s.columns)
      (k * s.columns + s.columns) s.columns) :=
    ⟨⟨⟨rfl, rfl⟩, rfl, rfl⟩, rfl, rfl⟩
  simp only [scrollLine, hdest, hsrc, ok_bind]
  generalize s.copyChars (k * s.columns) (k * s.columns + s.columns)
    s.columns = t at hcopied hsame
  simp only [markRows, hsame.hasScroll, hscroll, if_true]
  obtain ⟨u, hu, husame, huchars⟩ := updateLine_chars (s := t)
    (k + 1 - 1) (by omega) (by rw [hsame.rows]; omega)
    ({ · with isContinuation := (t.lineinfos (k + 1)).isContinuation })
  have hscrolls : u.hasScroll = true :=
    husame.hasScroll.trans (hsame.hasScroll.trans hscroll)
  rw [hu, ok_bind, if_pos hscrolls]
  exact ⟨u, rfl, hsame.trans husame, huchars.trans hcopied⟩

theorem scrollLines_chars (hscroll : s.hasScroll = true)
    (hcolumns : 0 < s.columns) {n : ℕ} (hn : (n : ℤ) < s.rows) :
    ∃ s', (List.range n).foldlM (fun (s : Vt100tty) (i : ℕ) =>
        s.scrollLine (i + 1)) s = .ok s' ∧ SameCalls s s' ∧
      s'.chars = moveUp 0 (n * s.columns) s.columns s.chars := by
  induction n with
  | zero =>
      refine ⟨s, rfl, SameCalls.refl s, ?_⟩
      funext i
      rw [moveUp, if_neg (by simp)]
  | succ n ih =>
      obtain ⟨t, ht, htsame, htchars⟩ := ih (by omega)
      obtain ⟨u, hu, husame, huchars⟩ := scrollLine_chars (s := t) (k := n)
        (htsame.hasScroll.trans hscroll) (by rw [htsame.rows]; omega)
        (by rw [htsame.columns]; exact hcolumns)
      refine ⟨u, ?_, htsame.trans husame, ?_⟩
      · rw [List.range_succ, List.foldlM_append, ht, ok_bind,
          List.foldlM_cons, hu]
        rfl
      · have hnonneg : 0 ≤ (n : ℤ) * s.columns :=
          mul_nonneg (Int.natCast_nonneg n) hcolumns.le
        rw [huchars, htchars, htsame.columns]
        funext i
        simp only [moveUp]
        push_cast
        rw [add_mul, one_mul]
        by_cases hlast : (n : ℤ) * s.columns ≤ i ∧
            i < n * s.columns + s.columns
        · rw [if_pos hlast, if_neg (by omega), if_pos (by omega)]
        · rw [if_neg hlast]
          congr 1
          rw [eq_iff_iff]
          omega

/-- The rows are moved up, and the last one is blank and marked. -/
def scrolledChars (rows width : ℤ) (chars : ℤ → Vt100ttyChar) :
    ℤ → Vt100ttyChar := fun i =>
  if (rows - 1) * width ≤ i ∧ i < (rows - 1) * width + width then
    ⟨0x20#8, true⟩
  else moveUp 0 ((rows - 1) * width) width chars i

theorem scrollUp_chars (hscroll : s.hasScroll = true)
    (hcolumns : 0 < s.columns) (hrows : 0 < s.rows)
    (hrow : s.currentrow = s.rows) :
    ∃ s', s.scrollUp = .ok s' ∧ s'.rows = s.rows ∧
      s'.currentrow = s.rows - 1 ∧
      s'.hasScroll = true ∧ s'.scrollCalls = s.scrollCalls + 1 ∧
      s'.chars = scrolledChars s.rows s.columns s.chars := by
  obtain ⟨t, ht, htsame, htchars⟩ := scrollLines_chars hscroll hcolumns
    (n := (s.rows - 1).toNat) (by omega)
  have hscrolls : t.hasScroll = true := htsame.hasScroll.trans hscroll
  simp only [scrollUp, ht, ok_bind]
  generalize hcounted : (if t.hasScroll = true then _ else _ : Vt100tty) = u
  rw [if_pos hscrolls] at hcounted
  have hwidth : u.columns = s.columns := by
    rw [← hcounted]
    exact htsame.columns
  have hheight : u.rows = s.rows := by
    rw [← hcounted]
    exact htsame.rows
  have hlast : u.currentrow = s.rows - 1 := by
    rw [← hcounted, ← hrow, ← htsame.currentrow]
  have hcalls : u.scrollCalls = s.scrollCalls + 1 := by
    rw [← hcounted, ← htsame.scrollCalls]
  have huscroll : u.hasScroll = true := by
    rw [← hcounted]
    exact hscrolls
  have huchars : u.chars = t.chars := by rw [← hcounted]
  have hdest : u.charAt u.currentrow 0 =
      .ok ((s.rows - 1) * s.columns) := by
    rw [charAt_eq (by omega) le_rfl (by omega) (by omega), hlast, hwidth,
      add_zero]
  rw [if_pos (by omega), hdest, ok_bind]
  obtain ⟨v, hv, hvsame, hvchars⟩ := updateLine_chars
    (s := u.updateChars ((s.rows - 1) * s.columns) u.columns
      (fun _ => ⟨0x20#8, true⟩)) u.currentrow (by omega)
    (by simp only [updateChars]; omega) ({ · with needSupdate := true })
  refine ⟨v, hv, hvsame.rows.trans hheight, hvsame.currentrow.trans hlast,
    hvsame.hasScroll.trans huscroll, hvsame.scrollCalls.trans hcalls, ?_⟩
  rw [hvchars]
  funext i
  simp only [updateChars, scrolledChars, huchars, htchars, hwidth,
    Int.toNat_of_nonneg (show 0 ≤ s.rows - 1 by omega)]

/-- What has become of the characters after a line has been advanced or not:
they have stayed, or been scrolled by a call of the driver. -/
def Advanced (s s' : Vt100tty) : Prop :=
  s'.scrollCalls = s.scrollCalls ∧ s'.chars = s.chars ∨
    s'.scrollCalls = s.scrollCalls + 1 ∧
      s'.chars = scrolledChars s.rows s.columns s.chars

theorem advanceline_chars (h : OnScreen columns rows s)
    (hscroll : s.hasScroll = true) {wastextoverflow : Bool} {s' : Vt100tty}
    (hs' : s.advanceline wastextoverflow = .ok s') :
    s'.hasScroll = true ∧ Advanced s s' := by
  have hwidth := h.width
  have hheight := h.height
  have hcolumns := h.columns_pos
  have hrows := h.rows_pos
  have hrowNonneg := h.row_nonneg
  have hrowLt := h.row_lt
  -- The lines which are noted behind the loop hold no characters.
  have hnoted : ∀ {t : Vt100tty}, 0 ≤ t.currentrow → t.currentrow < t.rows →
      (t.updateLine 0 ({ · with isContinuation := false }) >>= fun t =>
        t.updateLine t.currentrow
          ({ · with isContinuation := wastextoverflow })) = .ok s' →
      SameCalls t s' ∧ s'.chars = t.chars := by
    intro t hnonneg hlt hs'
    obtain ⟨u, hu, husame, huchars⟩ := updateLine_chars (s := t) 0 le_rfl
      (by omega) ({ · with isContinuation := false })
    obtain ⟨v, hv, hvsame, hvchars⟩ := updateLine_chars (s := u)
      u.currentrow (by rw [husame.currentrow]; exact hnonneg)
      (by rw [husame.currentrow, husame.rows]; exact hlt)
      ({ · with isContinuation := wastextoverflow })
    rw [hu, ok_bind, hv] at hs'
    obtain rfl := Except.ok.inj hs'
    exact ⟨husame.trans hvsame, hvchars.trans huchars⟩
  simp only [advanceline] at hs'
  obtain ⟨t, ht, hs'⟩ := bind_eq_ok hs'
  rcases lt_or_ge (s.currentrow + 1) s.rows with hroom | hfull
  · rw [scrollWhileBelow_stop (by exact hroom)] at ht
    obtain rfl := Except.ok.inj ht
    obtain ⟨hsame, hchars⟩ := hnoted (by simp only; omega)
      (by simp only; omega) hs'
    exact ⟨hsame.hasScroll.trans hscroll, .inl ⟨hsame.scrollCalls, hchars⟩⟩
  · obtain ⟨u, hu, hurows, hurow, huscroll, hucalls, huchars⟩ :=
      scrollUp_chars
        (s := { s with currentcolumn := 0, currentrow := s.currentrow + 1 })
        hscroll (by simp only; omega) (by simp only; omega)
        (by simp only; omega)
    simp only at hurows hurow
    rw [scrollWhileBelow_once (by exact hfull) hu (by omega)] at ht
    obtain rfl := Except.ok.inj ht
    obtain ⟨hsame, hchars⟩ := hnoted (by omega) (by omega) hs'
    exact ⟨hsame.hasScroll.trans huscroll,
      .inr ⟨hsame.scrollCalls.trans hucalls, hchars.trans huchars⟩⟩

/-- The end of `write_char`: a byte is written at the cursor. -/
def typeChar (s : Vt100tty) (byte : BitVec 8) : Except Fault Vt100tty := do
  let dest ← s.charAt s.currentrow s.currentcolumn
  let s := s.updateChars dest 1 (fun _ => ⟨BitVec.ofInt 8 byte.toNat, true⟩)
  let s ← s.updateLine s.currentrow ({ · with needSupdate := true })
  .ok { s with currentcolumn := s.currentcolumn + 1 }

theorem typeChar_chars (h : OnScreen columns rows s) (byte : BitVec 8)
    {s' : Vt100tty} (hs' : s.typeChar byte = .ok s') :
    s'.hasScroll = s.hasScroll ∧ s'.scrollCalls = s.scrollCalls ∧
      ∃ row < rows, ∃ column < columns, ∀ r c : ℕ, c < columns →
        s'.chars (r * columns + c) =
          if r = row ∧ c = column then ⟨byte, true⟩
          else s.chars (r * columns + c) := by
  obtain ⟨row, hrow⟩ := Int.eq_ofNat_of_zero_le h.row_nonneg
  obtain ⟨column, hcolumn⟩ := Int.eq_ofNat_of_zero_le h.column_nonneg
  have hwidth := h.width
  have hrowLt := h.row_lt
  unfold typeChar at hs'
  obtain ⟨dest, hdest, hs'⟩ := bind_eq_ok hs'
  obtain ⟨_, _, hdest⟩ := bind_eq_ok hdest
  obtain ⟨_, _, hdest⟩ := bind_eq_ok hdest
  obtain ⟨_, _, hdest⟩ := bind_eq_ok hdest
  obtain ⟨_, hlt, hdest⟩ := bind_eq_ok hdest
  have hlt := of_decide_eq_true (cAssert_eq_ok hlt)
  have hdest := Except.ok.inj hdest
  obtain ⟨u, hu, husame, huchars⟩ := updateLine_chars
    (s := s.updateChars dest 1 (fun _ => ⟨BitVec.ofInt 8 byte.toNat, true⟩))
    s.currentrow h.row_nonneg
    (lt_of_lt_of_eq h.row_lt h.height.symm)
    ({ · with needSupdate := true })
  obtain ⟨v, hv, hs'⟩ := bind_eq_ok hs'
  obtain rfl := Except.ok.inj (hu.symm.trans hv)
  obtain rfl := Except.ok.inj hs'
  refine ⟨husame.hasScroll, husame.scrollCalls, row, by omega, column,
    by omega, fun r c hc => ?_⟩
  have hchars := chars_updateChars_one (s := s) row column r
    (c := c) (fun _ => ⟨byte, true⟩) (by omega) (by omega)
  rw [hwidth] at hchars
  have hbyte : BitVec.ofInt 8 byte.toNat = byte := by
    rw [BitVec.ofInt_natCast, BitVec.ofNat_toNat, BitVec.setWidth_eq]
  rw [huchars, ← hdest, hrow, hcolumn, hwidth, hbyte]
  exact hchars

theorem writeChar_chars (h : OnScreen columns rows s)
    (hscroll : s.hasScroll = true) (byte : BitVec 8) {s' : Vt100tty}
    (hs' : s.writeChar byte.toNat = .ok s') :
    ∃ t, Advanced s t ∧ s'.hasScroll = true ∧
      s'.scrollCalls = t.scrollCalls ∧
      (s'.chars = t.chars ∨ ∃ row < rows, ∃ column < columns,
        ∀ r c : ℕ, c < columns → s'.chars (r * columns + c) =
          if r = row ∧ c = column then ⟨byte, true⟩
          else t.chars (r * columns + c)) := by
  unfold writeChar at hs'
  split at hs'
  next =>
    obtain ⟨hscrolls, hadvanced⟩ := advanceline_chars h hscroll hs'
    exact ⟨s', hadvanced, hscrolls, rfl, .inl rfl⟩
  split at hs'
  next =>
    obtain rfl := Except.ok.inj hs'
    exact ⟨s, .inl ⟨rfl, rfl⟩, hscroll, rfl, .inl rfl⟩
  next =>
    have hline : ∃ t, OnScreen columns rows t ∧ t.hasScroll = true ∧
        Advanced s t ∧ t.typeChar byte = .ok s' := by
      simp only at hs'
      split at hs'
      next =>
        obtain ⟨t, ht, hs'⟩ := bind_eq_ok hs'
        obtain ⟨u, hu, huon, _⟩ := advanceline_eq h true
        obtain rfl := Except.ok.inj (hu.symm.trans ht)
        obtain ⟨hscrolls, hadvanced⟩ := advanceline_chars h hscroll ht
        exact ⟨u, huon, hscrolls, hadvanced, hs'⟩
      next => exact ⟨s, h, hscroll, .inl ⟨rfl, rfl⟩, hs'⟩
    obtain ⟨t, hon, hscrolls, hadvanced, ht⟩ := hline
    obtain ⟨htscroll, htcalls, htyped⟩ := typeChar_chars hon byte ht
    exact ⟨t, hadvanced, htscroll.trans hscrolls, htcalls, .inr htyped⟩

theorem scrolledChars_at (chars : ℤ → Vt100ttyChar) {r c : ℕ}
    (hr : r < rows) (hc : c < columns) :
    scrolledChars rows columns chars (r * columns + c) =
      if r + 1 = rows then ⟨0x20#8, true⟩
      else chars ((r + 1 : ℕ) * columns + c) := by
  have hlast : ((rows : ℤ) - 1) * columns ≤ (r : ℤ) * columns + c ∧
      (r : ℤ) * columns + c < (rows - 1) * columns + columns ↔
      (r : ℤ) = rows - 1 := inRow_iff r (rows - 1) (by omega) (by omega)
  simp only [scrolledChars, hlast]
  by_cases heq : r + 1 = rows
  · rw [if_pos (by omega), if_pos heq]
  · have hnonneg : 0 ≤ (r : ℤ) * columns :=
      mul_nonneg (Int.natCast_nonneg r) (Int.natCast_nonneg columns)
    have hmul : ((r + 1 : ℕ) : ℤ) * columns ≤ (rows - 1) * columns :=
      mul_le_mul_of_nonneg_right (by omega) (Int.natCast_nonneg columns)
    push_cast at hmul ⊢
    rw [add_mul, one_mul] at hmul ⊢
    rw [if_neg (by omega), if_neg heq, moveUp, if_pos (by omega)]
    congr 1
    omega

theorem init_chars {s' : Vt100tty} (hwidth : s.columns = columns)
    (hheight : s.rows = rows) (hs' : s.init = .ok s') :
    s'.hasScroll = s.hasScroll ∧ ∀ r c : ℕ, r < rows → c < columns →
      s'.chars (r * columns + c) = ⟨0x20#8, true⟩ := by
  obtain ⟨t, ht, htsame, htchars⟩ := initRows_eq (s := s)
    (n := s.rows.toNat) (by omega) (by omega)
  obtain rfl := Except.ok.inj (ht.symm.trans hs')
  refine ⟨htsame.hasScroll, fun r c hr hc => ?_⟩
  have hcell := htchars r c (by omega) (by omega)
  rwa [hwidth] at hcell

end Vt100tty
end Console
end Yjkos
