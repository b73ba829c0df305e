import Yjkos.FbDraw
import Yjkos.Mirror
import Yjkos.TransitionRun

/-!
# The damage of the framebuffer

With 32 bits to a pixel, the rows of the framebuffer outside the damage show
the back buffer in native colors.  Drawing and updating keep this.  Scrolling
moves the rows of both buffers and leaves the damage where it is, so it keeps
this when no pending row is moved out of the damage.
-/

namespace Yjkos
namespace Fb

open Canvas

/-- The rows which an update will convert. -/
def Pending (s : Fb) (y : ℤ) : Prop :=
  s.damageFirstY ≤ y ∧ y ≤ s.damageLastY

instance (s : Fb) (y : ℤ) : Decidable (s.Pending y) :=
  inferInstanceAs (Decidable (_ ∧ _))

/-- The little-endian word at an address. -/
def word32 (m : ℕ → BitVec 8) (a : ℕ) : BitVec 32 :=
  m (a + 3) ++ m (a + 2) ++ m (a + 1) ++ m a

def backPixel (s : Fb) (p : ℕ × ℕ) : FbColor :=
  s.backbuffer (p.1 * s.width + p.2)

/-- The screen finds a row at a multiple of the pitch. -/
def frontPixel (s : Fb) (p : ℕ × ℕ) : BitVec 32 :=
  word32 s.fbbase (p.1 * s.fbpitch + 4 * p.2)

/-- A row of the framebuffer is the conversion of the row of the back
buffer. -/
def RowShown (s : Fb) (y : ℕ) : Prop :=
  ∀ x < s.width, s.frontPixel (y, x) = makeNativeColorRgb s.rgb
    (s.backPixel (y, x))

instance (s : Fb) (y : ℕ) : Decidable (s.RowShown y) :=
  inferInstanceAs (Decidable (∀ x < s.width, _))

/-- The calls of the functions of the module. -/
inductive FbCall where
  | drawPixel (x y : ℕ) (color : FbColor)
  | drawImage (image : ℕ → FbColor)
      (width height pixelsPerLine destx desty : ℕ)
  | drawRect (width height destx desty : ℕ) (color : FbColor)
  | drawText (text : List (BitVec 8)) (destx desty : ℕ) (color : FbColor)
  | scroll (scrolllen : ℤ)
  | update

def step (font : Psf) (s : Fb) : FbCall → Except Fault Fb
  | .drawPixel x y color => .ok (s.drawPixel x y color)
  | .drawImage image width height pixelsPerLine destx desty =>
      .ok (s.drawImage image width height pixelsPerLine destx desty)
  | .drawRect width height destx desty color =>
      .ok (s.drawRect width height destx desty color)
  | .drawText text destx desty color =>
      .ok (drawText font s text destx desty color)
  | .scroll scrolllen => s.scroll scrolllen
  | .update => .ok s.update

/-- What is drawn lies on the screen, and a scroll is one upwards. -/
def InBounds (font : Psf) (s : Fb) : FbCall → Prop
  | .drawPixel x y _ => x < s.width ∧ y < s.height
  | .drawImage _ width height _ destx desty =>
      destx + width ≤ s.width ∧ desty + height ≤ s.height
  | .drawRect width height destx desty _ =>
      destx + width ≤ s.width ∧ desty + height ≤ s.height
  | .drawText text destx desty _ =>
      destx + text.length * font.fontwidth ≤ s.width ∧
        desty + font.fontheight ≤ s.height
  | .scroll scrolllen => 0 < scrolllen
  | .update => True

instance (font : Psf) (s : Fb) (call : FbCall) :
    Decidable (InBounds font s call) :=
  match call with
  | .drawPixel .. => inferInstanceAs (Decidable (_ ∧ _))
  | .drawImage .. => inferInstanceAs (Decidable (_ ∧ _))
  | .drawRect .. => inferInstanceAs (Decidable (_ ∧ _))
  | .drawText .. => inferInstanceAs (Decidable (_ ∧ _))
  | .scroll _ => inferInstanceAs (Decidable (_ < _))
  | .update => inferInstanceAs (Decidable True)

/-- Nothing is moved, or two pixels at a time cover the width and each pending
row which is moved is pending at its new place. -/
def ScrollKeeps (s : Fb) (scrolllen : ℤ) : Prop :=
  s.height ≤ scrolllen ∨ s.width % 2 = 0 ∧
    ∀ y, scrolllen ≤ y → s.Pending y → s.Pending (y - scrolllen)

def Keeps (font : Psf) (s : Fb) (call : FbCall) : Prop :=
  InBounds font s call ∧
    ∀ scrolllen, call = .scroll scrolllen → s.ScrollKeeps scrolllen

/-- Four bytes at a time reach the start of every row, and a row holds its
pixels. -/
structure Geometry (s : Fb) : Prop where
  update32 : s.fbUpdate = .update32
  aligned : s.fbpitch % 4 = 0 ∨ s.height ≤ 1
  fits : 4 * s.width ≤ s.fbpitch

/-- The first update will be a full one. -/
def WholePending (s : Fb) : Prop :=
  s.damageFirstY = 0 ∧ s.damageLastY = s.height - 1

/-- The pixels of the rows which are not pending. -/
def freshPixels (s : Fb) : Set (ℕ × ℕ) :=
  {p | p.1 < s.height ∧ p.2 < s.width ∧ ¬ s.Pending p.1}

/-- The framebuffer shows the back buffer outside the damage. -/
structure Synced (s : Fb) : Prop extends Geometry s where
  damage : s.damageFirstY = -1 ∧ s.damageLastY = -1 ∨
    0 ≤ s.damageFirstY ∧ -1 ≤ s.damageLastY
  shows : Mirror.Shows (makeNativeColorRgb s.rgb) s.freshPixels s.backPixel
    s.frontPixel

variable {font : Psf} {s s' : Fb}

theorem Synced.rowShown (h : Synced s) {y : ℕ} (hy : y < s.height)
    (hfresh : ¬ s.Pending y) : s.RowShown y :=
  fun _ hx => h.shows _ ⟨hy, hx, hfresh⟩

/-! ## Drawing -/

theorem pending_includeDamage {first last y : ℤ}
    (hdamage : s.damageFirstY = -1 ∧ s.damageLastY = -1 ∨
      0 ≤ s.damageFirstY ∧ -1 ≤ s.damageLastY)
    (hnonneg : 0 ≤ y) (hy : s.Pending y ∨ first ≤ y ∧ y ≤ last) :
    (s.includeDamage first last).Pending y := by
  simp only [Pending, includeDamage] at hy ⊢
  constructor
  · split
    next => omega
    next => omega
  · split
    next => omega
    next => omega

theorem damage_includeDamage {first last : ℤ} (hfirst : 0 ≤ first)
    (hlast : -1 ≤ last)
    (hdamage : s.damageFirstY = -1 ∧ s.damageLastY = -1 ∨
      0 ≤ s.damageFirstY ∧ -1 ≤ s.damageLastY) :
    0 ≤ (s.includeDamage first last).damageFirstY ∧
      -1 ≤ (s.includeDamage first last).damageLastY := by
  simp only [includeDamage]
  constructor
  · split
    next => omega
    next => omega
  · split
    next => omega
    next => omega

theorem Draws.synced {row rows column count : ℕ}
    (hdraws : Draws s s' row rows column count) (h : Synced s) :
    Synced s' := by
  obtain ⟨hdamage, houtside⟩ := hdraws
  have hpending : ∀ y : ℕ, s.Pending y ∨ row ≤ y ∧ y < row + rows →
      s'.Pending y := by
    intro y hy
    rw [hdamage]
    refine pending_includeDamage h.damage (by omega) ?_
    exact hy.imp_right (fun hin => by omega)
  have hgeometry : Geometry s' := by
    rw [hdamage]
    exact ⟨h.update32, h.aligned, h.fits⟩
  have hwidth : s'.width = s.width := by rw [hdamage]; rfl
  have hheight : s'.height = s.height := by rw [hdamage]; rfl
  have hrgb : s'.rgb = s.rgb := by rw [hdamage]; rfl
  have hfront : s'.frontPixel = s.frontPixel := by rw [hdamage]; rfl
  refine ⟨hgeometry, ?_, ?_⟩
  · rw [hdamage]
    exact .inr (damage_includeDamage (by omega) (by omega) h.damage)
  · rw [hrgb]
    refine h.shows.change ?_ ?_ (fun p _ => congrFun hfront p)
    · rintro ⟨y, x⟩ ⟨hy, hx, hfresh⟩
      rw [hheight] at hy
      rw [hwidth] at hx
      exact ⟨hy, hx, fun hold => hfresh (hpending y (.inl hold))⟩
    · rintro ⟨y, x⟩ ⟨hy, hx, hfresh⟩
      rw [hwidth] at hx
      -- The rows which are drawn to are pending now.
      have hrow : ¬ (row ≤ y ∧ y < row + rows) :=
        fun hin => hfresh (hpending y (.inr hin))
      have heq := houtside y x hx (fun hin => hrow hin.1)
      simp only [backPixel, hwidth]
      exact heq

/-! ## Updating -/

/-- The cache holds the conversion of its last color. -/
def Cached (native : FbColor → BitVec 32) (cache : NativeCache) : Prop :=
  ∀ color : FbColor, (color.toNat : ℤ) = cache.lastcolor →
    cache.lastnativecolor = native color

variable {native : FbColor → BitVec 32}

theorem convertColor_eq {cache : NativeCache} (h : Cached native cache)
    (color : FbColor) :
    (convertColor (fun rgb cache => (native rgb, cache)) cache
        color).lastnativecolor = native color ∧
      Cached native
        (convertColor (fun rgb cache => (native rgb, cache)) cache color) := by
  unfold convertColor
  split
  next hlast => exact ⟨h color hlast, h⟩
  next =>
    refine ⟨rfl, ?_⟩
    intro color' hcolor
    change (color'.toNat : ℤ) = color.toNat at hcolor
    rw [BitVec.eq_of_toNat_eq (Int.ofNat_inj.1 hcolor)]

/-- A byte of the conversion of a row which begins at `srcpixel`. -/
def nativeByte (native : FbColor → BitVec 32) (size : ℕ)
    (backbuffer : ℕ → FbColor) (srcpixel j : ℕ) : BitVec 8 :=
  (native (backbuffer (srcpixel + j / size))).extractLsb' (8 * (j % size)) 8

theorem updateRow_eq {size : ℕ} (hsize : 0 < size)
    (backbuffer : ℕ → FbColor) (srcpixel destline count : ℕ)
    (m : ℕ → BitVec 8) {cache : NativeCache} (h : Cached native cache) :
    ∃ cache', Cached native cache' ∧
      updateRow (fun rgb cache => (native rgb, cache)) size backbuffer srcpixel
          destline count (m, cache) =
        (paint m destline (count * size)
          (nativeByte native size backbuffer srcpixel), cache') := by
  induction count with
  | zero =>
      refine ⟨cache, h, ?_⟩
      rw [zero_mul]
      refine congrArg (·, cache) ?_
      funext i
      exact (paint_of_not_mem (by omega) _).symm
  | succ n ih =>
      obtain ⟨cache', hcache', heq⟩ := ih
      obtain ⟨hcolor, hcached⟩ := convertColor_eq hcache'
        (backbuffer (srcpixel + n))
      refine ⟨_, hcached, ?_⟩
      rw [updateRow] at heq ⊢
      rw [List.range_succ, List.foldl_append, heq]
      simp only [List.foldl_cons, List.foldl_nil, hcolor]
      refine congrArg (·, _) ?_
      rw [add_mul, one_mul, ← paint_paint, putPixel]
      refine paint_congr (fun k hk => ?_)
      rw [nativeByte, mul_comm n size, Nat.mul_add_div hsize,
        Nat.mul_add_mod, Nat.div_eq_of_lt hk, Nat.mod_eq_of_lt hk, add_zero]

theorem updateRows_eq {size : ℕ} (hsize : 0 < size)
    (backbuffer : ℕ → FbColor) (width stride first rows : ℕ)
    (m : ℕ → BitVec 8) {cache : NativeCache} (h : Cached native cache) :
    ∃ cache', Cached native cache' ∧
      ((List.range rows).map (first + ·)).foldl (fun st srcy =>
          updateRow (fun rgb cache => (native rgb, cache)) size backbuffer
            (srcy * width) (srcy * stride) width st) (m, cache) =
        (paintRows m (first * stride) stride (width * size) rows
          (fun k => nativeByte native size backbuffer ((first + k) * width)),
          cache') := by
  induction rows with
  | zero => exact ⟨cache, h, rfl⟩
  | succ n ih =>
      obtain ⟨cache', hcache', heq⟩ := ih
      obtain ⟨next, hnext, hrow⟩ := updateRow_eq hsize backbuffer
        ((first + n) * width) ((first + n) * stride) width
        (paintRows m (first * stride) stride (width * size) n
          (fun k => nativeByte native size backbuffer ((first + k) * width)))
        hcache'
      refine ⟨next, hnext, ?_⟩
      rw [List.range_succ, List.map_append, List.foldl_append, heq]
      simp only [List.map_cons, List.map_nil, List.foldl_cons, List.foldl_nil,
        hrow]
      rw [add_mul first n stride]
      simp only [paintRows, List.range_succ, List.foldl_append,
        List.foldl_cons, List.foldl_nil]

theorem word32_eq {m : ℕ → BitVec 8} {a : ℕ} {v : BitVec 32}
    (h : ∀ k < 4, m (a + k) = v.extractLsb' (8 * k) 8) : word32 m a = v := by
  have h0 := h 0 (by omega)
  rw [add_zero] at h0
  rw [word32, h0, h 1 (by omega), h 2 (by omega), h 3 (by omega)]
  ext i hi
  simp only [BitVec.getElem_append, BitVec.getElem_extractLsb']
  rw [← BitVec.getLsbD_eq_getElem]
  split_ifs with h0 h1 h2
  · rw [show 8 * 0 + i = i by omega]
  · rw [show 8 * 1 + (i - 8) = i by omega]
  · rw [show 8 * 2 + (i - 8 - 8) = i by omega]
  · rw [show 8 * 3 + (i - 8 - 8 - 8) = i by omega]

theorem update32_fbbase (hpending : 0 ≤ s.damageFirstY)
    (hfits : 4 * s.width ≤ s.fbpitch) {y b : ℕ}
    (hb : b < 4 * (s.fbpitch / 4)) :
    s.update32.fbbase (y * (4 * (s.fbpitch / 4)) + b) =
      if s.Pending y ∧ b < s.width * 4 then
        nativeByte (makeNativeColorRgb s.rgb) 4 s.backbuffer (y * s.width) b
      else s.fbbase (y * (4 * (s.fbpitch / 4)) + b) := by
  have hcached : Cached (makeNativeColorRgb s.rgb)
      ⟨-1, 0xffffffff#32, s.lastavg, s.lastcolor⟩ := by
    intro color hcolor
    change (color.toNat : ℤ) = -1 at hcolor
    omega
  obtain ⟨first, hfirst⟩ := Int.eq_ofNat_of_zero_le hpending
  obtain ⟨cache, _, hrows⟩ := updateRows_eq (by omega : 0 < 4) s.backbuffer
    s.width (4 * (s.fbpitch / 4)) first
    (s.damageLastY + 1 - s.damageFirstY).toNat s.fbbase hcached
  have hbase : s.update32.fbbase = paintRows s.fbbase
      (first * (4 * (s.fbpitch / 4)) + 0) (4 * (s.fbpitch / 4)) (s.width * 4)
      (s.damageLastY + 1 - s.damageFirstY).toNat
      (fun k => nativeByte (makeNativeColorRgb s.rgb) 4 s.backbuffer
        ((first + k) * s.width)) := by
    rw [update32, updateDirect, if_neg (by omega)]
    simp only [damagedRows, hfirst, Int.toNat_natCast]
    rw [← hfirst]
    exact congrArg Prod.fst hrows
  rw [hbase, paintRows_at hb (by omega)]
  have hiff : ((first ≤ y ∧
      y < first + (s.damageLastY + 1 - s.damageFirstY).toNat) ∧
        0 ≤ b ∧ b < 0 + s.width * 4) ↔ s.Pending y ∧ b < s.width * 4 := by
    simp only [Pending]
    omega
  simp only [hiff]
  split
  next hin =>
    have hle : first ≤ y := by
      have hle := hin.1.1
      omega
    rw [Nat.add_sub_cancel' hle, Nat.sub_zero]
  next => rfl

theorem Geometry.row_start (h : Geometry s) {y : ℕ} (hy : y < s.height) :
    y * (4 * (s.fbpitch / 4)) = y * s.fbpitch := by
  rcases h.aligned with haligned | hone
  · rw [show 4 * (s.fbpitch / 4) = s.fbpitch by omega]
  · rw [show y = 0 by omega, zero_mul, zero_mul]

theorem update32_rowShown (h : Geometry s) {y : ℕ} (hy : y < s.height)
    (hpending : s.Pending y) (hfirst : 0 ≤ s.damageFirstY) {x : ℕ}
    (hx : x < s.width) :
    s.update32.frontPixel (y, x) =
      makeNativeColorRgb s.rgb (s.backPixel (y, x)) := by
  refine word32_eq (fun k hk => ?_)
  have hbyte := update32_fbbase hfirst h.fits (y := y) (b := 4 * x + k)
    (by have := h.fits; omega)
  rw [if_pos ⟨hpending, by omega⟩, h.row_start hy, ← add_assoc] at hbyte
  have hpitch : s.update32.fbpitch = s.fbpitch := by
    rw [update32, updateDirect, if_neg (by omega)]
  rw [hpitch]
  refine hbyte.trans ?_
  rw [nativeByte, Nat.mul_add_div (by omega), Nat.mul_add_mod,
    Nat.div_eq_of_lt hk, Nat.mod_eq_of_lt hk, add_zero]
  rfl

theorem update32_frontPixel (h : Geometry s) {y : ℕ} (hy : y < s.height)
    (hfresh : ¬ s.Pending y) (hfirst : 0 ≤ s.damageFirstY) {x : ℕ}
    (hx : x < s.width) :
    s.update32.frontPixel (y, x) = s.frontPixel (y, x) := by
  have hpitch : s.update32.fbpitch = s.fbpitch := by
    rw [update32, updateDirect, if_neg (by omega)]
  have hbyte : ∀ k < 4, s.update32.fbbase (y * s.fbpitch + 4 * x + k) =
      s.fbbase (y * s.fbpitch + 4 * x + k) := by
    intro k hk
    have hbyte := update32_fbbase hfirst h.fits (y := y) (b := 4 * x + k)
      (by have := h.fits; omega)
    rw [if_neg (fun hin => hfresh hin.1), h.row_start hy, ← add_assoc]
      at hbyte
    exact hbyte
  simp only [frontPixel, word32, hpitch]
  rw [hbyte 3 (by omega), hbyte 2 (by omega), hbyte 1 (by omega)]
  exact congrArg _ (hbyte 0 (by omega))

theorem update32_eq (hfirst : 0 ≤ s.damageFirstY) :
    ∃ lastavg lastcolor, s.update32 =
      { s with
        fbbase := s.update32.fbbase, lastavg := lastavg
        lastcolor := lastcolor, damageFirstY := -1, damageLastY := -1 } := by
  rw [update32, updateDirect, if_neg (by omega)]
  exact ⟨_, _, rfl⟩

/-- An update leaves nothing pending, and every row is shown which was pending
or was shown before. -/
theorem update32_synced (h : Geometry s) (hfirst : 0 ≤ s.damageFirstY)
    (hrows : ∀ y < s.height, ¬ s.Pending y → s.RowShown y) :
    Synced s.update32 := by
  obtain ⟨lastavg, lastcolor, heq⟩ := update32_eq hfirst
  have hshown : ∀ y < s.height, ∀ x < s.width,
      s.update32.frontPixel (y, x) =
        makeNativeColorRgb s.rgb (s.backPixel (y, x)) := by
    intro y hy x hx
    by_cases hpending : s.Pending y
    · exact update32_rowShown h hy hpending hfirst hx
    · rw [update32_frontPixel h hy hpending hfirst hx]
      exact hrows y hy hpending x hx
  generalize s.update32 = t at heq hshown ⊢
  refine ⟨?_, ?_, ?_⟩
  · rw [heq]
    exact ⟨h.update32, h.aligned, h.fits⟩
  · rw [heq]
    exact .inl ⟨rfl, rfl⟩
  · have hback : t.backPixel = s.backPixel := by rw [heq]; rfl
    have hrgb : t.rgb = s.rgb := by rw [heq]
    have hheight : t.height = s.height := by rw [heq]
    have hwidth : t.width = s.width := by rw [heq]
    rintro ⟨y, x⟩ ⟨hy, hx, _⟩
    rw [hback, hrgb]
    exact hshown y (hheight ▸ hy) x (hwidth ▸ hx)

theorem Synced.update (h : Synced s) : Synced s.update := by
  rw [Fb.update, h.update32]
  rcases h.damage with ⟨hnone, _⟩ | ⟨hfirst, _⟩
  · simp only [Fb.update32, updateDirect]
    rw [if_pos (by omega)]
    exact h
  · exact update32_synced h.toGeometry hfirst (fun y hy => h.rowShown hy)

/-! ## Scrolling -/

/-- The row which a scroll moves to a row. -/
def scrolledFrom (s : Fb) (distance : ℕ) (p : ℕ × ℕ) : ℕ × ℕ :=
  if p.1 + distance < s.height then (p.1 + distance, p.2) else p

theorem scroll_backPixel {distance : ℕ} (hdistance : 0 < distance)
    (heven : s.height ≤ distance ∨ s.width % 2 = 0)
    (hs' : s.scroll distance = .ok s') {p : ℕ × ℕ} (hp : p.2 < s.width) :
    s'.backPixel p = s.backPixel (s.scrolledFrom distance p) := by
  obtain ⟨y, x⟩ := p
  change x < s.width at hp
  simp only [scroll, Int.natCast_pos.2 hdistance, decide_true, cAssert_true,
    ok_bind, Except.ok.injEq, Int.toNat_natCast] at hs'
  rw [← hs']
  simp only [backPixel, scrolledFrom]
  rw [moveRows_at hp (by omega) hdistance]
  by_cases hmoved : y + distance < s.height
  · rw [if_pos hmoved, if_pos (by omega)]
  · rw [if_neg hmoved, if_neg (by omega)]

theorem scroll_frontPixel {distance : ℕ} (hdistance : 0 < distance)
    (h : Geometry s) (hs' : s.scroll distance = .ok s') {p : ℕ × ℕ}
    (hp : p.2 < s.width) :
    s'.frontPixel p = s.frontPixel (s.scrolledFrom distance p) := by
  obtain ⟨y, x⟩ := p
  change x < s.width at hp
  have hfits := h.fits
  simp only [scroll, Int.natCast_pos.2 hdistance, decide_true, cAssert_true,
    ok_bind, Except.ok.injEq, Int.toNat_natCast] at hs'
  have hbyte : ∀ k < 4, s'.fbbase (y * s.fbpitch + 4 * x + k) =
      s.fbbase ((s.scrolledFrom distance (y, x)).1 * s.fbpitch + 4 * x
        + k) := by
    intro k hk
    rw [← hs']
    simp only [scrolledFrom, add_assoc (y * s.fbpitch)]
    rw [moveRows_at (by omega) (by omega) hdistance]
    by_cases hmoved : y + distance < s.height
    · rw [if_pos hmoved, if_pos (by omega)]
      simp only [add_assoc]
    · rw [if_neg hmoved, if_neg (by omega)]
      simp only [add_assoc]
  have hpitch : s'.fbpitch = s.fbpitch := by rw [← hs']
  have hcolumn : (s.scrolledFrom distance (y, x)).2 = x := by
    unfold scrolledFrom
    split <;> rfl
  simp only [frontPixel, word32, hpitch, hcolumn]
  rw [hbyte 3 (by omega), hbyte 2 (by omega), hbyte 1 (by omega)]
  exact congrArg _ (hbyte 0 (by omega))

theorem scroll_eq {scrolllen : ℤ} (hs' : s.scroll scrolllen = .ok s') :
    0 < scrolllen ∧ s' = { s with
      fbbase := s'.fbbase, backbuffer := s'.backbuffer } := by
  unfold scroll at hs'
  obtain ⟨_, hpos, hs'⟩ := bind_eq_ok hs'
  have hpos := of_decide_eq_true (cAssert_eq_ok hpos)
  simp only [Except.ok.injEq] at hs'
  refine ⟨hpos, ?_⟩
  rw [← hs']

theorem Synced.scroll (h : Synced s) {scrolllen : ℤ}
    (hkeeps : s.ScrollKeeps scrolllen)
    (hs' : s.scroll scrolllen = .ok s') : Synced s' := by
  obtain ⟨hpos, heq⟩ := scroll_eq hs'
  obtain ⟨distance, rfl⟩ := Int.eq_ofNat_of_zero_le hpos.le
  have hdistance : 0 < distance := by omega
  have heven : s.height ≤ distance ∨ s.width % 2 = 0 :=
    hkeeps.imp (fun hle => by omega) And.left
  have hwidth : s'.width = s.width := by rw [heq]
  have hheight : s'.height = s.height := by rw [heq]
  have hrgb : s'.rgb = s.rgb := by rw [heq]
  have hpending : s'.Pending = s.Pending := by rw [heq]; rfl
  have hcolumn : ∀ p ∈ s'.freshPixels, p.2 < s.width := by
    rintro p ⟨_, hx, _⟩
    exact hwidth ▸ hx
  refine ⟨?_, ?_, ?_⟩
  · rw [heq]
    exact ⟨h.update32, h.aligned, h.fits⟩
  · rw [heq]
    exact h.damage
  · rw [hrgb]
    refine h.shows.move (s.scrolledFrom distance) ?_
      (fun p hp => scroll_backPixel hdistance heven hs' (hcolumn p hp))
      (fun p hp => scroll_frontPixel hdistance h.toGeometry hs' (hcolumn p hp))
    rintro ⟨y, x⟩ ⟨hy, hx, hfresh⟩
    rw [hheight] at hy
    rw [hwidth] at hx
    rw [hpending] at hfresh
    unfold scrolledFrom
    split
    next hmoved =>
      refine ⟨hmoved, hx, fun hold => hfresh ?_⟩
      -- A pending row would still be pending where it is moved to.
      rcases hkeeps with hnothing | ⟨_, hkept⟩
      · change y + distance < s.height at hmoved
        omega
      · have hnew := hkept _ (by push_cast; omega) hold
        push_cast at hnew
        rwa [add_sub_cancel_right] at hnew
    next => exact ⟨hy, hx, hfresh⟩

/-! ## Runs -/

theorem Synced.step (h : Synced s) {call : FbCall}
    (hkeeps : Keeps font s call) (hs' : step font s call = .ok s') :
    Synced s' := by
  obtain ⟨hbounds, hscroll⟩ := hkeeps
  cases call with
  | drawPixel x y color =>
      obtain rfl := Except.ok.inj hs'
      exact (drawPixel_draws hbounds.1 color).synced h
  | drawImage image width height pixelsPerLine destx desty =>
      obtain rfl := Except.ok.inj hs'
      exact (drawImage_draws hbounds.1 image pixelsPerLine).synced h
  | drawRect width height destx desty color =>
      obtain rfl := Except.ok.inj hs'
      exact (drawRect_draws hbounds.1 color).synced h
  | drawText text destx desty color =>
      obtain rfl := Except.ok.inj hs'
      exact (drawText_draws hbounds.1 color).synced h
  | scroll scrolllen => exact h.scroll (hscroll scrolllen rfl) hs'
  | update =>
      obtain rfl := Except.ok.inj hs'
      exact h.update

theorem step_ok {call : FbCall} (hbounds : InBounds font s call) :
    ∃ s', Fb.step font s call = .ok s' := by
  cases call with
  | scroll scrolllen =>
      have hpos : 0 < scrolllen := hbounds
      simp only [Fb.step, Fb.scroll, hpos, decide_true, cAssert_true, ok_bind]
      exact ⟨_, rfl⟩
  | _ => exact ⟨_, rfl⟩

theorem WholePending.update (hgeometry : Geometry s)
    (hwhole : s.WholePending) : Synced s.update := by
  rw [Fb.update, hgeometry.update32]
  refine update32_synced hgeometry hwhole.1.ge (fun y hy hfresh => ?_)
  exact absurd ⟨by rw [hwhole.1]; omega, by rw [hwhole.2]; omega⟩ hfresh

open TransitionRun

/-- After the first full update, and a run whose scrolls take no pending row
out of the damage, the rows outside the damage are shown.  After a further
update every row is. -/
theorem damage_tracked (font : Psf) {s : Fb} (hgeometry : Geometry s)
    (hwhole : s.WholePending) {calls : List FbCall}
    (hkeeps : Admitted (Keeps font) (step font) s.update calls) :
    ∃ s', run (step font) s.update calls = .ok s' ∧
      (∀ y < s'.height, ¬ s'.Pending y → s'.RowShown y) ∧
      ∀ y < s'.update.height, s'.update.RowShown y := by
  obtain ⟨s', hs', hsynced⟩ := run_ok_of_progress
    (fun s call (h : Synced s) hcall => by
      obtain ⟨next, hnext⟩ := step_ok hcall.1
      exact ⟨next, hnext, h.step hcall hnext⟩)
    (hwhole.update hgeometry) hkeeps
  refine ⟨s', hs', fun y hy => hsynced.rowShown hy, fun y hy => ?_⟩
  refine hsynced.update.rowShown hy (fun hpending => ?_)
  have hnone : s'.update.damageLastY = -1 := by
    rw [Fb.update, hsynced.update32]
    rcases hsynced.damage with ⟨hnone, hlast⟩ | ⟨hfirst, _⟩
    · simp only [Fb.update32, updateDirect]
      rw [if_pos (by omega)]
      exact hlast
    · obtain ⟨_, _, heq⟩ := update32_eq hfirst
      rw [heq]
  have hle := hpending.2
  omega

/-- The console which `fb_init_rgb` starts draws over the whole screen, so the
first update is a full one. -/
theorem initRgb_ready {start ready : Fb} {rgb : RgbInfo}
    {framebuffer : ℕ → BitVec 8} {width height pitch : ℕ}
    {backbuffer : Option (ℕ → FbColor)}
    (hfirst : start.damageFirstY = -1) (hlast : start.damageLastY = -1)
    (haligned : pitch % 4 = 0 ∨ height ≤ 1) (hfits : 4 * width ≤ pitch)
    (hinit : start.initRgb rgb framebuffer width height pitch 32 backbuffer =
      some ready) :
    Geometry (ready.drawRect ready.width ready.height 0 0 black) ∧
      (ready.drawRect ready.width ready.height 0 0 black).WholePending := by
  cases backbuffer with
  | none => cases hinit
  | some backbuffer =>
      have hready : ready = { start with
          rgb := rgb, width := width, height := height, fbpitch := pitch
          backbuffer := backbuffer, fbUpdate := .update32
          fbbase := framebuffer } := by
        have heq := Option.some.inj hinit
        simp only [Fb.update, Fb.update32, updateDirect, hfirst] at heq
        rw [if_pos (by omega)] at heq
        rw [← heq, hfirst]
      rw [hready]
      refine ⟨⟨rfl, haligned, hfits⟩, ?_, ?_⟩
      · simp [drawRect, includeDamage, hfirst]
      · simp [drawRect, includeDamage, hlast]

/-- Two columns and three rows, which are all pending. -/
def smallScreen : Fb where
  width := 2
  height := 3
  damageFirstY := 0
  damageLastY := 2
  backbuffer := fun _ => black
  rgb := ⟨16, 8, 0, 8, 8, 8⟩
  indexed := ⟨fun _ => 0, 0⟩
  fbbase := fun _ => 0x5a
  fbpitch := 8
  lastavg := -1
  lastcolor := -1
  fbUpdate := .update32

/-- A font of a single glyph, which is a filled square. -/
def blockFont : Psf where
  unicodetable := none
  glyphs := fun _ => 0xff
  fontwidth := 1
  fontheight := 1
  bytesperglyph := 1
  glyphcount := 1
  fontwidth_pos := by decide
  fontheight_pos := by decide
  glyphcount_pos := by decide

theorem smallScreen_geometry : Geometry smallScreen :=
  ⟨rfl, by decide, by decide⟩

/-- The same screen before anything has been drawn. -/
def blankScreen : Fb :=
  { smallScreen with damageFirstY := -1, damageLastY := -1 }

theorem blankScreen_init :
    blankScreen.initRgb ⟨16, 8, 0, 8, 8, 8⟩ (fun _ => 0x5a) 2 3 8 32
      (some fun _ => black) = some blankScreen := rfl

/-- A line is scrolled in and drawn, from the start of the console on. -/
theorem blankScreen_tracked :
    ∃ s', run (step blockFont) (blankScreen.drawRect 2 3 0 0 black).update
        [.scroll 1, .drawText [0x41, 0x42] 0 2 white] = .ok s' ∧
      (∀ y < s'.height, ¬ s'.Pending y → s'.RowShown y) ∧
      ∀ y < s'.update.height, s'.update.RowShown y := by
  obtain ⟨hgeometry, hwhole⟩ :=
    initRgb_ready rfl rfl (by decide) (by decide) blankScreen_init
  refine damage_tracked blockFont hgeometry hwhole
    ⟨⟨by decide, ?_⟩, fun next hnext => ⟨⟨?_, by simp⟩, fun _ _ => trivial⟩⟩
  · intro scrolllen hscroll
    obtain rfl := FbCall.scroll.inj hscroll
    refine .inr ⟨rfl, fun y hle hpending => ?_⟩
    have hnone : y ≤ -1 := hpending.2
    omega
  · obtain rfl := Except.ok.inj hnext
    decide

/-- The pixel of a pending row is moved up, to a row which is not pending. -/
theorem scroll_loses_pending_row :
    ¬ ∀ (font : Psf) (s : Fb) (calls : List FbCall) (s' : Fb),
      Geometry s → s.width % 2 = 0 → s.WholePending →
      Admitted (InBounds font) (step font) s.update calls →
      run (step font) s.update calls = .ok s' →
      ∀ y < s'.height, ¬ s'.Pending y → s'.RowShown y := by
  intro h
  have hrow := h blockFont smallScreen [.drawPixel 0 1 white, .scroll 1] _
    smallScreen_geometry rfl ⟨rfl, rfl⟩
    ⟨by decide, fun _ _ => ⟨zero_lt_one, fun _ _ => trivial⟩⟩ rfl 0
    (by decide) (by decide)
  revert hrow
  decide

/-- With an odd width the last pixel of a row of the back buffer is not moved,
though nothing is pending. -/
example : (run (step blockFont) ({ smallScreen with width := 1 } : Fb).update
    [.drawPixel 0 1 white, .update, .scroll 1]).toOption.any
      (fun s => decide (s.damageLastY = -1 ∧ ¬ s.RowShown 0)) = true := by
  decide

end Fb
end Yjkos
