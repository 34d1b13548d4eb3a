/-
TP2Kernel/Screen.lean

The text output of `Kernel/drivers/videoDriver.c`, and `syscall_setFontScale` of
`Kernel/syscalls_kernel.c`.

The frame buffer is only written, so the model keeps the list of what is drawn: the
calls of `video_putPixel`, and the moves of `video_scrollUp`.  The scale is one of
1 to 5 at all times, since nothing but `syscall_setFontScale` sets it, and a screen
has at least 40 by 80 pixels, so no difference below wraps around.

The driver compares the cursor with the edges before it moves, never the far side of
the character it draws.  If characters of the current size tile the screen and the
cursor stands on that grid (`OnGrid`), the two are the same, and everything stays on
the screen.
-/
import TP2Kernel.Runs

namespace TP2Kernel

/-- `FONT_WIDTH`. -/
def fontWidth : Nat := 8

/-- `FONT_HEIGHT`. -/
def fontHeight : Nat := 16

/-- `BACKGROUND_COLOR`. -/
def backgroundColor : UInt32 := 0

/-- The size of the screen, as VBE reports it. -/
structure VideoMode where
  width : Nat
  height : Nat
  wide : 40 ≤ width
  high : 80 ≤ height

/-- What is done to the frame buffer: `video_putPixel`, or everything moves up by some
rows of pixels. -/
inductive Drawing
  | pixel (color : UInt32) (x y : Nat)
  | moveUp (rows : Nat)

/-- The static variables of the driver, and what has been drawn. -/
structure Video where
  cursorX : Nat
  cursorY : Nat
  fontScale : Nat
  scale : 1 ≤ fontScale ∧ fontScale ≤ 5
  drawn : List Drawing

namespace Video

/-- The driver before the first call. -/
def start : Video := ⟨0, 0, 1, by decide, []⟩

/-- The width of a character. -/
def charWidth (v : Video) : Nat := fontWidth * v.fontScale

/-- The height of a character. -/
def charHeight (v : Video) : Nat := fontHeight * v.fontScale

/-- Add to what has been drawn. -/
def draw (v : Video) (ds : List Drawing) : Video := { v with drawn := v.drawn ++ ds }

/-- A rectangle of background from `(x, y)` on, row by row. -/
def blankRows (x y w h : Nat) : List Drawing :=
  (List.range h).flatMap fun j => (List.range w).map fun i => .pixel backgroundColor (x + i) (y + j)

/-- The same, column by column. -/
def blankColumns (x y w h : Nat) : List Drawing :=
  (List.range w).flatMap fun i => (List.range h).map fun j => .pixel backgroundColor (x + i) (y + j)

variable (mode : VideoMode)

/-- `video_scrollUp`. -/
def scrollUp (v : Video) : Video :=
  v.draw (.moveUp v.charHeight ::
    blankRows 0 (mode.height - v.charHeight) mode.width v.charHeight)

/-- `video_newLine`. -/
def newLine (v : Video) : Video :=
  if v.cursorY + v.charHeight < mode.height then
    { v with cursorX := 0, cursorY := v.cursorY + v.charHeight }
  else
    { v.scrollUp mode with cursorX := 0, cursorY := mode.height - v.charHeight }

/-- `video_backSpace`. -/
def backSpace (v : Video) : Video :=
  if v.charWidth ≤ v.cursorX then
    let x := v.cursorX - v.charWidth
    { v.draw (blankColumns x v.cursorY v.charWidth v.charHeight) with cursorX := x }
  else if v.charHeight ≤ v.cursorY then
    let x := mode.width - v.charWidth
    let y := v.cursorY - v.charHeight
    { v.draw (blankColumns x y v.charWidth v.charHeight) with cursorX := x, cursorY := y }
  else v

/-- `if (cursorX >= VBEModeInfo->width) video_newLine();`, with the cursor at `x`. -/
def advance (v : Video) (x : Nat) : Video :=
  if mode.width ≤ x then { v with cursorX := x }.newLine mode else { v with cursorX := x }

/-- `video_tab`. -/
def tab (v : Video) : Video :=
  let step := v.charWidth * 8
  v.advance mode ((v.cursorX / step + 1) * step)

/-- The loops of `video_putChar`; `font8x16` is the table of the character patterns. -/
def glyph (font8x16 : UInt8 → Nat → UInt8) (v : Video) (c : UInt8) (fg bg : UInt32) :
    List Drawing :=
  (List.range fontHeight).flatMap fun y => (List.range fontWidth).flatMap fun x =>
    let color := if font8x16 c y &&& ((1 : UInt8) <<< UInt8.ofNat (7 - x)) ≠ 0 then fg else bg
    (List.range v.fontScale).flatMap fun sy => (List.range v.fontScale).map fun sx =>
      .pixel color (v.cursorX + x * v.fontScale + sx) (v.cursorY + y * v.fontScale + sy)

/-- `video_putChar`. -/
def putChar (font8x16 : UInt8 → Nat → UInt8) (v : Video) (c : UInt8) (fg bg : UInt32) : Video :=
  if c = 10 then v.newLine mode
  else if c = 8 then v.backSpace mode
  else if c = 9 then v.tab mode
  else (v.draw (v.glyph font8x16 c fg bg)).advance mode (v.cursorX + v.charWidth)

/-- `video_clearScreen`. -/
def clearScreen (v : Video) : Video :=
  { v.draw (blankRows 0 0 mode.width mode.height) with cursorX := 0, cursorY := 0 }

/-- `setFontScale`, for the values that `syscall_setFontScale` lets pass. -/
def setFontScale (v : Video) (scale : Nat) (h : 1 ≤ scale ∧ scale ≤ 5) : Video :=
  let v := { v with fontScale := scale, scale := h }
  let v :=
    if mode.width ≤ v.cursorX then
      { v with cursorX := 0, cursorY := v.cursorY + v.charHeight }
    else v
  if mode.height ≤ v.cursorY then
    { v.scrollUp mode with cursorY := mode.height - v.charHeight }
  else v

/-- `syscall_setFontScale`. -/
def syscallSetFontScale (v : Video) (scale : Int32) : Video :=
  if h : 1 ≤ scale.toInt.toNat ∧ scale.toInt.toNat ≤ 5 then
    v.setFontScale mode scale.toInt.toNat h
  else v

end Video

/-- The calls that write to the screen. -/
inductive VideoOp
  | putChar (c : UInt8) (fg bg : UInt32)
  | setFontScale (scale : Int32)
  | clearScreen
  | newLine

/-- One call. -/
def Video.exec (mode : VideoMode) (font8x16 : UInt8 → Nat → UInt8) (v : Video) :
    VideoOp → Video
  | .putChar c fg bg => v.putChar mode font8x16 c fg bg
  | .setFontScale scale => v.syscallSetFontScale mode scale
  | .clearScreen => v.clearScreen mode
  | .newLine => v.newLine mode

/-- The driver under any sequence of calls. -/
def videoMachine (mode : VideoMode) (font8x16 : UInt8 → Nat → UInt8) :
    Machine Video VideoOp where
  guard := fun _ _ => True
  step := fun v op => some (v.exec mode font8x16 op)

instance (mode : VideoMode) (font8x16 : UInt8 → Nat → UInt8) (v : Video) (op : VideoOp) :
    Decidable ((videoMachine mode font8x16).guard v op) := inferInstanceAs (Decidable True)

/-! ### The grid -/

/-- The drawing is on the screen. -/
def Drawing.On (mode : VideoMode) : Drawing → Prop
  | .pixel _ x y => x < mode.width ∧ y < mode.height
  | .moveUp _ => True

instance (mode : VideoMode) : DecidablePred (Drawing.On mode)
  | .pixel _ x y => inferInstanceAs (Decidable (x < mode.width ∧ y < mode.height))
  | .moveUp _ => inferInstanceAs (Decidable True)

/-- Characters of this scale tile the screen, and the cursor is where one begins. -/
def Video.OnGrid (mode : VideoMode) (v : Video) (scale : Nat) : Prop :=
  (fontWidth * scale ∣ mode.width ∧ fontHeight * scale ∣ mode.height) ∧
    fontWidth * scale ∣ v.cursorX ∧ fontHeight * scale ∣ v.cursorY

instance (mode : VideoMode) (v : Video) (scale : Nat) : Decidable (v.OnGrid mode scale) :=
  inferInstanceAs (Decidable ((_ ∧ _) ∧ _ ∧ _))

/-- Between two places of the grid there is room for a whole step. -/
theorem add_le_of_dvd {a x w : Nat} (hx : a ∣ x) (hw : a ∣ w) (h : x < w) : x + a ≤ w := by
  obtain ⟨k, rfl⟩ := hx
  obtain ⟨m, rfl⟩ := hw
  have hk : k < m := Nat.lt_of_mul_lt_mul_left h
  calc a * k + a = a * (k + 1) := (Nat.mul_succ a k).symm
    _ ≤ a * m := Nat.mul_le_mul_left a hk

theorem blankRows_on {mode : VideoMode} {x y w h : Nat} (hx : x + w ≤ mode.width)
    (hy : y + h ≤ mode.height) : ∀ d ∈ Video.blankRows x y w h, d.On mode := by
  intro d hd
  obtain ⟨j, hj, hd⟩ := List.mem_flatMap.mp hd
  obtain ⟨i, hi, rfl⟩ := List.mem_map.mp hd
  rw [List.mem_range] at hi hj
  exact ⟨by omega, by omega⟩

theorem blankColumns_on {mode : VideoMode} {x y w h : Nat} (hx : x + w ≤ mode.width)
    (hy : y + h ≤ mode.height) : ∀ d ∈ Video.blankColumns x y w h, d.On mode := by
  intro d hd
  obtain ⟨i, hi, hd⟩ := List.mem_flatMap.mp hd
  obtain ⟨j, hj, rfl⟩ := List.mem_map.mp hd
  rw [List.mem_range] at hi hj
  exact ⟨by omega, by omega⟩

/-- A pixel of a character lies within the character. -/
theorem scaled_lt {x n s i : Nat} (hx : x < n) (hi : i < s) : x * s + i < n * s := by
  calc x * s + i < x * s + s := Nat.add_lt_add_left hi _
    _ = (x + 1) * s := (Nat.succ_mul x s).symm
    _ ≤ n * s := Nat.mul_le_mul_right s hx

namespace Video

variable {mode : VideoMode} {font8x16 : UInt8 → Nat → UInt8} {v : Video}

theorem glyph_on (font8x16 : UInt8 → Nat → UInt8) (hx : v.cursorX + v.charWidth ≤ mode.width)
    (hy : v.cursorY + v.charHeight ≤ mode.height) (c : UInt8) (fg bg : UInt32) :
    ∀ d ∈ v.glyph font8x16 c fg bg, d.On mode := by
  intro d hd
  obtain ⟨y, hy', hd⟩ := List.mem_flatMap.mp hd
  obtain ⟨x, hx', hd⟩ := List.mem_flatMap.mp hd
  obtain ⟨sy, hsy, hd⟩ := List.mem_flatMap.mp hd
  obtain ⟨sx, hsx, rfl⟩ := List.mem_map.mp hd
  rw [List.mem_range] at hx' hy' hsx hsy
  have hx'' := scaled_lt hx' hsx
  have hy'' := scaled_lt hy' hsy
  unfold charWidth at hx
  unfold charHeight at hy
  exact ⟨by omega, by omega⟩

theorem charWidth_pos (v : Video) : 0 < v.charWidth :=
  Nat.mul_pos (by decide) v.scale.1

theorem charHeight_pos (v : Video) : 0 < v.charHeight :=
  Nat.mul_pos (by decide) v.scale.1

theorem charWidth_le (v : Video) (mode : VideoMode) : v.charWidth ≤ mode.width :=
  Nat.le_trans (Nat.mul_le_mul_left fontWidth v.scale.2) mode.wide

theorem charHeight_le (v : Video) (mode : VideoMode) : v.charHeight ≤ mode.height :=
  Nat.le_trans (Nat.mul_le_mul_left fontHeight v.scale.2) mode.high

/-- All is well up to the column of the cursor. -/
structure RowFits (mode : VideoMode) (v : Video) : Prop where
  width : v.charWidth ∣ mode.width
  height : v.charHeight ∣ mode.height
  row : v.charHeight ∣ v.cursorY
  low : v.cursorY < mode.height
  drawn : ∀ d ∈ v.drawn, d.On mode

/-- The cursor is on the grid and on the screen, and so is everything drawn. -/
structure Fits (mode : VideoMode) (v : Video) : Prop extends RowFits mode v where
  column : v.charWidth ∣ v.cursorX
  left : v.cursorX < mode.width

theorem RowFits.room (h : RowFits mode v) : v.cursorY + v.charHeight ≤ mode.height :=
  add_le_of_dvd h.row h.height h.low

theorem Fits.roomX (h : Fits mode v) : v.cursorX + v.charWidth ≤ mode.width :=
  add_le_of_dvd h.column h.width h.left

theorem RowFits.drawn_append (h : RowFits mode v) {ds : List Drawing} (hds : ∀ d ∈ ds, d.On mode) :
    ∀ d ∈ v.drawn ++ ds, d.On mode := by
  intro d hd
  rcases List.mem_append.mp hd with hd | hd
  · exact h.drawn d hd
  · exact hds d hd

theorem scrollUp_on (v : Video) :
    ∀ d ∈ Drawing.moveUp v.charHeight ::
      blankRows 0 (mode.height - v.charHeight) mode.width v.charHeight, d.On mode := by
  have hle := v.charHeight_le mode
  intro d hd
  rcases List.mem_cons.mp hd with rfl | hd
  · exact trivial
  · exact blankRows_on (by omega) (by omega) d hd

/-! ### What the calls keep -/

theorem RowFits.newLine (h : RowFits mode v) : Fits mode (v.newLine mode) := by
  have hpos := v.charHeight_pos
  have hwide := mode.wide
  have hle := v.charHeight_le mode
  unfold Video.newLine
  split
  · rename_i hlow
    exact ⟨⟨h.width, h.height, Nat.dvd_add h.row (Nat.dvd_refl _), hlow, h.drawn⟩, Nat.dvd_zero _,
      by dsimp only; omega⟩
  -- no line below this one: the screen moves up and the cursor stays in the last line
  · refine ⟨⟨h.width, h.height, ?_, ?_, h.drawn_append v.scrollUp_on⟩, Nat.dvd_zero _, ?_⟩
    · exact Nat.dvd_sub h.height (Nat.dvd_refl _)
    · dsimp only
      omega
    · dsimp only
      omega

theorem RowFits.advance (h : RowFits mode v) {x : Nat} (hx : v.charWidth ∣ x) :
    Fits mode (v.advance mode x) := by
  unfold Video.advance
  split
  · exact RowFits.newLine ⟨h.width, h.height, h.row, h.low, h.drawn⟩
  · rename_i hleft
    exact ⟨⟨h.width, h.height, h.row, h.low, h.drawn⟩, hx, by dsimp only; omega⟩

theorem Fits.tab (h : Fits mode v) : Fits mode (v.tab mode) :=
  h.toRowFits.advance (Nat.dvd_mul_left_of_dvd (Nat.dvd_mul_right _ _) _)

theorem Fits.backSpace (h : Fits mode v) : Fits mode (v.backSpace mode) := by
  have hroom := h.roomX
  have hrow := h.room
  have hpos := v.charWidth_pos
  have hle := v.charWidth_le mode
  unfold Video.backSpace
  split
  -- not in the first column
  · refine ⟨⟨h.width, h.height, h.row, h.low, h.drawn_append ?_⟩, ?_, ?_⟩
    · exact blankColumns_on (by omega) hrow
    · exact Nat.dvd_sub h.column (Nat.dvd_refl _)
    · dsimp only
      have hleft := h.left
      omega
  · split
    · -- back to the end of the line above
      have hlow := h.low
      refine ⟨⟨h.width, h.height, ?_, ?_, h.drawn_append ?_⟩, ?_, ?_⟩
      · exact Nat.dvd_sub h.row (Nat.dvd_refl _)
      · dsimp only
        omega
      · exact blankColumns_on (by omega) (by omega)
      · exact Nat.dvd_sub h.width (Nat.dvd_refl _)
      · dsimp only
        omega
    · exact h

theorem Fits.putChar (h : Fits mode v) (c : UInt8) (fg bg : UInt32) :
    Fits mode (v.putChar mode font8x16 c fg bg) := by
  unfold Video.putChar
  split
  · exact h.newLine
  · split
    · exact h.backSpace
    · split
      · exact h.tab
      -- a character that is drawn; the cursor may reach the right edge, hence `RowFits`
      · have hdrawn := h.drawn_append (glyph_on font8x16 h.roomX h.room c fg bg)
        have hrow : RowFits mode (v.draw (v.glyph font8x16 c fg bg)) :=
          ⟨h.width, h.height, h.row, h.low, hdrawn⟩
        exact hrow.advance (Nat.dvd_add h.column (Nat.dvd_refl _))

theorem Fits.clearScreen (h : Fits mode v) : Fits mode (v.clearScreen mode) := by
  have hwide := mode.wide
  have hhigh := mode.high
  refine ⟨⟨h.width, h.height, Nat.dvd_zero _, ?_, h.drawn_append ?_⟩, Nat.dvd_zero _, ?_⟩
  · show 0 < mode.height
    omega
  · exact blankRows_on (by omega) (by omega)
  · show 0 < mode.width
    omega

/-- A scale whose grid the cursor is on. -/
theorem Fits.setFontScale (h : Fits mode v) {scale : Nat} (hs : 1 ≤ scale ∧ scale ≤ 5)
    (hgrid : v.OnGrid mode scale) : Fits mode (v.setFontScale mode scale hs) := by
  have hleft := h.left
  have hlow := h.low
  unfold Video.setFontScale
  dsimp only
  -- the driver corrects a cursor off the screen, and this one is on it
  rw [if_neg (Nat.not_le.mpr hleft)]
  dsimp only
  rw [if_neg (Nat.not_le.mpr hlow)]
  exact ⟨⟨hgrid.1.1, hgrid.1.2, hgrid.2.2, hlow, h.drawn⟩, hgrid.2.1, hleft⟩

theorem Fits.syscallSetFontScale (h : Fits mode v) {scale : Int32}
    (hgrid : 1 ≤ scale.toInt.toNat ∧ scale.toInt.toNat ≤ 5 → v.OnGrid mode scale.toInt.toNat) :
    Fits mode (v.syscallSetFontScale mode scale) := by
  unfold Video.syscallSetFontScale
  split
  · rename_i hs
    exact h.setFontScale hs (hgrid hs)
  · exact h

end Video

/-- Every accepted scale has a grid that tiles the screen and has the cursor on it. -/
def VideoOp.Aligned (mode : VideoMode) (v : Video) : VideoOp → Prop
  | .setFontScale scale =>
      1 ≤ scale.toInt.toNat ∧ scale.toInt.toNat ≤ 5 → v.OnGrid mode scale.toInt.toNat
  | _ => True

instance (mode : VideoMode) (v : Video) : DecidablePred (VideoOp.Aligned mode v) := fun op => by
  induction op using VideoOp.casesOn <;> dsimp only [VideoOp.Aligned] <;> infer_instance

theorem Video.Fits.exec {mode : VideoMode} {font8x16 : UInt8 → Nat → UInt8} {v : Video}
    (h : v.Fits mode) {op : VideoOp} (hop : op.Aligned mode v) :
    (v.exec mode font8x16 op).Fits mode := by
  cases op with
  | putChar c fg bg => exact h.putChar c fg bg
  | setFontScale scale => exact h.syscallSetFontScale hop
  | clearScreen => exact h.clearScreen
  | newLine => exact h.newLine

theorem Video.start_fits {mode : VideoMode} (hw : fontWidth ∣ mode.width)
    (hh : fontHeight ∣ mode.height) : Video.start.Fits mode := by
  have hwide := mode.wide
  have hhigh := mode.high
  refine ⟨⟨hw, hh, Nat.dvd_zero _, ?_, fun d hd => absurd hd List.not_mem_nil⟩, Nat.dvd_zero _, ?_⟩
  · show 0 < mode.height
    omega
  · show 0 < mode.width
    omega

/-- **Everything stays on the screen**, if the characters of every size used tile it:
after every sequence of calls all pixels drawn are on the screen, and so is the cursor.
The condition is sufficient and not necessary: on 1024x768 it leaves out the scales 3
and 5. -/
theorem screen_contains {mode : VideoMode} {font8x16 : UInt8 → Nat → UInt8}
    (hw : fontWidth ∣ mode.width) (hh : fontHeight ∣ mode.height) {v : Video}
    (h : ((videoMachine mode font8x16).restrict fun v op => op.Aligned mode v).Reach
      Video.start v) :
    (∀ color x y, Drawing.pixel color x y ∈ v.drawn → x < mode.width ∧ y < mode.height) ∧
      v.cursorX < mode.width ∧ v.cursorY < mode.height := by
  have hfits : v.Fits mode := by
    refine h.invariant (I := fun v => v.Fits mode) (Video.start_fits hw hh) ?_
    rintro v op v' hv ⟨-, hop⟩ ⟨⟩
    exact hv.exec hop
  exact ⟨fun color x y hd => hfits.drawn _ hd, hfits.left, hfits.low⟩

/-- On a screen of 1024 by 768 pixels: two characters, two more of twice the size of
which the second is taken back, a tab, a new line, and one of four times the size. -/
theorem screen_contains_sizes : ∃ v : Video, v.cursorX = 32 ∧ v.cursorY = 64 ∧
    v.drawn.length = 3840 ∧
    ∀ color x y, Drawing.pixel color x y ∈ v.drawn → x < 1024 ∧ y < 768 := by
  obtain ⟨v, hreach, hx, hy, hn⟩ := Machine.exists_reach_of_trace
    (T := (videoMachine ⟨1024, 768, by decide, by decide⟩ fun _ _ => 0).restrict
      fun v op => op.Aligned ⟨1024, 768, by decide, by decide⟩ v) (s := Video.start)
    [.putChar 97 1 0, .putChar 98 1 0, .setFontScale 2, .putChar 99 1 0, .putChar 100 1 0,
      .putChar 8 1 0, .putChar 9 1 0, .putChar 10 1 0, .newLine, .setFontScale 4, .putChar 101 1 0]
    (P := fun v => v.cursorX = 32 ∧ v.cursorY = 64 ∧ v.drawn.length = 3840) (by decide +kernel)
  exact ⟨v, hx, hy, hn, (screen_contains (by decide) (by decide) hreach).1⟩

/-- **Off the screen**: on a screen of 1024 by 768 pixels, fifteen tabs bring the cursor
to column 960, where five times the size is set; the second character begins in column
1000 and is 40 pixels wide. -/
theorem character_leaves_screen : ∃ v : Video,
    (videoMachine ⟨1024, 768, by decide, by decide⟩ fun _ _ => 0).Reach Video.start v ∧
    ∃ d ∈ v.drawn, ¬ d.On ⟨1024, 768, by decide, by decide⟩ :=
  Machine.exists_reach_of_trace (T := videoMachine ⟨1024, 768, by decide, by decide⟩ fun _ _ => 0)
    (s := Video.start)
    (List.replicate 15 (.putChar 9 1 0) ++ [.setFontScale 5, .putChar 97 1 0, .putChar 97 1 0])
    (P := fun v => ∃ d ∈ v.drawn, ¬ d.On ⟨1024, 768, by decide, by decide⟩) (by decide +kernel)

end TP2Kernel
