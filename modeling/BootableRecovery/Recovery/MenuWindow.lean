import Mathlib.Logic.Relation
import BootableRecovery.Lib.CString

/-!
# `ui.c`: the window of a menu

A menu is stored in the rows of an array, the headers in front of the items, and a part
of the items is shown below the headers. The array is flat: what is written to a row
with more than 64 bytes goes on in the next one.

Main results:
* `Window.ui_menu_select`: moving the selection by one keeps it in the menu and the
  window around it.
* `menu_safe_iff`: the window is right in every state that is reached, and only rows of
  the array are written, if and only if the initial selection is among the items that
  fit, and so is the back button.
-/

namespace BootableRecovery.Recovery

def MENU_MAX_COLS : Nat := 64

def MENU_MAX_ROWS : Nat := 250

def MIN_LOG_ROWS : Nat := 3

def MAX_COLS : Nat := 96

/-! ## The screen -/

/-- The size of the screen in characters, and `MAX_ROWS`, which boards can define. -/
structure Screen where
  fb_rows : Nat
  fb_cols : Nat
  MAX_ROWS : Nat
  cols_pos : 0 < fb_cols
  rows_pos : 0 < MAX_ROWS

namespace Screen

variable (scr : Screen)

/-! The sizes that `ui_init` computes. -/

def text_rows : Nat := min scr.fb_rows scr.MAX_ROWS

def text_cols : Nat := min scr.fb_cols (MAX_COLS - 1)

def max_menu_rows : Int := min ((scr.fb_rows : Int) - MIN_LOG_ROWS) MENU_MAX_ROWS

end Screen

/-! ## The code -/

/-- Bytes that are written to the array of rows, from an offset on. -/
structure RowWrite where
  offset : Nat
  bytes : Bytes

/-- `strncpy`: at most `n` bytes of the string, filled up with zeros. -/
def strncpy (n : Nat) (s : Bytes) : Bytes := s.take n ++ List.replicate (n - s.length) 0

/-- The statements on `menu[i]` for a header. -/
def headerRow (text_cols i : Nat) (header : Bytes) : List RowWrite :=
  [⟨MENU_MAX_COLS * i, strncpy (text_cols - 1) header⟩,
    ⟨MENU_MAX_COLS * i + (text_cols - 1), [0]⟩]

def MENU_ITEM_HEADER : Bytes := ascii " - "

/-- The statements on `menu[i]` for an item. -/
def itemRow (i : Nat) (item : Bytes) : List RowWrite :=
  [⟨MENU_MAX_COLS * i, MENU_ITEM_HEADER ++ [0]⟩,
    ⟨MENU_MAX_COLS * i + MENU_ITEM_HEADER.length,
      strncpy (MENU_MAX_COLS - 1 - MENU_ITEM_HEADER.length) item⟩,
    ⟨MENU_MAX_COLS * i + (MENU_MAX_COLS - 1), [0]⟩]

def backRow (i : Nat) : List RowWrite :=
  [⟨MENU_MAX_COLS * i, ascii " - +++++Go Back+++++" ++ [0]⟩]

/-- The loop over the headers: the row behind them. -/
def headerLoop (scr : Screen) : Nat → List Bytes → Nat × List RowWrite
  | i, [] => (i, [])
  | i, header :: headers =>
    if i < scr.text_rows then
      let (i', ws) := headerLoop scr (i + 1) headers
      (i', headerRow scr.text_cols i header ++ ws)
    else (i, [])

/-- The loop over the items: the row behind them. -/
def itemLoop : Nat → List Bytes → Nat × List RowWrite
  | i, [] => (i, [])
  | i, item :: items =>
    if i < MENU_MAX_ROWS then
      let (i', ws) := itemLoop (i + 1) items
      (i', itemRow i item ++ ws)
    else (i, [])

/-- The variables of the menu. -/
structure MenuState where
  show_menu : Bool
  menu_top : Int
  menu_items : Int
  menu_sel : Int
  menu_show_start : Int
  deriving DecidableEq, Repr

/-- No menu was started. -/
def MenuState.initial : MenuState := ⟨false, 0, 0, 0, 0⟩

/-- `ui_start_menu`: the state, and what is written. `back` tells that the back button is
shown and the menu is not the root menu. -/
def ui_start_menu (scr : Screen) (back : Bool) (headers items : List Bytes)
    (initial_selection : Int) (s : MenuState) : MenuState × List RowWrite :=
  if 0 < scr.text_rows ∧ 0 < scr.text_cols then
    let (menu_top, ws) := headerLoop scr 0 headers
    let (i, ws') := itemLoop menu_top items
    let (i, ws'') := if back then (i + 1, backRow i) else (i, [])
    ({ show_menu := true, menu_top, menu_items := (i : Int) - menu_top
       menu_sel := initial_selection, menu_show_start := initial_selection },
      ws ++ ws' ++ ws'')
  else (s, [])

/-- `ui_menu_select`. -/
def ui_menu_select (scr : Screen) (sel : Int) (s : MenuState) : MenuState :=
  if s.show_menu then
    let menu_sel := if sel < 0 then s.menu_items + sel else sel
    let menu_sel := if s.menu_items ≤ menu_sel then menu_sel - s.menu_items else menu_sel
    let menu_show_start :=
      if menu_sel < s.menu_show_start ∧ 0 < s.menu_show_start then menu_sel else s.menu_show_start
    let menu_show_start :=
      if scr.max_menu_rows ≤ menu_sel - menu_show_start + s.menu_top then
        menu_sel + s.menu_top - scr.max_menu_rows + 1
      else menu_show_start
    { s with menu_sel, menu_show_start }
  else s

/-- The selection is moved by one, up or down. -/
inductive Moved (scr : Screen) (s : MenuState) : MenuState → Prop where
  | up : Moved scr s (ui_menu_select scr (s.menu_sel - 1) s)
  | down : Moved scr s (ui_menu_select scr (s.menu_sel + 1) s)

/-! ## The window -/

/-- The selection is an item, and it is in the window. -/
structure Window (scr : Screen) (s : MenuState) : Prop where
  sel_nonneg : 0 ≤ s.menu_sel
  sel_lt : s.menu_sel < s.menu_items
  start_le : s.menu_show_start ≤ s.menu_sel
  row_lt : s.menu_sel - s.menu_show_start + s.menu_top < scr.max_menu_rows

/-- The window does not start in front of the items, and there is room for an item below
the headers. -/
structure Placed (scr : Screen) (s : MenuState) : Prop extends Window scr s where
  start_nonneg : 0 ≤ s.menu_show_start
  top_lt : s.menu_top < scr.max_menu_rows

/-- A selection that is out of the menu by at most one comes in at the other end. -/
theorem Placed.ui_menu_select {scr : Screen} {s : MenuState} (h : Placed scr s) {sel : Int}
    (hlow : -1 ≤ sel) (hhigh : sel ≤ s.menu_items) :
    Placed scr (Recovery.ui_menu_select scr sel s) := by
  obtain ⟨⟨hsel, hlt, hstart, hrow⟩, hnonneg, htop⟩ := h
  unfold Recovery.ui_menu_select
  split
  · simp only
    have hwrapped : ∀ low m : Int, low = (if sel < 0 then s.menu_items + sel else sel) →
        m = (if s.menu_items ≤ low then low - s.menu_items else low) →
        0 ≤ m ∧ m < s.menu_items := by
      rintro low m rfl rfl
      split_ifs <;> omega
    have hm := hwrapped _ _ rfl rfl
    generalize (if s.menu_items ≤ (if sel < 0 then s.menu_items + sel else sel) then _ else _) = m
      at hm ⊢
    have hscrolled : ∀ start : Int,
        start = (if m < s.menu_show_start ∧ 0 < s.menu_show_start then m else s.menu_show_start) →
        0 ≤ start ∧ start ≤ m := by
      rintro start rfl
      split_ifs <;> omega
    have hstart' := hscrolled _ rfl
    generalize (if m < s.menu_show_start ∧ 0 < s.menu_show_start then m else _) = start at hstart' ⊢
    refine ⟨⟨hm.1, hm.2, ?_, ?_⟩, ?_, htop⟩
    · split_ifs <;> simp only <;> omega
    · split_ifs <;> simp only <;> omega
    · split_ifs <;> simp only <;> omega
  · exact ⟨⟨hsel, hlt, hstart, hrow⟩, hnonneg, htop⟩

/-- One step of the selection. -/
theorem Placed.moved {scr : Screen} {s s' : MenuState} (h : Placed scr s) (hm : Moved scr s s') :
    Placed scr s' := by
  have hsel := h.sel_nonneg
  have hlt := h.sel_lt
  cases hm with
  | up => exact h.ui_menu_select (by omega) (by omega)
  | down => exact h.ui_menu_select (by omega) (by omega)

/-- Any number of steps. -/
theorem Placed.run {scr : Screen} {s s' : MenuState} (h : Placed scr s)
    (hrun : Relation.ReflTransGen (Moved scr) s s') : Placed scr s' := by
  induction hrun with
  | refl => exact h
  | tail _ hm ih => exact ih.moved hm

/-! ## The rows -/

/-- All the bytes of a write stand in the array. -/
def InRows (w : RowWrite) : Prop :=
  ∀ k < w.bytes.length, (w.offset + k) / MENU_MAX_COLS < MENU_MAX_ROWS

theorem inRows_of_le {w : RowWrite}
    (h : w.offset + w.bytes.length ≤ MENU_MAX_COLS * MENU_MAX_ROWS) : InRows w := by
  intro k hk
  exact Nat.div_lt_of_lt_mul (by omega)

theorem strncpy_length (n : Nat) (s : Bytes) : (strncpy n s).length = n := by
  simp only [strncpy, List.length_append, List.length_take, List.length_replicate]
  omega

/-- A header takes at most 95 bytes. -/
theorem headerRow_le {text_cols : Nat} (h : text_cols ≤ 95) (i : Nat) (header : Bytes) :
    ∀ w ∈ headerRow text_cols i header,
      w.offset + w.bytes.length ≤ MENU_MAX_COLS * (i + 1 + 1) := by
  have hcols : MENU_MAX_COLS = 64 := rfl
  intro w hw
  simp only [headerRow, List.mem_cons, List.not_mem_nil, or_false] at hw
  rw [hcols] at *
  rcases hw with rfl | rfl
  · simp only [strncpy_length]
    omega
  · simp only [List.length_singleton]
    omega

theorem itemRow_le (i : Nat) (item : Bytes) :
    ∀ w ∈ itemRow i item, w.offset + w.bytes.length ≤ MENU_MAX_COLS * (i + 1) := by
  have hcols : MENU_MAX_COLS = 64 := rfl
  have hheader : MENU_ITEM_HEADER.length = 3 := by decide
  intro w hw
  simp only [itemRow, hheader, List.mem_cons, List.not_mem_nil, or_false] at hw
  rw [hcols] at *
  rcases hw with rfl | rfl | rfl
  · simp only [List.length_append, hheader, List.length_singleton]
    omega
  · simp only [strncpy_length]
    omega
  · simp only [List.length_singleton]
    omega

/-- The headers end at the first row that has none, or at the last row of text. A header
goes on into the row behind it. -/
theorem headerLoop_spec (scr : Screen) (headers : List Bytes) : ∀ {i : Nat}, i ≤ scr.text_rows →
    (headerLoop scr i headers).1 = min (i + headers.length) scr.text_rows ∧
      ∀ w ∈ (headerLoop scr i headers).2,
        w.offset + w.bytes.length ≤ MENU_MAX_COLS * ((headerLoop scr i headers).1 + 1) := by
  have hwidth : scr.text_cols ≤ 95 := Nat.min_le_right _ _
  induction headers with
  | nil =>
    intro i hi
    exact ⟨(Nat.min_eq_left hi).symm, fun w hw => absurd hw List.not_mem_nil⟩
  | cons header headers ih =>
    intro i hi
    rw [headerLoop]
    split
    · rename_i hlt
      obtain ⟨hrow, hws⟩ := ih (i := i + 1) hlt
      refine ⟨by simp only [hrow, List.length_cons]; omega, fun w hw => ?_⟩
      rcases List.mem_append.mp hw with hw | hw
      · have hle : i + 1 ≤ (headerLoop scr (i + 1) headers).1 := by
          rw [hrow]
          omega
        exact (headerRow_le hwidth i header w hw).trans (Nat.mul_le_mul_left _ (by simpa))
      · exact hws w hw
    · rename_i hge
      refine ⟨?_, fun w hw => absurd hw List.not_mem_nil⟩
      simp only [List.length_cons]
      omega

/-- The items end at the first row that has none, or at the end of the array. -/
theorem itemLoop_spec (items : List Bytes) : ∀ {i : Nat}, i ≤ MENU_MAX_ROWS →
    (itemLoop i items).1 = min (i + items.length) MENU_MAX_ROWS ∧
      ∀ w ∈ (itemLoop i items).2,
        w.offset + w.bytes.length ≤ MENU_MAX_COLS * (itemLoop i items).1 := by
  induction items with
  | nil =>
    intro i hi
    exact ⟨(Nat.min_eq_left hi).symm, fun w hw => absurd hw List.not_mem_nil⟩
  | cons item items ih =>
    intro i hi
    rw [itemLoop]
    split
    · rename_i hlt
      obtain ⟨hrow, hws⟩ := ih (i := i + 1) hlt
      refine ⟨by simp only [hrow, List.length_cons]; omega, fun w hw => ?_⟩
      rcases List.mem_append.mp hw with hw | hw
      · have hle : i + 1 ≤ (itemLoop (i + 1) items).1 := by
          rw [hrow]
          omega
        exact (itemRow_le i item w hw).trans (Nat.mul_le_mul_left _ hle)
      · exact hws w hw
    · rename_i hge
      refine ⟨?_, fun w hw => absurd hw List.not_mem_nil⟩
      simp only [List.length_cons]
      omega

/-! ## Menus -/

/-- A menu that is started: its headers fit above the log rows, and its initial selection
is an item. -/
structure Menu where
  scr : Screen
  back : Bool
  headers : List Bytes
  items : List Bytes
  initial_selection : Fin items.length
  headers_lt : (headers.length : Int) < scr.max_menu_rows

namespace Menu

variable (m : Menu)

/-- The state and the writes of `ui_start_menu`. -/
def start : MenuState × List RowWrite :=
  ui_start_menu m.scr m.back m.headers m.items (m.initial_selection : Nat) .initial

/-- The row of the first item. -/
def top : Nat := min m.headers.length m.scr.text_rows

theorem top_lt : (m.top : Int) < m.scr.max_menu_rows := by
  have hheaders := m.headers_lt
  unfold top
  omega

theorem top_lt_rows : m.top < MENU_MAX_ROWS := by
  have hmax : m.scr.max_menu_rows ≤ MENU_MAX_ROWS := min_le_right _ _
  have htop := m.top_lt
  omega

/-- The row behind the items. -/
def rows : Nat := min (m.top + m.items.length) MENU_MAX_ROWS

theorem text_pos : 0 < m.scr.text_rows ∧ 0 < m.scr.text_cols := by
  have hheaders := m.headers_lt
  have hmax : m.scr.max_menu_rows ≤ (m.scr.fb_rows : Int) - MIN_LOG_ROWS := min_le_left _ _
  have hrows := m.scr.rows_pos
  have hcols := m.scr.cols_pos
  have hlog : MIN_LOG_ROWS = 3 := rfl
  have hmaxCols : MAX_COLS = 96 := rfl
  exact ⟨lt_min (by omega) hrows, lt_min hcols (by omega)⟩

theorem headerLoop_top : (headerLoop m.scr 0 m.headers).1 = m.top := by
  rw [(headerLoop_spec m.scr m.headers (Nat.zero_le _)).1, Nat.zero_add, top]

theorem itemLoop_rows : (itemLoop m.top m.items).1 = m.rows :=
  (itemLoop_spec m.items m.top_lt_rows.le).1

/-- What `ui_start_menu` sets and writes. -/
theorem start_eq : m.start =
    ({ show_menu := true, menu_top := m.top
       menu_items := ((if m.back then m.rows + 1 else m.rows : Nat) : Int) - m.top
       menu_sel := (m.initial_selection : Nat), menu_show_start := (m.initial_selection : Nat) },
      (headerLoop m.scr 0 m.headers).2 ++ (itemLoop m.top m.items).2 ++
        if m.back then backRow m.rows else []) := by
  rw [start, ui_start_menu, if_pos m.text_pos]
  simp only [headerLoop_top, itemLoop_rows]
  cases m.back with
  | true => rfl
  | false => rfl

/-- The rows of the headers and of the items are rows of the array. -/
theorem inRows_start {w : RowWrite}
    (hw : w ∈ (headerLoop m.scr 0 m.headers).2 ++ (itemLoop m.top m.items).2) : InRows w := by
  have htop := m.top_lt_rows
  rcases List.mem_append.mp hw with hw | hw
  · have hle := (headerLoop_spec m.scr m.headers (Nat.zero_le _)).2 w hw
    rw [headerLoop_top] at hle
    exact inRows_of_le (hle.trans (Nat.mul_le_mul_left _ htop))
  · have hle := (itemLoop_spec m.items htop.le).2 w hw
    rw [itemLoop_rows] at hle
    exact inRows_of_le (hle.trans (Nat.mul_le_mul_left _ (Nat.min_le_right _ _)))

theorem inRows_backRow_iff (i : Nat) : (∀ w ∈ backRow i, InRows w) ↔ i < MENU_MAX_ROWS := by
  have hcols : MENU_MAX_COLS = 64 := rfl
  have hlen : (ascii " - +++++Go Back+++++" ++ [0]).length = 21 := by decide
  rw [backRow, List.forall_mem_singleton]
  constructor
  · intro h
    have hrow := h 0 (by rw [hlen]; omega)
    rwa [Nat.add_zero, hcols, Nat.mul_div_cancel_left i (by omega)] at hrow
  · intro h
    have hend : MENU_MAX_COLS * i + 21 ≤ MENU_MAX_COLS * MENU_MAX_ROWS := by
      rw [hcols]
      omega
    exact inRows_of_le (hlen.symm ▸ hend)

/-- The window is right in every state that is reached by moving the selection, and only
rows of the array are written. -/
def Safe : Prop :=
  (∀ s, Relation.ReflTransGen (Moved m.scr) m.start.1 s → Window m.scr s) ∧
    ∀ w ∈ m.start.2, InRows w

/-- A menu is safe if and only if there is a row for the back button behind its items, or
without a back button one for the item of the initial selection. -/
theorem menu_safe_iff : m.Safe ↔
    (m.back = true → m.top + m.items.length < MENU_MAX_ROWS) ∧
      (m.back = false → m.top + m.initial_selection < MENU_MAX_ROWS) := by
  have htop := m.top_lt_rows
  have hsel := m.initial_selection.isLt
  unfold Safe
  rw [start_eq]
  constructor
  · rintro ⟨hwindow, hrows⟩
    have hlt := (hwindow _ .refl).sel_lt
    refine ⟨fun hback => ?_, fun hback => ?_⟩
    · simp only [hback, if_true] at hrows
      have hrow := (inRows_backRow_iff m.rows).mp fun w hw =>
        hrows w (List.mem_append_right _ hw)
      unfold rows at hrow
      omega
    · simp only [hback] at hlt
      unfold rows at hlt
      norm_num at hlt
      omega
  · rintro ⟨hback, hnoback⟩
    refine ⟨fun s hrun => ?_, fun w hw => ?_⟩
    · refine (Placed.run ⟨⟨by simp, ?_, le_rfl, ?_⟩, by simp, m.top_lt⟩ hrun).toWindow
      · simp only
        cases hb : m.back with
        | true =>
          have hfit := hback hb
          simp only [if_true, rows]
          omega
        | false =>
          have hfit := hnoback hb
          norm_num [rows]
          omega
      · simpa using m.top_lt
    · rcases List.mem_append.mp hw with hw | hw
      · exact m.inRows_start hw
      · cases hb : m.back with
        | true =>
          rw [hb] at hw
          refine (inRows_backRow_iff m.rows).mpr ?_ w hw
          have hfit := hback hb
          unfold rows
          omega
        | false =>
          rw [hb] at hw
          exact absurd hw List.not_mem_nil

/-- A directory with 249 files, below one header and with the back button. -/
def longList : Menu where
  scr := ⟨300, 60, 30, by decide, by decide⟩
  back := true
  headers := [ascii "Choose"]
  items := List.replicate 249 (ascii "a")
  initial_selection := ⟨0, by rw [List.length_replicate]; decide⟩
  headers_lt := by decide

/-- The back button is written to the row behind the array. -/
theorem menu_safe_long_list : ¬ longList.Safe := by
  rintro ⟨-, hrows⟩
  rw [start_eq] at hrows
  have hrow := (inRows_backRow_iff longList.rows).mp fun w hw =>
    hrows w (List.mem_append_right _ hw)
  have htop : longList.top = 1 := rfl
  have hitems : longList.items.length = 249 := List.length_replicate
  rw [rows, htop, hitems] at hrow
  exact absurd hrow (by decide)

end Menu

end BootableRecovery.Recovery
