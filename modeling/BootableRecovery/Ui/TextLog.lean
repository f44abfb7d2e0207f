import BootableRecovery.Lib.CString

/-!
# `ui.c`: the text of `ui_print`

The text is kept in an array of rows that is used as a ring: `text_top` is the row that is
drawn first. A row that comes into use again has its old bytes until it is terminated.

Main results:
* `screen_refines`: what is drawn is a screen that scrolls, whatever is printed and deleted,
  and no byte is written outside the array.
* `prints_show_tail`: after prints only, these are the last lines of everything printed.
* `progress_in_place`: `nandroid_callback` reports any number of files on one line.
-/

namespace BootableRecovery.Ui

/-! ## The array -/

def MAX_COLS : Nat := 96

def PATH_MAX : Nat := 4096

def newline : UInt8 := 10

/-- The static variables. A row of `text` has `MAX_COLS` bytes. -/
structure TextLog where
  text : Nat → Bytes
  text_cols : Nat
  text_rows : Nat
  text_col : Nat
  text_row : Nat
  text_top : Nat

/-- The frame buffer and a character of the font, in pixels -/
structure Display where
  fb_width : Nat
  fb_height : Nat
  CHAR_WIDTH : Nat
  CHAR_HEIGHT : Nat

section Source

variable (MAX_ROWS : Nat)

def ui_init (fb : Display) : TextLog where
  text _ := List.replicate MAX_COLS 0
  text_cols := min (fb.fb_width / fb.CHAR_WIDTH) (MAX_COLS - 1)
  text_rows := min (fb.fb_height / fb.CHAR_HEIGHT) MAX_ROWS
  text_col := 0
  text_row := 0
  text_top := 1

namespace TextLog

/-- The row of the cursor has other bytes. -/
def setRow (t : TextLog) (row : Bytes) : TextLog :=
  { t with text := Function.update t.text t.text_row row }

/-- `text[text_row][col] = c` -/
def poke (t : TextLog) (col : Nat) (c : UInt8) : Outcome TextLog :=
  if t.text_row < MAX_ROWS ∧ col < MAX_COLS then .done (t.setRow ((t.text t.text_row).set col c))
  else .fault

/-- The next row is used. -/
def advance (t : TextLog) : TextLog :=
  let text_row := (t.text_row + 1) % t.text_rows
  { t with
    text_col := 0
    text_row := text_row
    text_top := if text_row = t.text_top then (t.text_top + 1) % t.text_rows else t.text_top }

/-- A turn of the loop in `ui_print` -/
def putChar (t : TextLog) (c : UInt8) : Outcome TextLog := do
  let t ← (if c = newline ∨ t.text_cols ≤ t.text_col then advance <$> t.poke MAX_ROWS t.text_col 0
    else .done t)
  if c = newline then .done t
  else do
    let t ← t.poke MAX_ROWS t.text_col c
    .done { t with text_col := t.text_col + 1 }

/-- `ui_print` of what `fmt` and its arguments make; `buf` has room for 255 bytes. `niced` says
that the last update is not long ago and `ui_nice` is set. -/
def ui_print (t : TextLog) (str : Bytes) (niced : Bool) : Outcome TextLog :=
  if niced ∨ t.text_rows = 0 ∨ t.text_cols = 0 then .done t
  else do
    let t ← ((cstr str).take 255).foldlM (putChar MAX_ROWS) t
    t.poke MAX_ROWS t.text_col 0

theorem ui_print_niced (t : TextLog) (str : Bytes) : t.ui_print MAX_ROWS str true = .done t :=
  if_pos (.inl rfl)

/-- `ui_delete_line`; before `ui_init` it divides by zero. -/
def ui_delete_line (t : TextLog) : Outcome TextLog :=
  if t.text_rows = 0 then .fault
  else do
    let t ← t.poke MAX_ROWS 0 0
    .done { t with text_row := (t.text_row + t.text_rows - 1) % t.text_rows, text_col := 0 }

/-- `nandroid_callback`, where `basename` makes `justfile` of the file's name -/
def nandroid_callback (t : TextLog) (justfile : Bytes) (niced : Bool) : Outcome TextLog :=
  if justfile = [] ∨ PATH_MAX ≤ justfile.length ∨ t.text_cols = 0 then .fault
  else do
    let tmp := if justfile.getLast? = some newline then justfile.dropLast else justfile
    let t ← t.ui_print MAX_ROWS (tmp.take (t.text_cols - 1) ++ [newline]) niced
    if niced then .done t else t.ui_delete_line MAX_ROWS

/-- The rows as `draw_screen_locked` draws them, when there is no menu. -/
def drawn (t : TextLog) : List Bytes :=
  (List.range t.text_rows).map fun row => cstr (t.text ((row + t.text_top) % t.text_rows))

end TextLog

/-- What other code asks of the text -/
inductive Call where
  | print (str : Bytes) (niced : Bool)
  | deleteLine

def TextLog.call (t : TextLog) : Call → Outcome TextLog
  | .print str niced => t.ui_print MAX_ROWS str niced
  | .deleteLine => t.ui_delete_line MAX_ROWS

end Source

/-! ## A screen -/

/-- The lines from the top, the line that is written, and what was written to it since the
cursor came. -/
structure Screen where
  lines : List Bytes
  row : Nat
  cur : Bytes
  deriving DecidableEq, Repr

namespace Screen

def blank (rows : Nat) : Screen := ⟨List.replicate rows [], rows - 1, []⟩

/-- The line shows what was written to it. -/
def commit (s : Screen) : Screen := { s with lines := s.lines.set s.row s.cur }

/-- The cursor goes to the next line; after the last one the screen scrolls. -/
def advance (s : Screen) : Screen :=
  if s.row + 1 < s.lines.length then ⟨s.lines, s.row + 1, []⟩
  else ⟨s.lines.tail ++ [[]], s.row, []⟩

def put (cols : Nat) (s : Screen) (c : UInt8) : Screen :=
  let s := if c = newline ∨ cols ≤ s.cur.length then s.commit.advance else s
  if c = newline then s else { s with cur := s.cur ++ [c] }

def print (cols : Nat) (s : Screen) (str : Bytes) : Screen := (str.foldl (put cols) s).commit

/-- The line is emptied, and the cursor goes up, or from the top to the bottom. -/
def deleteLine (s : Screen) : Screen :=
  ⟨s.lines.set s.row [], if s.row = 0 then s.lines.length - 1 else s.row - 1, []⟩

def call (cols : Nat) (s : Screen) : Call → Screen
  | .print str niced => if niced then s else s.print cols ((cstr str).take 255)
  | .deleteLine => s.deleteLine

end Screen

/-! ## The array shows the screen -/

/-- While a line is written: the other lines are drawn as they are on the screen, and the row
of the cursor starts with what was written to it. -/
structure Writes (MAX_ROWS cols : Nat) (t : TextLog) (s : Screen) : Prop where
  length : s.lines.length = t.text_rows
  rows : t.text_rows ≤ MAX_ROWS
  text_cols : t.text_cols = cols
  cols_pos : 0 < cols
  cols_lt : cols < MAX_COLS
  row : s.row < t.text_rows
  text_row : t.text_row = (s.row + t.text_top) % t.text_rows
  top : t.text_rows = 1 ∨ t.text_top < t.text_rows
  width : ∀ r, (t.text r).length = MAX_COLS
  col : t.text_col = s.cur.length
  cur_le : s.cur.length ≤ cols
  cur : (t.text t.text_row).take s.cur.length = s.cur
  cur_zero : 0 ∉ s.cur
  others : ∀ j < t.text_rows, j ≠ s.row →
    s.lines[j]? = some (cstr (t.text ((j + t.text_top) % t.text_rows)))

/-- Between two calls, the line of the cursor is drawn too. -/
structure Shows (MAX_ROWS cols : Nat) (t : TextLog) (s : Screen) : Prop
    extends Writes MAX_ROWS cols t s where
  line : s.lines[s.row]? = some (cstr (t.text t.text_row))

namespace TextLog

variable (t : TextLog) (row : Bytes)

@[simp] theorem setRow_text_cols : (t.setRow row).text_cols = t.text_cols := rfl

@[simp] theorem setRow_text_rows : (t.setRow row).text_rows = t.text_rows := rfl

@[simp] theorem setRow_text_col : (t.setRow row).text_col = t.text_col := rfl

@[simp] theorem setRow_text_row : (t.setRow row).text_row = t.text_row := rfl

@[simp] theorem setRow_text_top : (t.setRow row).text_top = t.text_top := rfl

@[simp] theorem setRow_self : (t.setRow row).text t.text_row = row := Function.update_self ..

theorem setRow_of_ne {r : Nat} (h : r ≠ t.text_row) : (t.setRow row).text r = t.text r :=
  Function.update_of_ne h ..

end TextLog

namespace Screen

variable {cols : Nat} {s : Screen}

theorem advance_cur (s : Screen) : s.advance.cur = [] := by
  rw [advance]
  split <;> rfl

theorem commit_length (s : Screen) : s.commit.lines.length = s.lines.length := List.length_set

theorem advance_length (h : 0 < s.lines.length) : s.advance.lines.length = s.lines.length := by
  rw [advance]
  split
  · rfl
  · rw [List.length_append, List.length_tail, List.length_singleton, Nat.sub_add_cancel h]

theorem put_length (h : 0 < s.lines.length) (c : UInt8) :
    (s.put cols c).lines.length = s.lines.length := by
  have hline : s.commit.advance.lines.length = s.lines.length :=
    (advance_length (s.commit_length ▸ h)).trans s.commit_length
  rw [put]
  split <;> split <;> first | exact hline | rfl

theorem puts_length (h : 0 < s.lines.length) (str : Bytes) :
    (str.foldl (put cols) s).lines.length = s.lines.length := by
  induction str generalizing s with
  | nil => rfl
  | cons c str ih => exact (ih (put_length h c ▸ h)).trans (put_length h c)

theorem call_length (h : 0 < s.lines.length) (c : Call) :
    (s.call cols c).lines.length = s.lines.length := by
  cases c with
  | print str niced =>
    cases niced with
    | false => exact (commit_length _).trans (puts_length h _)
    | true => rfl
  | deleteLine => exact List.length_set

theorem calls_length (h : 0 < s.lines.length) (calls : List Call) :
    (calls.foldl (call cols) s).lines.length = s.lines.length := by
  induction calls generalizing s with
  | nil => rfl
  | cons c calls ih => exact (ih (call_length h c ▸ h)).trans (call_length h c)

end Screen

theorem ring_inj {n a j k : Nat} (hj : j < n) (hk : k < n) (h : (j + a) % n = (k + a) % n) :
    j = k := by
  have hmod : j % n = k % n := Nat.ModEq.add_right_cancel' a h
  rwa [Nat.mod_eq_of_lt hj, Nat.mod_eq_of_lt hk] at hmod

theorem cstr_set_zero {b cur : Bytes} (h : b.take cur.length = cur) (hlt : cur.length < b.length)
    (hzero : 0 ∉ cur) : cstr (b.set cur.length 0) = cur := by
  rw [List.set_eq_take_append_cons_drop, if_pos hlt, h, cstr_append_zero hzero]

section Steps

variable {MAX_ROWS cols : Nat} {t : TextLog} {s : Screen}

theorem Writes.row_lt (h : Writes MAX_ROWS cols t s) : t.text_row < MAX_ROWS := by
  rw [h.text_row]
  exact (Nat.mod_lt _ (Nat.zero_lt_of_lt h.row)).trans_le h.rows

theorem Writes.col_lt (h : Writes MAX_ROWS cols t s) : s.cur.length < MAX_COLS :=
  h.cur_le.trans_lt h.cols_lt

/-- The row of the cursor is no other row that is drawn. -/
theorem Writes.other_row (h : Writes MAX_ROWS cols t s) {j : Nat} (hj : j < t.text_rows)
    (hne : j ≠ s.row) : (j + t.text_top) % t.text_rows ≠ t.text_row := by
  rw [h.text_row]
  exact fun heq => hne (ring_inj hj h.row heq)

theorem Writes.poke (h : Writes MAX_ROWS cols t s) {col : Nat} (hcol : col < MAX_COLS) (c : UInt8) :
    t.poke MAX_ROWS col c = .done (t.setRow ((t.text t.text_row).set col c)) :=
  if_pos ⟨h.row_lt, hcol⟩

/-- The row of the cursor has other bytes. -/
theorem Writes.setRow (h : Writes MAX_ROWS cols t s) (row cur : Bytes)
    (hrow : row.length = MAX_COLS) (hlen : cur.length ≤ cols) (hcur : row.take cur.length = cur)
    (hzero : 0 ∉ cur) :
    Writes MAX_ROWS cols { t.setRow row with text_col := cur.length } { s with cur := cur } where
  length := h.length
  rows := h.rows
  text_cols := h.text_cols
  cols_pos := h.cols_pos
  cols_lt := h.cols_lt
  row := h.row
  text_row := h.text_row
  top := h.top
  width r := by
    rcases eq_or_ne r t.text_row with rfl | hr
    · exact (congrArg List.length (t.setRow_self row)).trans hrow
    · exact (congrArg List.length (t.setRow_of_ne row hr)).trans (h.width r)
  col := rfl
  cur_le := hlen
  cur := (congrArg (List.take cur.length) (t.setRow_self row)).trans hcur
  cur_zero := hzero
  others j hj hne := by
    rw [h.others j hj hne]
    exact congrArg (some ∘ cstr) (t.setRow_of_ne row (h.other_row hj hne)).symm

theorem Writes.poke_cur (h : Writes MAX_ROWS cols t s) :
    t.poke MAX_ROWS t.text_col 0 = .done (t.setRow ((t.text t.text_row).set s.cur.length 0)) := by
  rw [h.col]
  exact h.poke h.col_lt 0

/-- The line is terminated. -/
theorem Writes.commit (h : Writes MAX_ROWS cols t s) :
    Shows MAX_ROWS cols (t.setRow ((t.text t.text_row).set s.cur.length 0)) s.commit := by
  have hlt : s.cur.length < (t.text t.text_row).length := (h.width _).symm ▸ h.col_lt
  have hwrites := h.setRow ((t.text t.text_row).set s.cur.length 0) s.cur
    (List.length_set.trans (h.width _)) h.cur_le
    ((List.take_set_of_le le_rfl).trans h.cur) h.cur_zero
  refine ⟨⟨?_, h.rows, h.text_cols, h.cols_pos, h.cols_lt, h.row, h.text_row, h.top,
    hwrites.width, h.col, h.cur_le, hwrites.cur, h.cur_zero, fun j hj hne => ?_⟩, ?_⟩
  · simpa [Screen.commit] using h.length
  · exact (List.getElem?_set_ne (Ne.symm hne)).trans (hwrites.others j hj hne)
  · have hrow : s.row < s.lines.length := h.length ▸ h.row
    simp [Screen.commit, hrow, cstr_set_zero h.cur hlt h.cur_zero]

theorem Shows.drawn_line (h : Shows MAX_ROWS cols t s) {j : Nat} (hj : j < t.text_rows) :
    s.lines[j]? = some (cstr (t.text ((j + t.text_top) % t.text_rows))) := by
  rcases eq_or_ne j s.row with rfl | hne
  · rw [← h.text_row]
    exact h.line
  · exact h.others j hj hne

/-- The row after the last one is the first one, and the text scrolls. -/
theorem Shows.advance (h : Shows MAX_ROWS cols t s) : Writes MAX_ROWS cols t.advance s.advance := by
  have hpos : 0 < t.text_rows := Nat.zero_lt_of_lt h.row
  have hnext : (t.text_row + 1) % t.text_rows = (s.row + 1 + t.text_top) % t.text_rows := by
    rw [h.text_row, Nat.mod_add_mod, Nat.add_right_comm]
  by_cases hlast : s.row + 1 < t.text_rows
  · have htop : t.text_top < t.text_rows := h.top.resolve_left (by omega)
    -- The next row is not the first one, so that nothing scrolls.
    have hne : (t.text_row + 1) % t.text_rows ≠ t.text_top := by
      rw [hnext]
      intro heq
      have := ring_inj hlast hpos (heq.trans (by rw [Nat.zero_add, Nat.mod_eq_of_lt htop]))
      omega
    rw [Screen.advance, if_pos (h.length.symm ▸ hlast), TextLog.advance, if_neg hne]
    exact ⟨h.length, h.rows, h.text_cols, h.cols_pos, h.cols_lt, hlast, hnext, h.top, h.width,
      rfl, Nat.zero_le _, List.take_zero, List.not_mem_nil, fun j hj _ => h.drawn_line hj⟩
  · have hrow : s.row + 1 = t.text_rows := by have := h.row; omega
    rw [Screen.advance, if_neg (by rw [h.length]; exact hlast), TextLog.advance]
    have hscroll : ∀ j, (j + if (t.text_row + 1) % t.text_rows = t.text_top then
        (t.text_top + 1) % t.text_rows else t.text_top) % t.text_rows =
        (j + 1 + t.text_top) % t.text_rows := by
      intro j
      rcases h.top with hone | htop
      · simp only [hone, Nat.mod_one]
      · have hfirst : (t.text_row + 1) % t.text_rows = t.text_top := by
          rw [hnext, hrow, Nat.add_mod_left, Nat.mod_eq_of_lt htop]
        rw [if_pos hfirst, Nat.add_mod_mod, Nat.add_assoc, Nat.add_comm 1]
    refine ⟨?_, h.rows, h.text_cols, h.cols_pos, h.cols_lt, h.row, ?_, ?_, h.width, rfl,
      Nat.zero_le _, List.take_zero, List.not_mem_nil, fun j hj hne => ?_⟩
    · have hlen := h.length
      simp only [List.length_append, List.length_tail, List.length_singleton]
      omega
    · exact hnext.trans (hscroll s.row).symm
    · rcases h.top with hone | htop
      · exact .inl hone
      · split
        · exact .inr (Nat.mod_lt _ hpos)
        · exact .inr htop
    · have hne : j ≠ s.row := hne
      have hj : j < t.text_rows := hj
      have hj : j + 1 < t.text_rows := by omega
      rw [hscroll, ← h.drawn_line hj, List.getElem?_append_left, List.getElem?_tail]
      rw [List.length_tail, h.length]
      omega

/-- A character is written behind the others. -/
theorem Writes.write (h : Writes MAX_ROWS cols t s) (hroom : s.cur.length < cols) {c : UInt8}
    (hc : c ≠ 0) :
    ∃ row, t.poke MAX_ROWS t.text_col c = .done (t.setRow row) ∧
      Writes MAX_ROWS cols { t.setRow row with text_col := t.text_col + 1 }
        { s with cur := s.cur ++ [c] } := by
  have hlt : s.cur.length < (t.text t.text_row).length := (h.width _).symm ▸ h.col_lt
  refine ⟨(t.text t.text_row).set s.cur.length c, by rw [h.col]; exact h.poke h.col_lt c, ?_⟩
  have hlen : t.text_col + 1 = (s.cur ++ [c]).length := by rw [h.col, List.length_append]; rfl
  rw [hlen]
  refine h.setRow _ _ (List.length_set.trans (h.width _)) ?_ ?_ ?_
  · rw [List.length_append]
    exact hroom
  · rw [List.length_append, List.length_singleton, List.take_add_one,
      List.take_set_of_le le_rfl, h.cur, List.getElem?_set_self hlt, Option.toList_some]
  · simpa using ⟨h.cur_zero, hc.symm⟩

/-- A turn of the loop puts a character on the screen. -/
theorem Writes.putChar (h : Writes MAX_ROWS cols t s) {c : UInt8} (hc : c ≠ 0) :
    ∃ t', t.putChar MAX_ROWS c = .done t' ∧ Writes MAX_ROWS cols t' (s.put cols c) := by
  obtain ⟨t₁, s₁, hline, hput, hwrites, hroom⟩ : ∃ t₁ s₁,
      (if c = newline ∨ t.text_cols ≤ t.text_col then
        TextLog.advance <$> t.poke MAX_ROWS t.text_col 0 else .done t) = .done t₁ ∧
      (if c = newline ∨ cols ≤ s.cur.length then s.commit.advance else s) = s₁ ∧
      Writes MAX_ROWS cols t₁ s₁ ∧ (c ≠ newline → s₁.cur.length < cols) := by
    rw [h.text_cols, h.col]
    split
    · rw [← h.col, h.poke_cur]
      refine ⟨_, _, rfl, rfl, h.commit.advance, fun _ => ?_⟩
      rw [Screen.advance_cur]
      exact h.cols_pos
    · exact ⟨t, s, rfl, rfl, h, fun hne => by omega⟩
  simp only [TextLog.putChar, Screen.put, hline, hput, Outcome.done_bind]
  split
  · exact ⟨t₁, rfl, hwrites⟩
  · obtain ⟨row, hpoke, hwrite⟩ := hwrites.write (hroom ‹_›) hc
    rw [hpoke]
    exact ⟨_, rfl, hwrite⟩

theorem Writes.putChars (h : Writes MAX_ROWS cols t s) {str : Bytes} (hstr : 0 ∉ str) :
    ∃ t', str.foldlM (TextLog.putChar MAX_ROWS) t = .done t' ∧
      Writes MAX_ROWS cols t' (str.foldl (Screen.put cols) s) := by
  induction str generalizing t s with
  | nil => exact ⟨t, rfl, h⟩
  | cons c str ih =>
    rw [List.mem_cons, not_or] at hstr
    obtain ⟨t₁, hput, hwrites⟩ := h.putChar (Ne.symm hstr.1)
    rw [List.foldlM_cons, hput]
    exact ih hwrites hstr.2

theorem Shows.rows_pos (h : Shows MAX_ROWS cols t s) : t.text_rows ≠ 0 := by
  have := h.row
  omega

theorem Shows.print (h : Shows MAX_ROWS cols t s) (str : Bytes) :
    ∃ t', t.ui_print MAX_ROWS str false = .done t' ∧
      Shows MAX_ROWS cols t' (s.print cols ((cstr str).take 255)) := by
  have hzero : 0 ∉ (cstr str).take 255 := fun hmem =>
    zero_notMem_cstr str (List.mem_of_mem_take hmem)
  have hcols : t.text_cols ≠ 0 := h.text_cols ▸ h.cols_pos.ne'
  obtain ⟨t₁, hputs, hwrites⟩ := h.putChars hzero
  rw [TextLog.ui_print, if_neg (by simp [h.rows_pos, hcols]), hputs, Outcome.done_bind,
    hwrites.poke_cur]
  exact ⟨_, rfl, hwrites.commit⟩

theorem ring_pred {row top n : Nat} (hrow : row < n) :
    ((row + top) % n + n - 1) % n = ((if row = 0 then n - 1 else row - 1) + top) % n := by
  rw [Nat.add_sub_assoc (Nat.one_le_of_lt hrow), Nat.mod_add_mod]
  split
  · congr 1
    omega
  · rw [show row + top + (n - 1) = row - 1 + top + n by omega, Nat.add_mod_right]

/-- The line before the emptied one is drawn already. -/
theorem Shows.deleteLine (h : Shows MAX_ROWS cols t s) :
    ∃ t', t.ui_delete_line MAX_ROWS = .done t' ∧ Shows MAX_ROWS cols t' s.deleteLine := by
  have hcol : 0 < MAX_COLS := by decide
  rw [TextLog.ui_delete_line, if_neg h.rows_pos, h.poke hcol]
  refine ⟨_, rfl, ?_⟩
  have hempty := h.setRow ((t.text t.text_row).set 0 0) []
    (List.length_set.trans (h.width _)) (Nat.zero_le _) List.take_zero List.not_mem_nil
  have hall : ∀ j < t.text_rows, (s.lines.set s.row [])[j]? =
      some (cstr ((t.setRow ((t.text t.text_row).set 0 0)).text
        ((j + t.text_top) % t.text_rows))) := by
    intro j hj
    rcases eq_or_ne j s.row with rfl | hne
    · have hlt : ([] : Bytes).length < (t.text t.text_row).length := (h.width _).symm ▸ hcol
      have htake : (t.text t.text_row).take ([] : Bytes).length = [] := List.take_zero
      rw [List.getElem?_set_self (h.length.symm ▸ hj), ← h.text_row, TextLog.setRow_self]
      exact congrArg some (cstr_set_zero htake hlt List.not_mem_nil).symm
    · rw [List.getElem?_set_ne hne.symm]
      exact hempty.others j hj hne
  have hrow : (if s.row = 0 then s.lines.length - 1 else s.row - 1) < t.text_rows := by
    have := h.row
    have := h.length
    split <;> omega
  have hring : (t.text_row + t.text_rows - 1) % t.text_rows =
      ((if s.row = 0 then s.lines.length - 1 else s.row - 1) + t.text_top) % t.text_rows := by
    rw [h.text_row, h.length]
    exact ring_pred h.row
  refine ⟨⟨List.length_set.trans h.length, h.rows, h.text_cols, h.cols_pos, h.cols_lt, hrow, hring,
    h.top, hempty.width, rfl, Nat.zero_le _, List.take_zero, List.not_mem_nil,
    fun j hj _ => hall j hj⟩, ?_⟩
  exact (hall _ hrow).trans (congrArg (fun r => some (cstr (TextLog.text _ r))) hring.symm)

/-- All lines are drawn. -/
theorem Shows.drawn_eq (h : Shows MAX_ROWS cols t s) : t.drawn = s.lines := by
  refine List.ext_getElem? fun j => ?_
  rw [TextLog.drawn, List.getElem?_map]
  by_cases hj : j < t.text_rows
  · rw [List.getElem?_range hj, h.drawn_line hj, Option.map_some]
  · rw [List.getElem?_eq_none (by simpa using hj),
      List.getElem?_eq_none (by rw [h.length]; exact Nat.le_of_not_lt hj), Option.map_none]

end Steps

/-! ## Runs -/

section Runs

variable {MAX_ROWS cols : Nat} {t : TextLog} {s : Screen}

theorem Shows.call (h : Shows MAX_ROWS cols t s) (c : Call) :
    ∃ t', t.call MAX_ROWS c = .done t' ∧ Shows MAX_ROWS cols t' (s.call cols c) := by
  cases c with
  | print str niced =>
    cases niced with
    | false => exact h.print str
    | true => exact ⟨t, t.ui_print_niced MAX_ROWS str, h⟩
  | deleteLine => exact h.deleteLine

theorem Shows.calls (h : Shows MAX_ROWS cols t s) (calls : List Call) :
    ∃ t', calls.foldlM (TextLog.call MAX_ROWS) t = .done t' ∧
      Shows MAX_ROWS cols t' (calls.foldl (Screen.call cols) s) := by
  induction calls generalizing t s with
  | nil => exact ⟨t, rfl, h⟩
  | cons c calls ih =>
    obtain ⟨t₁, hcall, hshows⟩ := h.call c
    rw [List.foldlM_cons, hcall]
    exact ih hshows

end Runs

section Init

variable {MAX_ROWS : Nat} {fb : Display}

theorem cstr_replicate_zero (n : Nat) : cstr (List.replicate n 0) = [] := by
  cases n <;> rfl

theorem shows_blank (hrows : 0 < (ui_init MAX_ROWS fb).text_rows)
    (hcols : 0 < (ui_init MAX_ROWS fb).text_cols) :
    Shows MAX_ROWS (ui_init MAX_ROWS fb).text_cols
      (ui_init MAX_ROWS fb)
      (Screen.blank (ui_init MAX_ROWS fb).text_rows) := by
  generalize hinit : ui_init MAX_ROWS fb = t at *
  have htext : ∀ r, t.text r = List.replicate MAX_COLS 0 := fun r => by rw [← hinit]; rfl
  have hline : ∀ j < t.text_rows, ∀ r,
      (Screen.blank t.text_rows).lines[j]? = some (cstr (t.text r)) := by
    intro j hj r
    rw [htext, cstr_replicate_zero, Screen.blank, List.getElem?_replicate_of_lt hj]
  have htop : t.text_top = 1 := by rw [← hinit]; rfl
  have hrow : t.text_row = (t.text_rows - 1 + t.text_top) % t.text_rows := by
    rw [htop, Nat.sub_add_cancel hrows, Nat.mod_self, ← hinit]
    rfl
  have hmax : t.text_rows ≤ MAX_ROWS := by rw [← hinit]; exact Nat.min_le_right ..
  have hwidth : t.text_cols < MAX_COLS := by
    have : t.text_cols ≤ MAX_COLS - 1 := by rw [← hinit]; exact Nat.min_le_right ..
    exact this.trans_lt (by decide)
  refine ⟨⟨List.length_replicate, hmax, rfl, hcols, hwidth, Nat.sub_lt hrows Nat.one_pos, hrow,
    ?_, fun r => ?_, ?_, Nat.zero_le _, List.take_zero, List.not_mem_nil,
    fun j hj _ => hline j hj _⟩, hline _ (Nat.sub_lt hrows Nat.one_pos) _⟩
  · omega
  · rw [htext, List.length_replicate]
  · rw [← hinit]
    rfl

/-- No byte is written outside the array, and what is drawn is the screen. -/
theorem screen_refines
    (hrows : 0 < (ui_init MAX_ROWS fb).text_rows)
    (hcols : 0 < (ui_init MAX_ROWS fb).text_cols)
    (calls : List Call) :
    ∃ t, calls.foldlM (TextLog.call MAX_ROWS)
        (ui_init MAX_ROWS fb) = .done t ∧
      t.drawn =
        (calls.foldl
          (Screen.call (ui_init MAX_ROWS fb).text_cols)
          (Screen.blank
            (ui_init MAX_ROWS fb).text_rows)).lines := by
  obtain ⟨t, hrun, hshows⟩ := (shows_blank hrows hcols).calls calls
  exact ⟨t, hrun, hshows.drawn_eq⟩

theorem screen_refines_sample :
    ∃ t, [Call.print (ascii "abcdef\ng") false, .deleteLine, .print (ascii "h") false].foldlM
        (TextLog.call 30) (ui_init 30 ⟨20, 30, 5, 10⟩) = .done t ∧
      t.drawn = ([Call.print (ascii "abcdef\ng") false, .deleteLine,
        .print (ascii "h") false].foldl (Screen.call 4) (Screen.blank 3)).lines :=
  screen_refines (by decide) (by decide) _

end Init

/-! ## Prints only -/

/-- A line in pieces that fit. -/
def pieces (cols : Nat) (line : Bytes) : List Bytes :=
  if cols = 0 ∨ line.length ≤ cols then [line]
  else line.take cols :: pieces cols (line.drop cols)
termination_by line.length
decreasing_by
  simp only [not_or, Nat.not_le] at *
  rw [List.length_drop]
  omega

/-- The lines of a text, in pieces that fit. -/
def layout (cols : Nat) (str : Bytes) : List Bytes :=
  (str.splitOn newline).flatMap (pieces cols)

/-- The last `n` lines -/
def lastLines (n : Nat) (lines : List Bytes) : List Bytes := lines.drop (lines.length - n)

section Layout

variable {cols : Nat} {cur rest : Bytes}

theorem pieces_of_le (h : cur.length ≤ cols) : pieces cols cur = [cur] := by
  rw [pieces, if_pos (.inr h)]

theorem pieces_append (hcols : 0 < cols) (hcur : cur.length = cols) (hrest : rest ≠ []) :
    pieces cols (cur ++ rest) = cur :: pieces cols rest := by
  have hlong : ¬ (cols = 0 ∨ (cur ++ rest).length ≤ cols) := by
    have := List.length_pos_of_ne_nil hrest
    rw [List.length_append]
    omega
  rw [pieces, if_neg hlong, ← hcur, List.take_left, List.drop_left]

theorem layout_of_le (hcur : newline ∉ cur) (hle : cur.length ≤ cols) :
    layout cols cur = [cur] := by
  rw [layout, List.splitOn_eq_singleton hcur, List.flatMap_singleton, pieces_of_le hle]

/-- A line break ends the line. -/
theorem layout_newline (hcur : newline ∉ cur) (hle : cur.length ≤ cols) :
    layout cols (cur ++ newline :: rest) = cur :: layout cols rest := by
  rw [layout, List.splitOn_append_cons_self_of_not_mem hcur, List.flatMap_cons, pieces_of_le hle]
  rfl

theorem splitOn_cons_head {c : UInt8} (hc : c ≠ newline) (rest : Bytes) :
    ∃ line lines, (c :: rest).splitOn newline = (c :: line) :: lines := by
  obtain ⟨line, lines, hsplit⟩ := List.exists_cons_of_ne_nil (List.splitOn_ne_nil newline rest)
  exact ⟨line, lines, by
    rw [List.splitOn_cons_eq_if_modifyHead, if_neg (by simpa using hc), hsplit,
      List.modifyHead_cons]⟩

theorem splitOn_append_head (hcur : newline ∉ cur) {line : Bytes} {lines : List Bytes}
    (hrest : rest.splitOn newline = line :: lines) :
    (cur ++ rest).splitOn newline = (cur ++ line) :: lines := by
  induction cur with
  | nil => exact hrest
  | cons c cur ih =>
    rw [List.mem_cons, not_or] at hcur
    rw [List.cons_append, List.splitOn_cons_eq_if_modifyHead,
      if_neg (by simpa using Ne.symm hcur.1), ih hcur.2, List.modifyHead_cons, List.cons_append]

/-- A full line ends where another character follows. -/
theorem layout_full (hcols : 0 < cols) (hcur : newline ∉ cur) (hfull : cur.length = cols)
    {c : UInt8} (hc : c ≠ newline) :
    layout cols (cur ++ c :: rest) = cur :: layout cols (c :: rest) := by
  obtain ⟨line, lines, hsplit⟩ := splitOn_cons_head hc rest
  rw [layout, layout, hsplit, splitOn_append_head hcur hsplit, List.flatMap_cons, List.flatMap_cons,
    pieces_append hcols hfull (List.cons_ne_nil _ _), List.cons_append]

end Layout

/-- The cursor is on the last line; `above` is everything that was written before this line. -/
structure Bottom (rows cols : Nat) (above : List Bytes) (s : Screen) : Prop where
  length : s.lines.length = rows
  row : s.row + 1 = rows
  lines : s.lines.dropLast = lastLines (rows - 1) above
  above : rows ≤ above.length + 1
  cur : newline ∉ s.cur
  cur_le : s.cur.length ≤ cols

section Bottom

variable {rows cols : Nat} {above : List Bytes} {s : Screen}

theorem dropLast_set_last {α : Type} {l : List α} {n : Nat} (h : n + 1 = l.length) (a : α) :
    (l.set n a).dropLast = l.dropLast := by
  rw [List.dropLast_eq_take, List.length_set, List.dropLast_eq_take,
    List.take_set_of_le (by omega)]

theorem set_last {α : Type} {l : List α} {n : Nat} (h : n + 1 = l.length) (a : α) :
    l.set n a = l.dropLast ++ [a] := by
  rw [List.set_eq_take_append_cons_drop, if_pos (by omega), List.drop_of_length_le (by omega),
    List.dropLast_eq_take, ← h]
  rfl

theorem lastLines_append (lines : List Bytes) (n : Nat) (line : Bytes) :
    lastLines (n + 1) (lines ++ [line]) = lastLines n lines ++ [line] := by
  rw [lastLines, lastLines, List.length_append, List.length_singleton, Nat.add_sub_add_right,
    List.drop_append_of_le_length (Nat.sub_le _ _)]

theorem Bottom.commit_lines (h : Bottom rows cols above s) :
    s.commit.lines = lastLines rows (above ++ [s.cur]) := by
  have hlast : s.row + 1 = s.lines.length := h.row.trans h.length.symm
  obtain ⟨n, rfl⟩ : ∃ n, rows = n + 1 := ⟨s.row, h.row.symm⟩
  rw [lastLines_append, Screen.commit, set_last hlast, h.lines]
  rfl

theorem Bottom.commit (h : Bottom rows cols above s) : Bottom rows cols above s.commit where
  length := List.length_set.trans h.length
  row := h.row
  lines := (dropLast_set_last (h.row.trans h.length.symm) _).trans h.lines
  above := h.above
  cur := h.cur
  cur_le := h.cur_le

theorem Bottom.advance (h : Bottom rows cols above s) :
    Bottom rows cols (above ++ [s.cur]) s.commit.advance := by
  have hlines : s.commit.advance = ⟨s.commit.lines.tail ++ [[]], s.row, []⟩ :=
    if_neg (by rw [h.commit.length]; exact h.row.not_lt)
  have hlength := h.commit.length
  have hrow := h.row
  have habove := h.above
  rw [hlines]
  refine ⟨?_, hrow, ?_, ?_, List.not_mem_nil, Nat.zero_le _⟩
  · rw [List.length_append, List.length_tail, hlength, List.length_singleton]
    omega
  · rw [List.dropLast_concat, h.commit_lines, lastLines, lastLines, List.tail_drop]
    congr 1
    rw [List.length_append, List.length_singleton]
    omega
  · rw [List.length_append]
    omega

/-- Everything written so far, and what follows, is laid out as one text. -/
theorem Bottom.put (h : Bottom rows cols above s) (hcols : 0 < cols) (c : UInt8) :
    ∃ above', Bottom rows cols above' (s.put cols c) ∧ ∀ rest,
      above' ++ layout cols ((s.put cols c).cur ++ rest) =
        above ++ layout cols (s.cur ++ c :: rest) := by
  have hcur := h.cur
  have hle := h.cur_le
  rw [Screen.put]
  by_cases hc : c = newline
  · subst hc
    simp only [true_or, if_true]
    refine ⟨_, h.advance, fun rest => ?_⟩
    rw [Screen.advance_cur, layout_newline hcur hle, List.nil_append, List.append_assoc]
    rfl
  · simp only [hc, false_or, if_false]
    by_cases hfull : cols ≤ s.cur.length
    · rw [if_pos hfull]
      refine ⟨_, ⟨h.advance.length, h.advance.row, h.advance.lines, h.advance.above, ?_, ?_⟩,
        fun rest => ?_⟩
      · simpa [Screen.advance_cur] using Ne.symm hc
      · simpa [Screen.advance_cur] using Nat.succ_le_of_lt hcols
      · rw [layout_full hcols hcur (hle.antisymm hfull) hc]
        simp [Screen.advance_cur]
    · rw [if_neg hfull]
      refine ⟨above, ⟨h.length, h.row, h.lines, h.above, ?_, ?_⟩, fun rest => ?_⟩
      · simpa using ⟨hcur, Ne.symm hc⟩
      · rw [List.length_append, List.length_singleton]
        omega
      · rw [List.append_assoc]
        rfl

theorem Bottom.puts (h : Bottom rows cols above s) (hcols : 0 < cols) (str : Bytes) :
    ∃ above', Bottom rows cols above' (str.foldl (Screen.put cols) s) ∧ ∀ rest,
      above' ++ layout cols ((str.foldl (Screen.put cols) s).cur ++ rest) =
        above ++ layout cols (s.cur ++ (str ++ rest)) := by
  induction str generalizing s above with
  | nil => exact ⟨above, h, fun _ => rfl⟩
  | cons c str ih =>
    obtain ⟨above₁, h₁, hput⟩ := h.put hcols c
    obtain ⟨above₂, h₂, hputs⟩ := ih h₁
    exact ⟨above₂, h₂, fun rest => (hputs rest).trans (hput _)⟩

/-- Between two prints the line is drawn; this does not change what follows. -/
theorem Bottom.prints (h : Bottom rows cols above s) (hcols : 0 < cols) (strs : List Bytes) :
    ∃ above', Bottom rows cols above' (strs.foldl (Screen.print cols) s) ∧ ∀ rest,
      above' ++ layout cols ((strs.foldl (Screen.print cols) s).cur ++ rest) =
        above ++ layout cols (s.cur ++ (strs.flatten ++ rest)) := by
  induction strs generalizing s above with
  | nil => exact ⟨above, h, fun _ => rfl⟩
  | cons str strs ih =>
    obtain ⟨above₁, h₁, hput⟩ := h.puts hcols str
    obtain ⟨above₂, h₂, hputs⟩ := ih h₁.commit
    refine ⟨above₂, h₂, fun rest => ?_⟩
    rw [List.flatten_cons, List.append_assoc]
    exact (hputs rest).trans (hput _)

theorem bottom_blank (hrows : 0 < rows) :
    Bottom rows cols (List.replicate rows []) (Screen.blank rows) where
  length := List.length_replicate
  row := Nat.sub_add_cancel hrows
  lines := by
    rw [Screen.blank, List.dropLast_replicate, lastLines, List.drop_replicate,
      List.length_replicate]
    congr 1
    omega
  above := by simp
  cur := List.not_mem_nil
  cur_le := Nat.zero_le _

end Bottom

theorem Screen.commit_commit (s : Screen) : s.commit.commit = s.commit := by
  simp only [Screen.commit, List.set_set]

theorem Screen.commit_blank (rows : Nat) : (Screen.blank rows).commit = Screen.blank rows := by
  simp only [Screen.commit, Screen.blank, List.set_replicate_self]

theorem Screen.commit_prints {cols : Nat} {s : Screen} (h : s.commit = s) (strs : List Bytes) :
    (strs.foldl (Screen.print cols) s).commit = strs.foldl (Screen.print cols) s := by
  induction strs generalizing s with
  | nil => exact h
  | cons str strs ih => exact ih (commit_commit _)

theorem foldl_call_print (cols : Nat) (strs : List Bytes) (s : Screen) :
    (strs.map (Call.print · false)).foldl (Screen.call cols) s =
      (strs.map fun str => (cstr str).take 255).foldl (Screen.print cols) s := by
  rw [List.foldl_map, List.foldl_map]
  rfl

/-- The text may be longer than the array: of each print the first 255 bytes are kept, and of
everything printed the last rows. -/
theorem prints_show_tail {MAX_ROWS : Nat} {fb : Display}
    (hrows : 0 < (ui_init MAX_ROWS fb).text_rows)
    (hcols : 0 < (ui_init MAX_ROWS fb).text_cols) (strs : List Bytes) :
    ∃ t, (strs.map (Call.print · false)).foldlM (TextLog.call MAX_ROWS) (ui_init MAX_ROWS fb) =
        .done t ∧
      t.drawn = lastLines (ui_init MAX_ROWS fb).text_rows
        (List.replicate (ui_init MAX_ROWS fb).text_rows [] ++
          layout (ui_init MAX_ROWS fb).text_cols
            (strs.flatMap fun str => (cstr str).take 255)) := by
  obtain ⟨t, hrun, hshows⟩ := (shows_blank hrows hcols).calls (strs.map (Call.print · false))
  refine ⟨t, hrun, ?_⟩
  rw [hshows.drawn_eq, foldl_call_print]
  obtain ⟨above, hbottom, htext⟩ := (bottom_blank hrows).prints hcols
    (strs.map fun str => (cstr str).take 255)
  rw [← Screen.commit_prints (Screen.commit_blank _), hbottom.commit_lines]
  have hlast := htext []
  rw [List.append_nil, List.append_nil, layout_of_le hbottom.cur hbottom.cur_le] at hlast
  rw [hlast, List.flatMap_def]
  rfl

theorem prints_show_tail_sample :
    ∃ t, ([ascii "abcdef\n", ascii "gh"].map (Call.print · false)).foldlM (TextLog.call 30)
        (ui_init 30 ⟨20, 30, 5, 10⟩) = .done t ∧
      t.drawn = lastLines 3 (List.replicate 3 [] ++ layout 4
        ([ascii "abcdef\n", ascii "gh"].flatMap fun str => (cstr str).take 255)) :=
  prints_show_tail (by decide) (by decide) _

/-! ## Progress of a backup -/

/-- What a report shows of a file. -/
def reportName (cols : Nat) (justfile : Bytes) : Bytes :=
  (if justfile.getLast? = some newline then justfile.dropLast else justfile).take (cols - 1)

namespace Screen

/-- On the last line there is no room for a line under the cursor. -/
def room (s : Screen) : Screen :=
  if s.row + 1 < s.lines.length then s else ⟨s.lines.tail ++ [[]], s.row - 1, []⟩

/-- A name on the line of the cursor, and an empty line under it. -/
def report (s : Screen) (name : Bytes) : Screen :=
  ⟨(s.room.lines.set s.room.row name).set (s.room.row + 1) [], s.room.row, []⟩

variable {cols : Nat} {s : Screen}

theorem room_row_lt (hrows : 2 ≤ s.lines.length) (hrow : s.row < s.lines.length) :
    s.room.row + 1 < s.room.lines.length := by
  rw [room]
  split
  · assumption
  · rw [List.length_append, List.length_tail, List.length_singleton]
    dsimp only
    omega

theorem report_length (h : 0 < s.lines.length) (name : Bytes) :
    (s.report name).lines.length = s.lines.length := by
  rw [report, List.length_set, List.length_set, room]
  split
  · rfl
  · rw [List.length_append, List.length_tail, List.length_singleton, Nat.sub_add_cancel h]

/-- The next report takes the place of the last one. -/
theorem report_report (hrows : 2 ≤ s.lines.length) (hrow : s.row < s.lines.length) (a b : Bytes) :
    (s.report a).report b = s.report b := by
  have hroom : (s.report a).room = s.report a :=
    if_pos (by simpa [report] using room_row_lt hrows hrow)
  rw [report, hroom]
  simp only [report, List.set_set, List.set_comm _ _ (Nat.ne_of_lt (Nat.lt_succ_self _)).symm]

theorem put_newline : s.put cols newline = s.commit.advance := by
  simp [put]

theorem put_of_lt {c : UInt8} (hc : c ≠ newline) (hlt : s.cur.length < cols) :
    s.put cols c = { s with cur := s.cur ++ [c] } := by
  simp [put, hc, Nat.not_le_of_lt hlt]

theorem foldl_put_name {name : Bytes} (hname : newline ∉ name)
    (hle : s.cur.length + name.length ≤ cols) :
    name.foldl (put cols) s = { s with cur := s.cur ++ name } := by
  induction name generalizing s with
  | nil => simp
  | cons c name ih =>
    rw [List.mem_cons, not_or] at hname
    rw [List.length_cons] at hle
    have hput : s.put cols c = { s with cur := s.cur ++ [c] } :=
      put_of_lt (Ne.symm hname.1) (by omega)
    rw [List.foldl_cons, hput, ih hname.2 (by simp; omega)]
    simp

theorem print_deleteLine (hrows : 2 ≤ s.lines.length) (hrow : s.row < s.lines.length)
    (hcur : s.cur = []) {name : Bytes} (hname : newline ∉ name) (hle : name.length ≤ cols) :
    (s.print cols (name ++ [newline])).deleteLine = s.report name := by
  have hputs : (name ++ [newline]).foldl (put cols) s =
      ({ s with cur := name } : Screen).commit.advance := by
    rw [List.foldl_append, foldl_put_name hname (by simpa [hcur] using hle), hcur, List.nil_append,
      List.foldl_cons, List.foldl_nil, put_newline]
  rw [print, hputs]
  by_cases hlast : s.row + 1 < s.lines.length
  · simp [commit, advance, deleteLine, report, room, hlast]
  · -- The name scrolls up by one line, as the line under it is the last one.
    obtain ⟨row, hpred⟩ : ∃ row, s.row = row + 1 := ⟨s.row - 1, by omega⟩
    obtain ⟨first, rest, hlines⟩ : ∃ first rest, s.lines = first :: rest :=
      List.exists_cons_of_length_pos (by omega)
    have hrest : rest.length = row + 1 := by
      rw [hlines, hpred, List.length_cons] at hlast hrow
      omega
    simp [commit, advance, deleteLine, report, room, hlines, hpred, hrest]

end Screen

section Reports

variable {MAX_ROWS cols : Nat} {t : TextLog} {s : Screen}

/-- A file of which a report can be made: the name of one line -/
structure Reportable (justfile : Bytes) : Prop where
  nonempty : justfile ≠ []
  length : justfile.length < PATH_MAX
  zero : 0 ∉ justfile
  line : newline ∉ justfile.dropLast

theorem Reportable.newline_notMem {justfile : Bytes} (h : Reportable justfile) (cols : Nat) :
    newline ∉ reportName cols justfile := by
  rw [reportName]
  refine fun hmem => absurd (List.mem_of_mem_take hmem) ?_
  split
  · exact h.line
  · rw [← List.dropLast_append_getLast h.nonempty, List.mem_append, not_or]
    refine ⟨h.line, fun hlast => ?_⟩
    simp_all [List.getLast?_eq_some_getLast h.nonempty]

theorem Shows.nandroid_callback (h : Shows MAX_ROWS cols t s) (hrows : 2 ≤ s.lines.length)
    (hcur : s.cur = []) {justfile : Bytes} (hfile : Reportable justfile) :
    ∃ t', t.nandroid_callback MAX_ROWS justfile false = .done t' ∧
      Shows MAX_ROWS cols t' (s.report (reportName cols justfile)) := by
  have hcols := h.cols_pos
  have hcolsLt := h.cols_lt
  have hrow : s.row < s.lines.length := h.length ▸ h.row
  have hname := hfile.newline_notMem cols
  have hlength : (reportName cols justfile).length ≤ cols - 1 := List.length_take_le ..
  have hzero : 0 ∉ reportName cols justfile ++ [newline] := by
    rw [List.mem_append, not_or]
    refine ⟨fun hmem => hfile.zero ?_, by decide⟩
    have hmem := List.mem_of_mem_take hmem
    split at hmem
    · exact List.mem_of_mem_dropLast hmem
    · exact hmem
  have hshort : (reportName cols justfile ++ [newline]).length ≤ 255 := by
    rw [List.length_append, List.length_singleton]
    exact Nat.succ_le_of_lt (hlength.trans_lt (by unfold MAX_COLS at hcolsLt; omega))
  obtain ⟨t₁, hprint, hshows⟩ := h.print (reportName cols justfile ++ [newline])
  obtain ⟨t₂, hdelete, hshows₂⟩ := hshows.deleteLine
  rw [cstr_of_zero_notMem hzero, List.take_of_length_le hshort,
    Screen.print_deleteLine hrows hrow hcur hname (by omega)] at hshows₂
  refine ⟨t₂, ?_, hshows₂⟩
  rw [TextLog.nandroid_callback, if_neg (by
    simp [hfile.nonempty, hfile.length, h.text_cols, hcols.ne']), h.text_cols]
  exact (congrArg (· >>= _) hprint).trans hdelete

theorem Shows.nandroid_callback_niced (h : Shows MAX_ROWS cols t s) {justfile : Bytes}
    (hfile : Reportable justfile) : t.nandroid_callback MAX_ROWS justfile true = .done t := by
  have hcols := h.cols_pos
  rw [TextLog.nandroid_callback, if_neg (by
    simp [hfile.nonempty, hfile.length, h.text_cols, hcols.ne'])]
  exact congrArg (· >>= _) (t.ui_print_niced MAX_ROWS _)

/-- The last of the reports that the update was not too soon for -/
def lastShown (reports : List (Bytes × Bool)) : Option Bytes :=
  (reports.filter fun report => !report.2).getLast?.map Prod.fst

theorem lastShown_cons_false (justfile : Bytes) (reports : List (Bytes × Bool)) :
    lastShown ((justfile, false) :: reports) = some ((lastShown reports).getD justfile) := by
  rw [lastShown, lastShown, List.filter_cons_of_pos rfl, List.getLast?_cons]
  cases (reports.filter fun report => !report.2).getLast? <;> rfl

theorem lastShown_cons_true (justfile : Bytes) (reports : List (Bytes × Bool)) :
    lastShown ((justfile, true) :: reports) = lastShown reports := by
  rw [lastShown, lastShown, List.filter_cons_of_neg (by simp)]

theorem Shows.reports (h : Shows MAX_ROWS cols t s) (hrows : 2 ≤ s.lines.length) (hcur : s.cur = [])
    {reports : List (Bytes × Bool)} (hfiles : ∀ report ∈ reports, Reportable report.1) :
    ∃ t', reports.foldlM (fun t report => t.nandroid_callback MAX_ROWS report.1 report.2) t =
        .done t' ∧
      Shows MAX_ROWS cols t'
        ((lastShown reports).elim s fun justfile => s.report (reportName cols justfile)) := by
  induction reports generalizing t s with
  | nil => exact ⟨t, rfl, h⟩
  | cons report reports ih =>
    have hrow : s.row < s.lines.length := h.length ▸ h.row
    have hfile := hfiles report List.mem_cons_self
    have hrest := fun r hr => hfiles r (List.mem_cons_of_mem _ hr)
    rw [List.foldlM_cons]
    obtain ⟨justfile, _ | _⟩ := report
    · obtain ⟨t₁, hcallback, hshows⟩ := h.nandroid_callback hrows hcur hfile
      have hlength := Screen.report_length (Nat.zero_lt_of_lt hrow) (reportName cols justfile)
      obtain ⟨t₂, hrun, hlast⟩ := ih hshows (hlength.symm ▸ hrows) rfl hrest
      rw [hcallback, lastShown_cons_false]
      refine ⟨t₂, hrun, ?_⟩
      -- The next name takes the place of this one, if there is a next one.
      cases hnext : lastShown reports with
      | none => simpa [hnext] using hlast
      | some next => simpa [hnext, Screen.report_report hrows hrow] using hlast
    · rw [h.nandroid_callback_niced hfile, lastShown_cons_true]
      exact ih h hrows hcur hrest

end Reports

/-- Reports of files that are backed up leave the text that was there; the last one that is shown
has a line of its own. -/
theorem progress_in_place {MAX_ROWS : Nat} {fb : Display}
    (hrows : 2 ≤ (ui_init MAX_ROWS fb).text_rows)
    (hcols : 0 < (ui_init MAX_ROWS fb).text_cols) (calls : List Call) (s : Screen)
    (hcalls : s = calls.foldl (Screen.call (ui_init MAX_ROWS fb).text_cols)
      (Screen.blank (ui_init MAX_ROWS fb).text_rows))
    (hcur : s.cur = []) {reports : List (Bytes × Bool)}
    (hfiles : ∀ report ∈ reports, Reportable report.1) :
    ∃ t t', calls.foldlM (TextLog.call MAX_ROWS) (ui_init MAX_ROWS fb) = .done t ∧
      reports.foldlM (fun t report => t.nandroid_callback MAX_ROWS report.1 report.2) t =
        .done t' ∧
      t'.drawn = ((lastShown reports).elim s fun justfile =>
        s.report (reportName (ui_init MAX_ROWS fb).text_cols justfile)).lines := by
  have hpos : 0 < (ui_init MAX_ROWS fb).text_rows := Nat.zero_lt_of_lt hrows
  have hblank : (Screen.blank (ui_init MAX_ROWS fb).text_rows).lines.length =
      (ui_init MAX_ROWS fb).text_rows := List.length_replicate
  obtain ⟨t, hrun, hshows⟩ := (shows_blank hpos hcols).calls calls
  have hlength : s.lines.length = (ui_init MAX_ROWS fb).text_rows := by
    rw [hcalls]
    exact (Screen.calls_length (hblank.symm ▸ hpos) calls).trans hblank
  rw [← hcalls] at hshows
  obtain ⟨t', hreports, hlast⟩ := hshows.reports (hlength.symm ▸ hrows) hcur hfiles
  exact ⟨t, t', hrun, hreports, hlast.drawn_eq⟩

theorem progress_in_place_sample :
    ∃ t t', [Call.print (ascii "Backup\n") false].foldlM (TextLog.call 30)
        (ui_init 30 ⟨480, 800, 10, 18⟩) = .done t ∧
      [(ascii "a.apk\n", false), (ascii "b.apk\n", false), (ascii "c.apk\n", true)].foldlM
        (fun t report => t.nandroid_callback 30 report.1 report.2) t = .done t' ∧
      t'.drawn = (([Call.print (ascii "Backup\n") false].foldl (Screen.call 48)
        (Screen.blank 30)).report (ascii "b.apk")).lines :=
  progress_in_place (by decide) (by decide) _ _ rfl (by decide)
    (by
      simp only [List.forall_mem_cons]
      exact ⟨⟨by decide, by decide, by decide, by decide⟩,
        ⟨by decide, by decide, by decide, by decide⟩,
        ⟨by decide, by decide, by decide, by decide⟩, List.forall_mem_nil _⟩)

end BootableRecovery.Ui
