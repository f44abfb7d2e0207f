import BootableRecovery.Lib.Numeral

/-!
# The command pipe: `updater/install.c` writes, `install.c` reads

The functions of the updater print single-line commands to a pipe, and the loop
in `try_update_binary` reads lines from it and carries them out. The reader has a
buffer of 1024 bytes and knows four commands.

Fractions are `double` in the updater and are sent with `%f`; the formats of the
C library are parameters (`Formats`), and a fraction that is executed is compared
with the value of the text that was sent.

Main results:
* `readPipe_fits`: a line that the reader can take is carried out as it was meant.
* `readPipe_bad`: any other line is carried out as something else.
* `command_pipe_iff`: when all the calls of the updater's functions arrive.
-/

namespace BootableRecovery.CommandPipe

/-! ## The updater -/

/-- The conversions between text and floating-point numbers. What `%f` prints is
not empty, has no blanks, and has at most 309 digits in front of the point. -/
structure Formats where
  double : Type
  float : Type
  strtod : Bytes → double
  strtof : Bytes → float
  printf_f : double → Bytes
  printf_f_ne : ∀ x, printf_f x ≠ []
  printf_f_text : ∀ x, ∀ c ∈ printf_f x, c ≠ 0 ∧ c ≠ 10 ∧ c ≠ 32
  printf_f_length : ∀ x, (printf_f x).length ≤ 317

variable (fmt : Formats)

/-- One `fprintf` to the pipe. -/
inductive Line where
  | progress (frac : fmt.double) (sec : Int)
  | set_progress (frac : fmt.double)
  | ui_print (line : Bytes)
  | ui_newline
  | wipe_cache

variable {fmt}

/-- What is printed, without the newline at the end. -/
def Line.text : Line fmt → Bytes
  | .progress frac sec => ascii "progress " ++ fmt.printf_f frac ++ [32] ++ printInt sec
  | .set_progress frac => ascii "set_progress " ++ fmt.printf_f frac
  | .ui_print line => ascii "ui_print " ++ line
  | .ui_newline => ascii "ui_print"
  | .wipe_cache => ascii "wipe_cache"

def ShowProgressFn (frac_str sec_str : Bytes) : List (Line fmt) :=
  [.progress (fmt.strtod frac_str) (wrap32 (atoi sec_str))]

def SetProgressFn (frac_str : Bytes) : List (Line fmt) := [.set_progress (fmt.strtod frac_str)]

/-- The lines of a message: the arguments are put together and cut at newlines. -/
def messageLines (args : List Bytes) : List Bytes :=
  let buffer := args.flatMap cstr
  strtokAll (ascii "\n") buffer.length buffer

def UIPrintFn (args : List Bytes) : List (Line fmt) :=
  (messageLines args).map .ui_print ++ [.ui_newline]

def WipeCacheFn : List (Line fmt) := [.wipe_cache]

/-- A call of one of the functions that print to the pipe, with the values of its
arguments. -/
inductive Call where
  | show_progress (frac_str sec_str : Bytes)
  | set_progress (frac_str : Bytes)
  | ui_print (args : List Bytes)
  | wipe_cache
  deriving DecidableEq, Repr

/-- The lines that a call prints. -/
def Call.lines : Call → List (Line fmt)
  | .show_progress frac_str sec_str => ShowProgressFn frac_str sec_str
  | .set_progress frac_str => SetProgressFn frac_str
  | .ui_print args => UIPrintFn args
  | .wipe_cache => WipeCacheFn

/-- What the pipe carries. -/
def pipe (lines : List (Line fmt)) : Bytes := lines.flatMap fun l => l.text ++ [10]

/-! ## The reader -/

variable (fmt)

/-- What the reader does for a line. -/
inductive Action where
  | ui_show_progress (fraction : fmt.float) (seconds : Int)
  | ui_set_progress (fraction : fmt.float)
  | ui_print (str : Bytes)
  | ui_print_newline
  | ignoring_firmware
  | wipe_cache
  | unknown (command : Bytes)

/-- `firmware_type` and `firmware_filename`. -/
abbrev Firmware := Option (Bytes × Bytes)

variable {fmt}

def blanks : Bytes := ascii " \n"

/-- The body of the loop in `try_update_binary`. Without an argument,
`strtof` is called with a null pointer. -/
def readLine (firmware : Firmware) (buffer : Bytes) : Outcome (List (Action fmt) × Firmware) :=
  match strtok blanks (cstr buffer) with
  | none => .done ([], firmware)
  | some (command, rest) =>
    if command = ascii "progress" then
      match strtok blanks rest with
      | none => .fault
      | some (fraction_s, rest) =>
        match strtok blanks rest with
        | none => .fault
        | some (seconds_s, _) =>
          .done ([.ui_show_progress (fmt.strtof fraction_s) (wrap32 (atoi seconds_s))], firmware)
    else if command = ascii "set_progress" then
      match strtok blanks rest with
      | none => .fault
      | some (fraction_s, _) => .done ([.ui_set_progress (fmt.strtof fraction_s)], firmware)
    else if command = ascii "firmware" then
      match strtok blanks rest with
      | none => .done ([], firmware)
      | some (type, rest) =>
        match strtok blanks rest with
        | none => .done ([], firmware)
        | some (filename, _) =>
          match firmware with
          | some _ => .done ([.ignoring_firmware], firmware)
          | none => .done ([], some (type, filename))
    else if command = ascii "ui_print" then
      match strtok (ascii "\n") rest with
      | some (str, _) => .done ([.ui_print str], firmware)
      | none => .done ([.ui_print_newline], firmware)
    else .done ([.unknown command], firmware)

/-- The loop over the lines that `fgets` returns. -/
def readLines : Firmware → List Bytes → Outcome (List (Action fmt) × Firmware)
  | firmware, [] => .done ([], firmware)
  | firmware, line :: lines => do
    let (actions, firmware) ← readLine firmware line
    let (rest, firmware) ← readLines firmware lines
    .done (actions ++ rest, firmware)

/-- The loop of `try_update_binary` on all that comes through the pipe. -/
def readPipe (firmware : Firmware) (stream : Bytes) : Outcome (List (Action fmt) × Firmware) :=
  readLines firmware (fgetsAll 1024 stream)

/-! ## What a line means -/

/-- The action that a line asks for. -/
def Line.action : Line fmt → Action fmt
  | .progress frac sec => .ui_show_progress (fmt.strtof (fmt.printf_f frac)) sec
  | .set_progress frac => .ui_set_progress (fmt.strtof (fmt.printf_f frac))
  | .ui_print line => .ui_print line
  | .ui_newline => .ui_print_newline
  | .wipe_cache => .wipe_cache

/-- What the functions of the updater print: a message line is not empty and has
no newline, and a number is an `int`. -/
def Line.Printed : Line fmt → Prop
  | .progress _ sec => -2 ^ 31 ≤ sec ∧ sec < 2 ^ 31
  | .ui_print line => line ≠ [] ∧ 10 ∉ line ∧ 0 ∉ line
  | _ => True

/-- The reader knows the command and has room for the line. -/
def Line.Fits : Line fmt → Prop
  | .ui_print line => line.length ≤ 1014
  | .wipe_cache => False
  | _ => True

theorem messageLines_printed {args : List Bytes} {line : Bytes} (h : line ∈ messageLines args) :
    line ≠ [] ∧ 10 ∉ line ∧ 0 ∉ line := by
  obtain ⟨hne, hdelim, hmem⟩ := mem_strtokAll h
  refine ⟨hne, fun h10 => hdelim 10 h10 (by decide), fun h0 => ?_⟩
  obtain ⟨arg, -, harg⟩ := List.mem_flatMap.mp (hmem 0 h0)
  exact zero_notMem_cstr arg harg

theorem Call.lines_printed (call : Call) {l : Line fmt} (h : l ∈ call.lines) : l.Printed := by
  cases call with
  | show_progress frac_str sec_str =>
    rw [List.mem_singleton.mp h]
    exact wrap32_range _
  | set_progress frac_str =>
    rw [List.mem_singleton.mp h]
    exact trivial
  | ui_print args =>
    rcases List.mem_append.mp h with h | h
    · obtain ⟨line, hline, rfl⟩ := List.mem_map.mp h
      exact messageLines_printed hline
    · rw [List.mem_singleton.mp h]
      exact trivial
  | wipe_cache =>
    rw [List.mem_singleton.mp h]
    exact trivial

/-! ## One line -/

theorem strtok_blank {t : Bytes} (hne : t ≠ []) (ht : ∀ c ∈ t, c ≠ 0 ∧ c ≠ 10 ∧ c ≠ 32) {d : UInt8}
    (hd : d ∈ blanks) (rest : Bytes) : strtok blanks (t ++ d :: rest) = some (t, rest) := by
  refine strtok_token hne (fun c hc hmem => ?_) hd rest
  obtain ⟨-, h10, h32⟩ := ht c hc
  have hblank : c = 32 ∨ c = 10 := by
    rw [show blanks = [32, 10] by decide] at hmem
    simpa using hmem
  rcases hblank with rfl | rfl
  · exact h32 rfl
  · exact h10 rfl

theorem printInt_text (n : Int) : ∀ c ∈ printInt n, c ≠ 0 ∧ c ≠ 10 ∧ c ≠ 32 := by
  intro c hc
  refine ⟨?_, ?_, ?_⟩ <;> rintro rfl <;> exact absurd (mem_printInt hc) (by decide)

theorem printInt_ne_nil (n : Int) : printInt n ≠ [] := by
  unfold printInt
  split
  · exact List.cons_ne_nil _ _
  · exact printNat_ne_nil

theorem Line.text_no_zero {l : Line fmt} (h : l.Printed) : 0 ∉ l.text := by
  cases l with
  | progress frac sec =>
    intro hmem
    rcases List.mem_append.mp hmem with hmem | hmem
    · rcases List.mem_append.mp hmem with hmem | hmem
      · rcases List.mem_append.mp hmem with hmem | hmem
        · exact absurd hmem (by decide)
        · exact (fmt.printf_f_text frac 0 hmem).1 rfl
      · exact absurd hmem (by decide)
    · exact (printInt_text sec 0 hmem).1 rfl
  | set_progress frac =>
    intro hmem
    rcases List.mem_append.mp hmem with hmem | hmem
    · exact absurd hmem (by decide)
    · exact (fmt.printf_f_text frac 0 hmem).1 rfl
  | ui_print line =>
    intro hmem
    rcases List.mem_append.mp hmem with hmem | hmem
    · exact absurd hmem (by decide)
    · exact h.2.2 hmem
  | ui_newline => exact show 0 ∉ ascii "ui_print" by decide
  | wipe_cache => exact show 0 ∉ ascii "wipe_cache" by decide

theorem Line.text_no_newline {l : Line fmt} (h : l.Printed) : 10 ∉ l.text := by
  cases l with
  | progress frac sec =>
    intro hmem
    rcases List.mem_append.mp hmem with hmem | hmem
    · rcases List.mem_append.mp hmem with hmem | hmem
      · rcases List.mem_append.mp hmem with hmem | hmem
        · exact absurd hmem (by decide)
        · exact (fmt.printf_f_text frac 10 hmem).2.1 rfl
      · exact absurd hmem (by decide)
    · exact (printInt_text sec 10 hmem).2.1 rfl
  | set_progress frac =>
    intro hmem
    rcases List.mem_append.mp hmem with hmem | hmem
    · exact absurd hmem (by decide)
    · exact (fmt.printf_f_text frac 10 hmem).2.1 rfl
  | ui_print line =>
    intro hmem
    rcases List.mem_append.mp hmem with hmem | hmem
    · exact absurd hmem (by decide)
    · exact h.2.1 hmem
  | ui_newline => exact show 10 ∉ ascii "ui_print" by decide
  | wipe_cache => exact show 10 ∉ ascii "wipe_cache" by decide

/-- Only message lines can be long. -/
theorem Line.text_length {l : Line fmt} (h : l.Printed) (hfits : l.Fits) :
    l.text.length < 1023 ∨ ∃ line, l = .ui_print line ∧ l.text.length = 1023 := by
  cases l with
  | progress frac sec =>
    obtain ⟨hlow, hhigh⟩ := h
    have hfrac := fmt.printf_f_length frac
    have hsec : (printInt sec).length ≤ 10 + 1 := printInt_length_le (by omega) (by omega)
    have hword : (ascii "progress ").length = 9 := by decide
    left
    simp only [Line.text, List.length_append, List.length_singleton]
    omega
  | set_progress frac =>
    have hfrac := fmt.printf_f_length frac
    have hword : (ascii "set_progress ").length = 13 := by decide
    left
    simp only [Line.text, List.length_append]
    omega
  | ui_print line =>
    have hlen : line.length ≤ 1014 := hfits
    have hword : (ascii "ui_print ").length = 9 := by decide
    have htext : (Line.ui_print line : Line fmt).text.length = 9 + line.length := by
      simp only [Line.text, List.length_append, hword]
    rcases Nat.lt_or_eq_of_le hlen with hlt | heq
    · exact .inl (by omega)
    · exact .inr ⟨line, rfl, by omega⟩
  | ui_newline => exact .inl (show (ascii "ui_print").length < 1023 by decide)
  | wipe_cache => exact hfits.elim

/-- A message line in the buffer, with or without the newline. -/
theorem readLine_ui_print (fmt : Formats) (firmware : Firmware) {line tail : Bytes}
    (hne : line ≠ []) (h10 : 10 ∉ line) (h0 : 0 ∉ line) (htail : tail = [] ∨ tail = [10]) :
    readLine firmware (ascii "ui_print " ++ line ++ tail) =
      .done (([.ui_print line] : List (Action fmt)), firmware) := by
  have hzero : 0 ∉ ascii "ui_print " ++ line ++ tail := by
    intro hmem
    rcases List.mem_append.mp hmem with hmem | hmem
    · rcases List.mem_append.mp hmem with hmem | hmem
      · exact absurd hmem (by decide)
      · exact h0 hmem
    · rcases htail with rfl | rfl
      · exact absurd hmem List.not_mem_nil
      · exact absurd hmem (by decide)
  have hdelim : ∀ c ∈ line, c ∉ ascii "\n" := by
    intro c hc hmem
    rw [show ascii "\n" = [10] by decide, List.mem_singleton] at hmem
    exact h10 (hmem ▸ hc)
  have hcommand : strtok blanks (ascii "ui_print" ++ 32 :: (line ++ tail)) =
      some (ascii "ui_print", line ++ tail) :=
    strtok_blank (by decide) (by decide +kernel) (by decide) _
  have hstr : strtok (ascii "\n") (line ++ tail) = some (line, []) := by
    rcases htail with rfl | rfl
    · rw [List.append_nil]
      exact strtok_last hne hdelim
    · exact strtok_token hne hdelim (by decide) []
  have hshape : ascii "ui_print " ++ line ++ tail = ascii "ui_print" ++ 32 :: (line ++ tail) := by
    rw [show ascii "ui_print " = ascii "ui_print" ++ [32] by decide]
    simp
  unfold readLine
  rw [cstr_of_zero_notMem hzero, hshape, hcommand]
  simp only
  rw [if_neg (by decide), if_neg (by decide), if_neg (by decide), if_pos trivial, hstr]

/-- A line that fits is carried out. -/
theorem readLine_text {l : Line fmt} (h : l.Printed) (hfits : l.Fits) (firmware : Firmware) :
    readLine firmware (l.text ++ [10]) = .done ([l.action], firmware) := by
  have hzero : 0 ∉ l.text ++ [10] := by
    intro hmem
    rcases List.mem_append.mp hmem with hmem | hmem
    · exact l.text_no_zero h hmem
    · exact absurd hmem (by decide)
  cases l with
  | progress frac sec =>
    have hshape : (Line.progress frac sec : Line fmt).text ++ [10] = ascii "progress" ++ 32 ::
        (fmt.printf_f frac ++ 32 :: (printInt sec ++ 10 :: [])) := by
      simp only [Line.text]
      rw [show ascii "progress " = ascii "progress" ++ [32] by decide]
      simp
    have hcommand := strtok_blank (t := ascii "progress") (d := 32) (by decide)
      (by decide +kernel) (by decide) (fmt.printf_f frac ++ 32 :: (printInt sec ++ 10 :: []))
    have hfrac := strtok_blank (d := 32) (fmt.printf_f_ne frac) (fmt.printf_f_text frac) (by decide)
      (printInt sec ++ 10 :: [])
    have hsec := strtok_blank (d := 10) (printInt_ne_nil sec) (printInt_text sec) (by decide) []
    have hatoi : atoi (printInt sec ++ []) = sec := atoi_printInt sec (by simp)
    rw [List.append_nil] at hatoi
    unfold readLine
    rw [cstr_of_zero_notMem hzero, hshape, hcommand]
    simp only
    rw [if_pos trivial, hfrac]
    simp only
    rw [hsec]
    simp only
    rw [hatoi, wrap32_of_range h.1 h.2]
    rfl
  | set_progress frac =>
    have hshape : (Line.set_progress frac : Line fmt).text ++ [10] = ascii "set_progress" ++ 32 ::
        (fmt.printf_f frac ++ 10 :: []) := by
      simp only [Line.text]
      rw [show ascii "set_progress " = ascii "set_progress" ++ [32] by decide]
      simp
    have hcommand := strtok_blank (t := ascii "set_progress") (d := 32) (by decide)
      (by decide +kernel) (by decide) (fmt.printf_f frac ++ 10 :: [])
    have hfrac := strtok_blank (d := 10) (fmt.printf_f_ne frac) (fmt.printf_f_text frac) (by decide)
      []
    unfold readLine
    rw [cstr_of_zero_notMem hzero, hshape, hcommand]
    simp only
    rw [if_neg (by decide), if_pos trivial, hfrac]
    rfl
  | ui_print line => exact readLine_ui_print fmt firmware h.1 h.2.1 h.2.2 (.inr rfl)
  | ui_newline => rfl
  | wipe_cache => exact hfits.elim

/-! ## The stream -/

theorem readPipe_line (fmt : Formats) {text : Bytes} (h10 : 10 ∉ text) (hlen : text.length < 1023)
    (firmware : Firmware) (rest : Bytes) :
    (readPipe firmware (text ++ 10 :: rest) : Outcome (List (Action fmt) × Firmware)) = (do
      let (actions, firmware) ← readLine firmware (text ++ [10])
      let (more, firmware) ← readPipe firmware rest
      .done (actions ++ more, firmware)) := by
  unfold readPipe
  rw [fgetsAll_of_ne (by decide) (by simp), takeLine_line h10 hlen, readLines]

/-- A line that fills the buffer: the next call of `fgets` goes on behind it. -/
theorem readPipe_full (fmt : Formats) {text : Bytes} (h10 : 10 ∉ text) (hlen : 1023 ≤ text.length)
    (firmware : Firmware) (rest : Bytes) :
    (readPipe firmware (text ++ 10 :: rest) : Outcome (List (Action fmt) × Firmware)) = (do
      let (actions, firmware) ← readLine firmware (text.take 1023)
      let (more, firmware) ← readPipe firmware (text.drop 1023 ++ 10 :: rest)
      .done (actions ++ more, firmware)) := by
  unfold readPipe
  rw [fgetsAll_of_ne (by decide) (by simp), takeLine_long h10 hlen, readLines]

/-- A newline alone is skipped. -/
theorem readPipe_newline (fmt : Formats) (firmware : Firmware) (rest : Bytes) :
    (readPipe firmware (10 :: rest) : Outcome (List (Action fmt) × Firmware)) =
      readPipe firmware rest := by
  have hnil : ([] : Bytes).length < 1023 := by decide
  have hline := readPipe_line fmt List.not_mem_nil hnil firmware rest
  have hskip : (readLine firmware ([] ++ [10]) : Outcome (List (Action fmt) × Firmware)) =
      .done ([], firmware) := rfl
  rw [List.nil_append] at hline
  rw [hline, hskip, Outcome.done_bind]
  simp only [List.nil_append]
  cases readPipe firmware rest with
  | done r => rfl
  | fault => rfl
  | spin => rfl

/-- A line that fits is carried out, and the reader goes on behind it. -/
theorem readPipe_fits {l : Line fmt} (h : l.Printed) (hfits : l.Fits) (firmware : Firmware)
    (rest : Bytes) : readPipe firmware (l.text ++ 10 :: rest) = (do
      let (more, firmware) ← readPipe firmware rest
      .done (l.action :: more, firmware)) := by
  rcases l.text_length h hfits with hlt | ⟨line, rfl, hfull⟩
  · rw [readPipe_line fmt (l.text_no_newline h) hlt, readLine_text h hfits, Outcome.done_bind]
    rfl
  · have htext : (Line.ui_print line : Line fmt).text = ascii "ui_print " ++ line ++ [] := by
      rw [List.append_nil]
      rfl
    have hread := readLine_ui_print fmt firmware h.1 h.2.1 h.2.2 (.inl rfl)
    rw [readPipe_full fmt (Line.text_no_newline h) (Nat.le_of_eq hfull.symm),
      List.take_of_length_le (Nat.le_of_eq hfull), List.drop_of_length_le (Nat.le_of_eq hfull),
      List.nil_append, htext, hread, Outcome.done_bind]
    simp only
    rw [readPipe_newline]
    rfl

/-- A line that does not fit is carried out as something else. -/
theorem readPipe_bad {l : Line fmt} (h : l.Printed) (hbad : ¬ l.Fits) {firmware firmware' : Firmware}
    {rest : Bytes} {actions : List (Action fmt)}
    (hrun : readPipe firmware (l.text ++ 10 :: rest) = .done (actions, firmware')) :
    ∃ action more, actions = action :: more ∧ action ≠ l.action := by
  cases l with
  | progress frac sec => exact absurd trivial hbad
  | set_progress frac => exact absurd trivial hbad
  | ui_newline => exact absurd trivial hbad
  | wipe_cache =>
    have hread : (readLine firmware (ascii "wipe_cache" ++ [10]) :
        Outcome (List (Action fmt) × Firmware)) =
        .done ([.unknown (ascii "wipe_cache")], firmware) := rfl
    rw [readPipe_line fmt (Line.text_no_newline h) (show (ascii "wipe_cache").length < 1023 by decide)]
      at hrun
    simp only [Line.text] at hrun
    rw [hread, Outcome.done_bind] at hrun
    obtain ⟨⟨more, fw⟩, -, hdone⟩ := Outcome.bind_eq_done.mp hrun
    have hactions := congrArg Prod.fst (Outcome.done.inj hdone)
    exact ⟨_, more, hactions.symm, by simp [Line.action]⟩
  | ui_print line =>
    have hlong : 1014 < line.length := Nat.not_le.mp hbad
    have hword : (ascii "ui_print ").length = 9 := by decide
    have hlen : 1023 ≤ (Line.ui_print line : Line fmt).text.length := by
      simp only [Line.text, List.length_append, hword]
      omega
    have htake : (Line.ui_print line : Line fmt).text.take 1023 =
        ascii "ui_print " ++ line.take 1014 ++ [] := by
      simp only [Line.text]
      rw [List.take_append, hword, List.take_of_length_le (by rw [hword]; omega), List.append_nil]
    have hne : line.take 1014 ≠ [] := by
      intro hnil
      have := congrArg List.length hnil
      rw [List.length_take, List.length_nil] at this
      omega
    have hread := readLine_ui_print fmt firmware hne
      (fun hmem => h.2.1 (List.mem_of_mem_take hmem))
      (fun hmem => h.2.2 (List.mem_of_mem_take hmem)) (.inl rfl)
    rw [readPipe_full fmt (Line.text_no_newline h) hlen, htake, hread, Outcome.done_bind] at hrun
    obtain ⟨⟨more, fw⟩, -, hdone⟩ := Outcome.bind_eq_done.mp hrun
    have hactions := congrArg Prod.fst (Outcome.done.inj hdone)
    refine ⟨_, more, hactions.symm, fun heq => ?_⟩
    have hsame : line.take 1014 = line := Action.ui_print.inj heq
    have := congrArg List.length hsame
    rw [List.length_take] at this
    omega

/-- The reader carries out all lines if and only if they fit. -/
theorem readPipe_pipe_iff (lines : List (Line fmt)) (h : ∀ l ∈ lines, l.Printed)
    (firmware : Firmware) : readPipe firmware (pipe lines) =
      .done (lines.map Line.action, firmware) ↔ ∀ l ∈ lines, l.Fits := by
  induction lines with
  | nil => simp [pipe, readPipe, fgetsAll_nil, readLines]
  | cons l lines ih =>
    have hl := h l (List.mem_cons_self ..)
    have ih := ih fun l' hl' => h l' (List.mem_cons_of_mem _ hl')
    have hshape : pipe (l :: lines) = l.text ++ 10 :: pipe lines := by simp [pipe]
    rw [hshape]
    constructor
    · intro hrun
      have hfits : l.Fits := by
        by_contra hbad
        obtain ⟨action, more, hactions, hne⟩ := readPipe_bad hl hbad hrun
        exact hne (List.cons.inj hactions).1.symm
      rw [readPipe_fits hl hfits] at hrun
      obtain ⟨⟨more, fw⟩, hrest, hdone⟩ := Outcome.bind_eq_done.mp hrun
      simp only [Outcome.done.injEq, Prod.mk.injEq, List.map_cons, List.cons.injEq, true_and]
        at hdone
      obtain ⟨rfl, rfl⟩ := hdone
      exact List.forall_mem_cons.mpr ⟨hfits, ih.mp hrest⟩
    · intro hfits
      obtain ⟨hlfits, hrest⟩ := List.forall_mem_cons.mp hfits
      rw [readPipe_fits hl hlfits, ih.mpr hrest]
      rfl

/-! ## All the calls -/

/-- The lines of a sequence of calls. -/
def callLines (fmt : Formats) (calls : List Call) : List (Line fmt) := calls.flatMap Call.lines

/-- What the reader does when the updater makes the calls. -/
def carriedOut (fmt : Formats) (calls : List Call) : Outcome (List (Action fmt) × Firmware) :=
  readPipe none (pipe (callLines fmt calls))

/-- The reader does what the calls ask for, in their order, if and only if none
of them is `wipe_cache` and no line of a message has more than 1014 bytes. -/
theorem command_pipe_iff (fmt : Formats) (calls : List Call) :
    carriedOut fmt calls = .done ((callLines fmt calls).map Line.action, none) ↔
      Call.wipe_cache ∉ calls ∧
        ∀ args, Call.ui_print args ∈ calls → ∀ line ∈ messageLines args, line.length ≤ 1014 := by
  have hprinted : ∀ l ∈ callLines fmt calls, l.Printed := by
    intro l hl
    obtain ⟨call, -, hl⟩ := List.mem_flatMap.mp hl
    exact call.lines_printed hl
  rw [carriedOut, readPipe_pipe_iff _ hprinted]
  constructor
  · intro hfits
    refine ⟨fun hmem => ?_, fun args hmem line hline => ?_⟩
    · exact hfits .wipe_cache (List.mem_flatMap.mpr ⟨_, hmem, List.mem_singleton_self _⟩)
    · exact hfits (.ui_print line) (List.mem_flatMap.mpr ⟨_, hmem,
        List.mem_append_left _ (List.mem_map.mpr ⟨line, hline, rfl⟩)⟩)
  · rintro ⟨hwipe, hlong⟩ l hl
    obtain ⟨call, hcall, hl⟩ := List.mem_flatMap.mp hl
    cases call with
    | show_progress frac_str sec_str =>
      rw [List.mem_singleton.mp hl]
      exact trivial
    | set_progress frac_str =>
      rw [List.mem_singleton.mp hl]
      exact trivial
    | ui_print args =>
      rcases List.mem_append.mp hl with hl | hl
      · obtain ⟨line, hline, rfl⟩ := List.mem_map.mp hl
        exact hlong args hcall line hline
      · rw [List.mem_singleton.mp hl]
        exact trivial
    | wipe_cache => exact absurd hcall hwipe

/-- Formats in which every fraction is one half. -/
def halfFormats : Formats where
  double := Unit
  float := Unit
  strtod := fun _ => ()
  strtof := fun _ => ()
  printf_f := fun _ => ascii "0.500000"
  printf_f_ne := by decide
  printf_f_text := fun _ => by decide +kernel
  printf_f_length := fun _ => by decide

/-- The command of `wipe_cache()` is unknown to the reader. -/
theorem command_pipe_wipe_cache :
    carriedOut halfFormats [.wipe_cache] = .done ([.unknown (ascii "wipe_cache")], none) ∧
      carriedOut halfFormats [.wipe_cache] ≠
        .done ((callLines halfFormats [.wipe_cache]).map Line.action, none) := by
  have hrun : carriedOut halfFormats [.wipe_cache] =
      .done ([.unknown (ascii "wipe_cache")], none) := rfl
  refine ⟨hrun, fun heq => ?_⟩
  rw [hrun] at heq
  simp [callLines, Call.lines, WipeCacheFn, Line.action] at heq

end BootableRecovery.CommandPipe
